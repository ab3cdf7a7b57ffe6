import AttackDefense.Model.Declaration
import AttackDefense.Model.Template

/-!
# The document of a model

The whole model as a marked-up text: the declaration, the template, the system that consists of it,
and the queries.
-/

namespace AttackDefense.Model

open Markup

def queryElement (q : Query) : Element :=
  .block "query" [] [.text "formula" [] q.formula, .text "comment" [] q.comment]

def queriesElement (m : Model) : Element :=
  match m.queries with
  | [] => .text "queries" [] ""
  | queries => .block "queries" [] (queries.map queryElement)

/-- The root element. -/
def document (m : Model) : Element :=
  .block "nta" [] [
    .text "declaration" [] m.declaration,
    m.template,
    .text "system" [] ("system " ++ templateName ++ ";"),
    m.queriesElement]

/-- What stands before the root element. -/
def preamble : String :=
  "<?xml version=\"1.0\" encoding=\"utf-8\"?>\n" ++
  "<!DOCTYPE nta PUBLIC '-//Uppaal Team//DTD Flat System 1.1//EN' " ++
  "'http://www.it.uu.se/research/group/darts/uppaal/flat-1_2.dtd'>\n"

/-- The text of the model. -/
def text (m : Model) : String := m.document.write 0 preamble

end AttackDefense.Model
