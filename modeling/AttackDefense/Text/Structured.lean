import AttackDefense.Text.Quoted
import AttackDefense.Decimal.Layout

/-!
# Structured notation of values

A value of a named alternative is written as its name, followed by its parts: named parts between
braces, a single part between parentheses. Texts are quoted and numbers keep their point.
-/

namespace AttackDefense.Text

/-- An alternative with named parts. -/
def withFields (name : String) (fields : List (String × String)) : String :=
  name ++ " \x7b " ++ ", ".intercalate (fields.map fun (field, value) => field ++ ": " ++ value) ++
    " \x7d"

/-- An alternative with one part that has no name. -/
def withPart (name value : String) : String := name ++ "(" ++ value ++ ")"

end AttackDefense.Text
