import AttackDefense.Automaton.Build
import AttackDefense.Decimal.Layout

/-!
# Showing an automaton

`summary` is one line; `listing` adds each state with the edges that leave it.
-/

namespace AttackDefense.Automaton

open Decimal

/-- The size of the automaton. -/
def summary (m : Automaton) : String :=
  "ADMDP with " ++ toString m.size ++ " states and " ++ toString m.edges.size ++ " edges"

/-- An edge below its state; a probability stands behind its target. -/
def edgeLine (e : Edge) : String :=
  let probability := match e.move.probability? with
    | some p => " (" ++ Layout.plain.render p ++ ")"
    | none => ""
  "\n    --" ++ e.move.tag ++ "--> " ++ toString e.destination ++ probability

/-- A state with its edges, each on a line of its own. -/
def stateLines (m : Automaton) (id : StateId) : String :=
  (m.edgesOf id).foldl (fun out e => out ++ edgeLine e)
    ("\n" ++ toString id ++ ": " ++ (m.stateName? id).getD "")

/-- The summary and every state. -/
def listing (m : Automaton) : String :=
  (List.range m.size).foldl (fun out id => out ++ m.stateLines id) m.summary

end AttackDefense.Automaton
