import AttackDefense.Model.Symbol

/-!
# Guards and invariants

A guard tells when a transition may be taken, an invariant how long a location may be stayed in and
how its clocks run there. Both are lists of conditions that hold together.
-/

namespace AttackDefense.Model

/-! ## Guards -/

/-- A condition on clocks at the moment of a transition. -/
inductive Guard.Atom where
  /-- The clock of a node has reached its duration. -/
  | due (node : String)
  /-- The clock of a node has not reached its duration. -/
  | notDue (node : String)
  /-- The activation cost has been paid. -/
  | paid
deriving DecidableEq, Repr

abbrev Guard := List Guard.Atom

def Guard.Atom.text : Guard.Atom → String
  | .due node => (Clock.of node).text ++ " >= " ++ (Constant.duration node).text
  | .notDue node => (Clock.of node).text ++ " < " ++ (Constant.duration node).text
  | .paid => Clock.payment.text ++ " >= 1"

def Guard.text (g : Guard) : String := " && ".intercalate (g.map Guard.Atom.text)

/-! ## Invariants -/

/-- A condition that holds while a location is stayed in. -/
inductive Invariant.Conjunct where
  /-- A clock does not run. -/
  | stopped (clock : Clock)
  /-- The activation cost is not yet paid in full. -/
  | unpaid
  /-- Cost grows by the sum of some constants per time unit. -/
  | costRate (rates : List Constant)
  /-- The clock of a node has not passed its duration. -/
  | notPast (node : String)
deriving DecidableEq, Repr

structure Invariant where
  conjuncts : List Invariant.Conjunct
  /-- Whether all conjuncts stand on one line. -/
  oneLine : Bool
deriving DecidableEq, Repr

def Invariant.Conjunct.text : Invariant.Conjunct → String
  | .stopped clock => clock.text ++ "' == 0"
  | .unpaid => Clock.payment.text ++ " <= 1"
  | .costRate rates =>
    Clock.cost.text ++ "' == " ++
      if rates.isEmpty then "0" else " + ".intercalate (rates.map Constant.text)
  | .notPast node => (Clock.of node).text ++ " <= " ++ (Constant.duration node).text

def Invariant.text (i : Invariant) : String :=
  (if i.oneLine then " && " else " &&\n").intercalate (i.conjuncts.map Invariant.Conjunct.text)

end AttackDefense.Model
