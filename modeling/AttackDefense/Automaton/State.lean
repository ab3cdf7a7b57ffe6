import AttackDefense.Configuration

/-!
# States

A state of the decision process is a phase together with a canonical configuration. Its key lists the
configuration in the order of node names and is its identity; the other fields follow from the key.
-/

namespace AttackDefense

/-- The place of a state in its automaton. -/
abbrev StateId := Nat

/-- What happens next in a state. -/
inductive Phase where
  /-- The attacker starts another attack or waits. -/
  | deciding
  /-- The activation cost of an attack accrues. -/
  | paying (attack : NodeId)
  /-- The attacker waits for an attack to complete or a defense to act. -/
  | waiting
  /-- An attack succeeds or fails. -/
  | attempting (attack : NodeId)
  /-- A defense succeeds or fails. -/
  | resetting (defense : NodeId)
deriving DecidableEq, Hashable, Inhabited, Repr

namespace Phase

/-- The name shown for a phase. -/
def tag : Phase → String
  | .deciding => "Attacker"
  | .paying _ => "ActivationCost"
  | .waiting => "NoActivation"
  | .attempting _ => "Completion"
  | .resetting _ => "Defense"

/-- A branch point is left at once, by one of two edges that chance picks. -/
def isBranchPoint : Phase → Bool
  | .attempting _ | .resetting _ => true
  | _ => false

/-- The attack or defense that a phase is about. -/
def node? : Phase → Option NodeId
  | .paying a | .attempting a => some a
  | .resetting d => some d
  | .deciding | .waiting => none

end Phase

/-- The identity of a state. -/
structure StateKey where
  phase : Phase
  activated : List NodeId
  completed : List NodeId
deriving DecidableEq, Hashable, Inhabited, Repr

structure State where
  key : StateKey
  /-- Whether the root goal is reached. -/
  accepting : Bool
  initial : Bool
  /-- The defenses that are in scope, in the order of the graph. -/
  activeDefenses : List NodeId
deriving DecidableEq, Inhabited, Repr

def StateKey.configuration (k : StateKey) : Configuration :=
  ⟨.ofList k.activated, .ofList k.completed⟩

def State.phase (s : State) : Phase := s.key.phase

def State.configuration (s : State) : Configuration := s.key.configuration

/-- Whether the fields that follow from the key are the same. -/
def State.agrees (s t : State) : Bool :=
  s.accepting == t.accepting && s.initial == t.initial && s.activeDefenses == t.activeDefenses

end AttackDefense
