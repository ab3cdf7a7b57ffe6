import AttackDefense.Automaton.State
import AttackDefense.Decimal.Binary64

/-!
# Edges

An edge leads from one state to another by a move: a choice of the attacker, the passing of time, or
an outcome of chance.
-/

namespace AttackDefense

open Decimal

inductive Move where
  /-- The attacker starts an attack. -/
  | start (attack : NodeId)
  /-- The attacker begins to pay for the start of an attack. -/
  | pay (attack : NodeId)
  /-- The attacker starts nothing more. -/
  | wait
  /-- The completion time of an attack has passed. -/
  | finish (attack : NodeId)
  | attackOutcome (attack : NodeId) (success : Bool) (probability : Binary64)
  /-- The period of a defense has passed, and it attempts a reset. -/
  | strike (defense : NodeId)
  | defenseOutcome (defense : NodeId) (success : Bool) (probability : Binary64)
  /-- The period of a defense has passed that has nothing to reset. -/
  | idle (defense : NodeId)
deriving DecidableEq, Inhabited, Repr

namespace Move

/-- The name shown for a move. -/
def tag : Move → String
  | .start _ => "Activation"
  | .pay _ => "ActivationCost"
  | .wait => "NoActivation"
  | .finish _ => "ToCompletion"
  | .attackOutcome .. => "Completion"
  | .strike _ => "ToDefense"
  | .defenseOutcome .. => "Defense"
  | .idle _ => "LoopDefense"

def attack? : Move → Option NodeId
  | .start a | .pay a | .finish a | .attackOutcome a _ _ => some a
  | _ => none

def defense? : Move → Option NodeId
  | .strike d | .defenseOutcome d _ _ | .idle d => some d
  | _ => none

/-- Whether an outcome is a success. -/
def success? : Move → Option Bool
  | .attackOutcome _ s _ | .defenseOutcome _ s _ => some s
  | _ => none

/-- The probability of an outcome. -/
def probability? : Move → Option Binary64
  | .attackOutcome _ _ p | .defenseOutcome _ _ p => some p
  | _ => none

end Move

structure Edge where
  source : StateId
  destination : StateId
  move : Move
deriving DecidableEq, Inhabited, Repr

end AttackDefense
