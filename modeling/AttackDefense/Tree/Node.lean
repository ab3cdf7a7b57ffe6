import AttackDefense.Decimal.Binary64

/-!
# Nodes of attack-defense trees

A node is an attack, a defense or a subgoal. Nodes refer to each other by number (`NodeId`), which
is their place in a `Tree`. Defenses are attached to the nodes they protect and may protect several,
so they are no children: the children of a subgoal are its attacks and, after them, its subgoals.
-/

namespace AttackDefense

open Decimal

/-- The place of a node in its tree. -/
abbrev NodeId := Nat

/-- How the children of a subgoal combine. -/
inductive Refinement where
  | and
  | or
  /-- A single child, which completes the subgoal. -/
  | edge
deriving DecidableEq, Inhabited, Repr

/-- The name shown for a refinement. -/
def Refinement.text : Refinement → String
  | .and => "AND"
  | .or => "OR"
  | .edge => "EDGE"

/-- Whether a subgoal is reached, when `done` tells which of its children are. -/
def Refinement.reached (r : Refinement) (children : List NodeId) (done : NodeId → Bool) : Bool :=
  match r with
  | .and => children.all done
  | .or | .edge => children.any done

/-- An atomic attack. -/
structure Attack where
  name : String
  /-- The time from activation to completion. -/
  completionTime : UInt32
  successProbability : Binary64
  /-- Paid once, at activation. -/
  activationCost : Option UInt32
  /-- Paid per time unit while the attack is underway. -/
  proportionalCost : Option UInt32
  /-- The defenses that can reset the attack. -/
  defenses : List NodeId
deriving DecidableEq, Inhabited, Repr

/-- Whether activation is preceded by a step in which its cost accrues. -/
def Attack.hasActivationCost (a : Attack) : Bool := a.activationCost.any (0 < ·)

/-- A defense that attempts a reset of the nodes it protects once a period. -/
structure Defense where
  name : String
  /-- The time between two attempts. -/
  period : UInt32
  successProbability : Binary64
  cost : UInt32
deriving DecidableEq, Inhabited, Repr

/-- A goal that is refined into other goals. -/
structure Subgoal where
  name : String
  refinement : Refinement
  attackChildren : List NodeId
  subgoalChildren : List NodeId
  defenses : List NodeId
  /-- Whether a successful defense also erases the progress of everything below. -/
  reset : Bool
deriving DecidableEq, Inhabited, Repr

def Subgoal.children (s : Subgoal) : List NodeId := s.attackChildren ++ s.subgoalChildren

inductive Node where
  | attack (a : Attack)
  | defense (d : Defense)
  | subgoal (s : Subgoal)
deriving DecidableEq, Inhabited, Repr

namespace Node

def name : Node → String
  | .attack a => a.name
  | .defense d => d.name
  | .subgoal s => s.name

/-- The attached defenses; a defense has none. -/
def defenses : Node → List NodeId
  | .attack a => a.defenses
  | .defense _ => []
  | .subgoal s => s.defenses

/-- The attacks and, after them, the subgoals that refine a node. -/
def children : Node → List NodeId
  | .subgoal s => s.children
  | _ => []

def isReset : Node → Bool
  | .subgoal s => s.reset
  | _ => false

def asAttack? : Node → Option Attack
  | .attack a => some a
  | _ => none

def asDefense? : Node → Option Defense
  | .defense d => some d
  | _ => none

def asSubgoal? : Node → Option Subgoal
  | .subgoal s => some s
  | _ => none

end Node

end AttackDefense
