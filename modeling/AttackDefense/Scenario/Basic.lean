import AttackDefense.Decimal.Binary64
import AttackDefense.Tree.Node

/-!
# Scenarios

A scenario describes a whole attack-defense tree as one nested value. Defenses are declared in a list
of their own or inline, among the children of the subgoal they protect; attacks refer to their
defenses by name. Whole numbers keep a sign here, so that a negative one can be told.
-/

namespace AttackDefense

open Decimal

namespace Scenario

structure DefenseSpec where
  name : String
  period : Int64
  successProbability : Binary64
  cost : Int64
deriving DecidableEq

structure AttackSpec where
  name : String
  completionTime : Int64
  successProbability : Binary64
  activationCost : Option Int64
  proportionalCost : Option Int64
  /-- Names of defenses that are declared before the attack. -/
  defenses : List String
deriving DecidableEq

/-- A node of the description, with everything below it. -/
inductive Goal where
  | attack (a : AttackSpec)
  | defense (d : DefenseSpec)
  | subgoal (name : String) (refinement : Refinement) (children : List Goal) (reset : Bool)

end Scenario

structure Scenario where
  /-- Defenses declared ahead of the tree. -/
  defenses : List Scenario.DefenseSpec
  root : Scenario.Goal
  /-- The most attack and subgoal children of a subgoal. -/
  maxArity : Option UInt64

end AttackDefense
