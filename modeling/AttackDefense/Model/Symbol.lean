/-!
# Clocks and constants of a timed model

Every attack and defense has a clock of its own, and constants for its duration and its probability;
an attack may also have constants for its costs. Names are made from the name of the node and one of
a few stems.
-/

namespace AttackDefense.Model

inductive Clock where
  /-- Time that has passed. -/
  | time
  /-- Cost that has been paid. -/
  | cost
  /-- Runs while the activation cost of an attack is paid. -/
  | payment
  /-- The clock of an attack or a defense. -/
  | of (node : String)
deriving DecidableEq, Repr

def Clock.text : Clock → String
  | .time => "time"
  | .cost => "cost"
  | .payment => "xcost"
  | .of node => "x_" ++ node

inductive Constant where
  | attackCount
  | defenseCount
  /-- The completion time of an attack, or the period of a defense. -/
  | duration (node : String)
  | probability (node : String)
  | activationCost (attack : String)
  | proportionalCost (attack : String)
deriving DecidableEq, Repr

def Constant.text : Constant → String
  | .attackCount => "n_a"
  | .defenseCount => "n_d"
  | .duration node => "t_" ++ node
  | .probability node => "p_" ++ node
  | .activationCost attack => "c_" ++ attack
  | .proportionalCost attack => "cp_" ++ attack

end AttackDefense.Model
