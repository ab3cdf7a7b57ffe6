import AttackDefense.NodeSet

/-!
# Configurations

A snapshot of attack progress: the attacks that are underway and the nodes that have been reached.
-/

namespace AttackDefense

structure Configuration where
  /-- Attacks that are underway. -/
  activated : NodeSet
  /-- Attacks and subgoals that have been reached. -/
  completed : NodeSet
deriving DecidableEq, Inhabited, Repr

namespace Configuration

def empty : Configuration := ⟨.empty, .empty⟩

def isEmpty (c : Configuration) : Bool := c.activated.isEmpty && c.completed.isEmpty

def activate (c : Configuration) (attack : NodeId) : Configuration :=
  { c with activated := c.activated.insert attack }

def complete (c : Configuration) (node : NodeId) : Configuration :=
  { c with completed := c.completed.insert node }

def deactivate (c : Configuration) (attack : NodeId) : Configuration :=
  { c with activated := c.activated.erase attack }

/-- Forgets all progress of some nodes. -/
def forget (c : Configuration) (nodes : List NodeId) : Configuration :=
  ⟨c.activated.filter (· ∉ nodes), c.completed.filter (· ∉ nodes)⟩

/-- Takes back the completion of some nodes. -/
def retract (c : Configuration) (nodes : List NodeId) : Configuration :=
  { c with completed := c.completed.filter (· ∉ nodes) }

/-- Every node that is activated or completed. -/
def nodes (c : Configuration) : List NodeId := c.activated.toList ++ c.completed.toList

end Configuration

end AttackDefense
