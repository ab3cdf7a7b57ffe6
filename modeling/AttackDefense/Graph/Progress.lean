import AttackDefense.Configuration
import AttackDefense.Graph.Basic

/-!
# Progress

What a configuration means in a graph. Completion propagates upwards (`propagate`). A *checkpoint* is
a node that no defense can take back: none is attached to it, and it is no reset subgoal. Once a
checkpoint is completed, everything below it is history, and `reduce` forgets it. `normalize`
propagates and then reduces; its results are the canonical configurations.

A subgoal is listed before everything below it, so one pass over the subgoals in reverse order
settles each of them after its children, and reaches the least set that is closed under completion.
-/

namespace AttackDefense.Graph

/-- Adds a subgoal to the completed nodes if its children complete it. -/
def settle (g : Graph) (goal : NodeId) (completed : NodeSet) : NodeSet :=
  if goal ∈ completed then completed
  else match g.tree.subgoal? goal with
    | some s =>
      if s.refinement.reached s.children (fun c => c ∈ completed) then completed.insert goal
      else completed
    | none => completed

/-- Adds every subgoal whose completion follows. -/
def propagate (g : Graph) (completed : NodeSet) : NodeSet := g.subgoals.foldr g.settle completed

/-- A node that is never taken back once it is completed. -/
def isCheckpoint (g : Graph) (id : NodeId) : Bool :=
  (g.tree.defensesOf id).isEmpty && !g.tree.isReset id

/-- Whether a completed checkpoint stands above a node. -/
def behindCheckpoint (g : Graph) (completed : NodeSet) (id : NodeId) : Bool :=
  (g.tree.ancestors id).any fun a => a ∈ completed && g.isCheckpoint a

/-- Forgets attacks that are over, and all progress behind completed checkpoints. -/
def reduce (g : Graph) (c : Configuration) : Configuration :=
  let underway := c.activated.filter (· ∉ c.completed)
  let completed := c.completed.filter fun id => !g.behindCheckpoint c.completed id
  ⟨underway.filter fun id => !g.behindCheckpoint completed id, completed⟩

/-- The canonical form of a configuration. -/
def normalize (g : Graph) (c : Configuration) : Configuration :=
  g.reduce { c with completed := g.propagate c.completed }

/-- Whether an attack may still be started. -/
def isAvailable (g : Graph) (c : Configuration) (attack : NodeId) : Bool :=
  attack ∉ c.activated && attack ∉ c.completed && !g.behindCheckpoint c.completed attack

def availableAttacks (g : Graph) (c : Configuration) : List NodeId :=
  g.attacks.filter (g.isAvailable c)

/-- Whether the root goal is reached. -/
def isAccepting (g : Graph) (c : Configuration) : Bool := g.root ∈ c.completed

/-! ## Guarded forms

Nothing is answered when a number that is no node of the tree would be looked up. -/

/-- Whether a configuration is about nodes of the tree only. -/
def covers (g : Graph) (c : Configuration) : Bool := c.nodes.all g.tree.has

def reduce? (g : Graph) (c : Configuration) : Option Configuration :=
  if g.covers c then some (g.reduce c) else none

def normalize? (g : Graph) (c : Configuration) : Option Configuration :=
  if g.covers c then some (g.normalize c) else none

def isCheckpoint? (g : Graph) (id : NodeId) : Option Bool :=
  if g.tree.has id then some (g.isCheckpoint id) else none

def behindCheckpoint? (g : Graph) (completed : NodeSet) (id : NodeId) : Option Bool :=
  if g.tree.has id then some (g.behindCheckpoint completed id) else none

/-- A number that is activated or completed is not available, whatever it is. -/
def isAvailable? (g : Graph) (c : Configuration) (attack : NodeId) : Option Bool :=
  if attack ∈ c.nodes ∨ g.tree.has attack then some (g.isAvailable c attack) else none

end AttackDefense.Graph
