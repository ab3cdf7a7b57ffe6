import AttackDefense.Graph.Progress

/-!
# Resets

A successful defense takes progress back. `activeDefenses` lists the defenses that are in scope, so
that an attempt is worth an edge of its own; `applyDefense` is what a success does.

An attack that is reset is no longer underway nor completed. A subgoal is no longer completed, and a
reset subgoal also forgets everything below it. The completed goals above are retracted up to the
first checkpoint, and the next propagation completes them again where enough progress remains.
-/

namespace AttackDefense.Graph

/-- The nodes at which progress can be taken back: those with progress, and the reset subgoals above
them. -/
def touched (g : Graph) (c : Configuration) : List NodeId :=
  c.nodes.flatMap fun id => id :: (g.tree.ancestors id).filter g.tree.isReset

/-- The defenses that are attached to a node with progress, or to a reset subgoal above one. -/
def activeDefenses (g : Graph) (c : Configuration) : List NodeId :=
  let scope := (g.touched c).flatMap g.tree.defensesOf
  g.defenses.filter (· ∈ scope)

/-- Nothing is answered when a number that is no node of the tree would be looked up. -/
def activeDefenses? (g : Graph) (c : Configuration) : Option (List NodeId) :=
  if g.covers c then some (g.activeDefenses c) else none

/-- Takes back the progress of one owner of a defense. -/
def resetOwner (g : Graph) (c : Configuration) (owner : NodeId) : Configuration :=
  let lost := if g.tree.isReset owner then g.tree.depthFirst owner else [owner]
  (c.forget lost).retract ((g.tree.ancestors owner).takeWhile fun a => !g.isCheckpoint a)

/-- The configuration after a success of a defense. Owners behind a completed checkpoint are history
already and are left alone. -/
def applyDefense (g : Graph) (d : NodeId) (c : Configuration) : Configuration :=
  ((g.owners d).filter fun o => !g.behindCheckpoint c.completed o).foldl g.resetOwner c

end AttackDefense.Graph
