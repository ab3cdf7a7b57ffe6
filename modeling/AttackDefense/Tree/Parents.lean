import AttackDefense.Tree.Walk

/-!
# Assigning parents

`setParents root` walks down from a root and makes each subgoal the parent of its children. A node
that has a parent already keeps it: meeting it again below the same parent is fine, below another one
is a conflict and ends the walk. What was assigned before the conflict stays assigned.
-/

namespace AttackDefense.Tree

/-- The name that stands for the parent of a root. -/
def noParent : String := "<none>"

/-- The fault of a node that has one parent and would get another. -/
def conflict (t : Tree) (node parent : NodeId) (other : String) : Fault :=
  .tree (.conflictingParent (t.name node) (t.name parent) other)

/-- Makes a node the parent of some children, up to the first conflict. -/
def adopt (t : Tree) (parent : NodeId) (parents : Array (Option NodeId)) :
    List NodeId → Array (Option NodeId) × Option Fault
  | [] => (parents, none)
  | c :: rest =>
    match parents[c]?.join with
    | none => t.adopt parent (parents.setIfInBounds c (some parent)) rest
    | some p =>
      if p = parent then t.adopt parent parents rest
      else (parents, some (t.conflict c p (t.name parent)))

/-- Assigns parents below the nodes of a stack. -/
def assignFrom (t : Tree) (parents : Array (Option NodeId)) :
    List NodeId → Array (Option NodeId) × Option Fault
  | [] => (parents, none)
  | id :: stack =>
    match t.adopt id parents (t.children id) with
    | (parents, some fault) => (parents, some fault)
    | (parents, none) => t.assignFrom parents (t.children id ++ stack)
termination_by stack => t.stackWeight stack
decreasing_by exact t.stackWeight_children_lt id stack

/-- Assigns the parent of every node below a root, as far as there is no conflict. -/
def setParents (t : Tree) (root : NodeId) : Tree × Option Fault :=
  if ¬ t.has root then (t, some (.tree (.unknownNode root)))
  else match t.parent? root with
    | some p => (t, some (t.conflict root p noParent))
    | none =>
      let (parents, fault) := t.assignFrom t.parents [root]
      ({ t with parents }, fault)

end AttackDefense.Tree
