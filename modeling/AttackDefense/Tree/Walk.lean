import AttackDefense.Tree.Basic
import Std.Data.HashSet

/-!
# Walks over a tree

`depthFirst` lists a node and all attacks and subgoals below it, each node before its children; it
keeps the nodes still to visit on a stack. `depthFirstWithDefenses` adds each attached defense once,
behind the first node it is attached to. `ancestors` climbs to the root.

Walks down end because the weight of a node, the number of nodes that a walk from it visits, is one
more than the weights of its children together (`weight_eq`).
-/

namespace AttackDefense.Tree

/-- How many nodes a walk down from a node visits. -/
def weight (t : Tree) (id : NodeId) : Nat :=
  1 + (t.children id).attach.foldr (fun c n => t.weight c.1 + n) 0
termination_by id
decreasing_by exact children_lt c.2

/-- How many nodes walks down from the nodes of a stack visit. -/
def stackWeight (t : Tree) (stack : List NodeId) : Nat :=
  stack.foldr (fun id n => t.weight id + n) 0

theorem weight_eq (t : Tree) (id : NodeId) : t.weight id = 1 + t.stackWeight (t.children id) := by
  rw [weight, List.foldr_attach (f := fun id n => t.weight id + n), stackWeight]

theorem stackWeight_append (t : Tree) (l m : List NodeId) :
    t.stackWeight (l ++ m) = t.stackWeight l + t.stackWeight m := by
  induction l with
  | nil => simp [stackWeight]
  | cons id l ih =>
    simp only [stackWeight, List.cons_append, List.foldr_cons] at ih ⊢
    rw [ih, Nat.add_assoc]

/-- A walk that goes on from the children of a node has less to visit. -/
theorem stackWeight_children_lt (t : Tree) (id : NodeId) (stack : List NodeId) :
    t.stackWeight (t.children id ++ stack) < t.stackWeight (id :: stack) := by
  have h : t.stackWeight (id :: stack) = t.weight id + t.stackWeight stack := rfl
  rw [h, weight_eq, stackWeight_append]
  omega

/-- Visits the nodes of a stack and everything below them. -/
def depthFirstFrom (t : Tree) (visited : Array NodeId) : List NodeId → Array NodeId
  | [] => visited
  | id :: stack => t.depthFirstFrom (visited.push id) (t.children id ++ stack)
termination_by stack => t.stackWeight stack
decreasing_by exact t.stackWeight_children_lt id stack

/-- A node, then everything below it, each node before its children and these in order. -/
def depthFirst (t : Tree) (start : NodeId) : List NodeId := (t.depthFirstFrom #[] [start]).toList

/-- The nodes listed so far and the defenses among them. -/
structure Listing where
  visited : Array NodeId
  seen : Std.HashSet NodeId

/-- Lists a defense, unless it is there already. -/
def Listing.addDefense (l : Listing) (d : NodeId) : Listing :=
  if l.seen.contains d then l else ⟨l.visited.push d, l.seen.insert d⟩

/-- Lists a node and behind it the defenses attached to it. -/
def Listing.addNode (t : Tree) (l : Listing) (id : NodeId) : Listing :=
  (t.defensesOf id).foldl Listing.addDefense { l with visited := l.visited.push id }

/-- The walk from a node, with every attached defense behind its first owner. -/
def depthFirstWithDefenses (t : Tree) (start : NodeId) : List NodeId :=
  ((t.depthFirst start).foldl (Listing.addNode t) ⟨#[], {}⟩).visited.toList

/-- The parent of a node, the parent of that, and so on. A parent that is not a later node of the
tree ends the climb; no such parent is ever assigned. -/
def ancestors (t : Tree) (id : NodeId) : List NodeId :=
  match t.parent? id with
  | none => []
  | some p => if _h : id < p ∧ p < t.size then p :: t.ancestors p else []
termination_by t.size - id
decreasing_by exact Nat.sub_lt_sub_left (Nat.lt_trans _h.1 _h.2) _h.1

/-! ## Guarded walks

Nothing is answered for a number that is no node of the tree. -/

def name? (t : Tree) (id : NodeId) : Option String := (t.node? id).map Node.name

def depthFirst? (t : Tree) (start : NodeId) : Option (List NodeId) :=
  if t.has start then some (t.depthFirst start) else none

def depthFirstWithDefenses? (t : Tree) (start : NodeId) : Option (List NodeId) :=
  if t.has start then some (t.depthFirstWithDefenses start) else none

def children? (t : Tree) (id : NodeId) : Option (List NodeId) :=
  if t.has id then some (t.children id) else none

def ancestors? (t : Tree) (id : NodeId) : Option (List NodeId) :=
  if t.has id then some (t.ancestors id) else none

end AttackDefense.Tree
