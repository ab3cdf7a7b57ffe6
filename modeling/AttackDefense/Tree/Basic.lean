import AttackDefense.Call
import AttackDefense.Fault
import AttackDefense.Tree.Node
import Std.Data.HashMap

/-!
# Attack-defense trees

A `Tree` holds its nodes in the order in which they were added, an index of their names, and the
parents assigned so far. A subgoal is added over nodes that are there already, so every child has a
smaller number than its subgoal (`Tree.children_lt`): walks downwards end, and so do walks upwards.

Adding a node is a call on the tree. It checks the numbers of the node, then the nodes it refers to,
and last its name, before it changes the tree. `addAttack` and the like are for a caller who has no
use for a tree that refused a node.
-/

namespace AttackDefense

open Decimal

structure Tree where
  nodes : Array Node
  /-- The parent of each node, once assigned. -/
  parents : Array (Option NodeId)
  names : Std.HashMap String NodeId
  /-- The most attack and subgoal children that a subgoal may be added with. -/
  maxArity : Nat
  child_lt : ∀ id (node : Node), nodes[id]? = some node → ∀ c ∈ node.children, c < id

namespace Tree

/-- The bound that stands for no bound at all. -/
def unboundedArity : Nat := UInt64.size - 1

def empty (maxArity : Nat := unboundedArity) : Tree where
  nodes := #[]
  parents := #[]
  names := {}
  maxArity
  child_lt := by simp

instance : Inhabited Tree := ⟨empty⟩

/-! ## Looking nodes up

The functions on a number that is no node of the tree give what a node without a name, children,
defenses and parent would give. -/

def size (t : Tree) : Nat := t.nodes.size

def node? (t : Tree) (id : NodeId) : Option Node := t.nodes[id]?

/-- Whether a number is a node of the tree. -/
def has (t : Tree) (id : NodeId) : Bool := id < t.size

/-- The node of a name. -/
def find? (t : Tree) (name : String) : Option NodeId := t.names[name]?

def name (t : Tree) (id : NodeId) : String := ((t.node? id).map Node.name).getD ""

/-- Attack children first, then subgoal children. -/
def children (t : Tree) (id : NodeId) : List NodeId := ((t.node? id).map Node.children).getD []

def defensesOf (t : Tree) (id : NodeId) : List NodeId := ((t.node? id).map Node.defenses).getD []

def isReset (t : Tree) (id : NodeId) : Bool := (t.node? id).any Node.isReset

def parent? (t : Tree) (id : NodeId) : Option NodeId := t.parents[id]?.join

def attack? (t : Tree) (id : NodeId) : Option Attack := (t.node? id).bind Node.asAttack?

def defense? (t : Tree) (id : NodeId) : Option Defense := (t.node? id).bind Node.asDefense?

def subgoal? (t : Tree) (id : NodeId) : Option Subgoal := (t.node? id).bind Node.asSubgoal?

def isAttack (t : Tree) (id : NodeId) : Bool := (t.attack? id).isSome

def isDefense (t : Tree) (id : NodeId) : Bool := (t.defense? id).isSome

def isSubgoal (t : Tree) (id : NodeId) : Bool := (t.subgoal? id).isSome

theorem children_lt {t : Tree} {id c : NodeId} (h : c ∈ t.children id) : c < id := by
  unfold children node? at h
  cases hn : t.nodes[id]? with
  | none => simp [hn] at h
  | some node => exact t.child_lt id node hn c (by simpa [hn] using h)

theorem lt_size_of_isSome {t : Tree} {id : NodeId} (h : (t.node? id).isSome) : id < t.size := by
  simpa [node?, size] using h

theorem lt_size_of_isAttack {t : Tree} {id : NodeId} (h : t.isAttack id) : id < t.size := by
  apply lt_size_of_isSome
  cases hn : t.node? id with
  | none => simp [isAttack, attack?, hn] at h
  | some _ => rfl

theorem lt_size_of_isSubgoal {t : Tree} {id : NodeId} (h : t.isSubgoal id) : id < t.size := by
  apply lt_size_of_isSome
  cases hn : t.node? id with
  | none => simp [isSubgoal, subgoal?, hn] at h
  | some _ => rfl

/-! ## Adding nodes -/

/-- Letters, digits and underscores, and no digit in front. -/
def isIdentifier (name : String) : Bool :=
  match name.toList with
  | [] => false
  | c :: rest => (c.isAlpha || c = '_') && rest.all fun c => c.isAlphanum || c = '_'

/-- The probability of a node must lie between 0 and 1. -/
def checkProbability (name : String) (value : Binary64) : Except Fault Unit :=
  if value.isProbability then .ok () else .error (.number (.probability name value))

/-- A number must be that of a node. -/
def expectNode (t : Tree) (id : NodeId) : Except Fault Unit :=
  if t.has id then .ok () else .error (.tree (.unknownNode id))

/-- The fault of a node that is missing or of another kind. -/
def wrongKind (t : Tree) (id : NodeId) (expected : String) : Fault :=
  match t.node? id with
  | some node => .tree (.wrongKind node.name expected)
  | none => .tree (.unknownNode id)

/-- The defense at a number. -/
def expectDefense (t : Tree) (id : NodeId) : Except Fault Defense :=
  match t.defense? id with
  | some d => .ok d
  | none => .error (t.wrongKind id "a defense")

/-- The attack at a number. -/
def expectAttack (t : Tree) (id : NodeId) : Except Fault Attack :=
  match t.attack? id with
  | some a => .ok a
  | none => .error (t.wrongKind id "an attack")

theorem child_lt_push {t : Tree} {node : Node} (h : ∀ c ∈ node.children, c < t.size) (id : NodeId)
    (other : Node) (hn : (t.nodes.push node)[id]? = some other) : ∀ c ∈ other.children, c < id := by
  intro c hc
  rw [Array.getElem?_push] at hn
  split at hn
  · next hid =>
    cases hn
    exact hid ▸ h c hc
  · exact t.child_lt id other hn c hc

/-- The tree with one more node. -/
def withNode (t : Tree) (node : Node) (h : ∀ c ∈ node.children, c < t.size) : Tree where
  nodes := t.nodes.push node
  parents := t.parents.push none
  names := t.names.insert node.name t.size
  maxArity := t.maxArity
  child_lt := child_lt_push h

/-- Adds a node to a tree at the next number, if its name is new and an identifier. -/
@[inline] def insertCall (t : Tree) (node : Node) (h : ∀ c ∈ node.children, c < t.size) :
    Call Fault Tree NodeId := do
  Call.demand (isIdentifier node.name) (.tree (.invalidName node.name))
  Call.demand (t.find? node.name = none) (.tree (.duplicateName node.name))
  let id := t.size
  set (t.withNode node h)
  return id

theorem children_attack_lt (t : Tree) (a : Attack) : ∀ c ∈ (Node.attack a).children, c < t.size := by
  simp [Node.children]

theorem children_defense_lt (t : Tree) (d : Defense) :
    ∀ c ∈ (Node.defense d).children, c < t.size := by
  simp [Node.children]

def attackCall (a : Attack) : Call Fault Tree NodeId := do
  let t ← get
  Call.check (checkProbability a.name a.successProbability)
  Call.check (a.defenses.forM fun d => (t.expectDefense d).map fun _ => ())
  t.insertCall (.attack a) (t.children_attack_lt a)

def defenseCall (d : Defense) : Call Fault Tree NodeId := do
  let t ← get
  Call.check (checkProbability d.name d.successProbability)
  Call.demand (d.period ≠ 0) (.number (.zeroPeriod d.name))
  t.insertCall (.defense d) (t.children_defense_lt d)

/-- The subgoal over some nodes, which are told apart by their kinds and else keep their order. -/
def subgoalOver (t : Tree) (name : String) (refinement : Refinement) (members : List NodeId)
    (reset : Bool) : Subgoal where
  name
  refinement
  attackChildren := members.filter t.isAttack
  subgoalChildren := members.filter t.isSubgoal
  defenses := members.filter t.isDefense
  reset

theorem children_subgoalOver_lt {t : Tree} {name : String} {refinement : Refinement}
    {members : List NodeId} {reset : Bool} {c : NodeId}
    (h : c ∈ (t.subgoalOver name refinement members reset).children) : c < t.size := by
  simp only [Subgoal.children, subgoalOver, List.mem_append, List.mem_filter] at h
  rcases h with ⟨_, h⟩ | ⟨_, h⟩
  · exact lt_size_of_isAttack h
  · exact lt_size_of_isSubgoal h

/-- Adds a subgoal over nodes of the tree: its children and the defenses attached to it. -/
def subgoalCall (name : String) (refinement : Refinement) (members : List NodeId) (reset : Bool) :
    Call Fault Tree NodeId := do
  let t ← get
  Call.check (members.forM t.expectNode)
  let s := t.subgoalOver name refinement members reset
  let arity := s.children.length
  Call.demand (arity ≠ 0 ∧ arity ≤ t.maxArity) (.tree (.arity name arity t.maxArity))
  Call.demand (refinement = .edge → arity = 1) (.tree (.edgeArity name arity))
  t.insertCall (.subgoal s) fun _ h => children_subgoalOver_lt h

def insert (t : Tree) (node : Node) (h : ∀ c ∈ node.children, c < t.size) :
    Except Fault (Tree × NodeId) :=
  (t.insertCall node h).outcome t

def addAttack (t : Tree) (a : Attack) : Except Fault (Tree × NodeId) := (attackCall a).outcome t

def addDefense (t : Tree) (d : Defense) : Except Fault (Tree × NodeId) := (defenseCall d).outcome t

def addSubgoal (t : Tree) (name : String) (refinement : Refinement) (members : List NodeId)
    (reset : Bool) : Except Fault (Tree × NodeId) :=
  (subgoalCall name refinement members reset).outcome t

end Tree

end AttackDefense
