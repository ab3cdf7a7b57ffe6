import AttackDefense.Tree.Parents

/-!
# Attack-defense graphs

A `Graph` is a tree with a root goal and the indices of what lies below the root: the attacks, the
subgoals and the defenses in depth-first order, the nodes that each defense protects (its owners),
and the later defenses that follow it. A defense follows another if it comes later and protects a
node that the other one protects, or a sibling of such a node.

`Graph.ofTree` refuses a root that is no subgoal or has defenses attached, and a tree in which some
node below the root would have two parents.
-/

namespace AttackDefense

structure Graph where
  tree : Tree
  root : NodeId
  /-- In depth-first order, like the other lists. -/
  attacks : List NodeId
  /-- Each defense once, behind its first owner. -/
  defenses : List NodeId
  subgoals : List NodeId
  ownerTable : Std.HashMap NodeId (List NodeId)
  followerTable : Std.HashMap NodeId (List NodeId)

namespace Graph

/-! ## Indices -/

/-- The nodes of a list that a defense is attached to, as often as it is attached. -/
def ownersAmong (t : Tree) (nodes : List NodeId) (d : NodeId) : List NodeId :=
  nodes.flatMap fun id => (t.defensesOf id).filterMap fun e => if e = d then some id else none

/-- Whether two nodes are the same or children of the same subgoal. -/
def related (t : Tree) (x y : NodeId) : Bool :=
  x == y || ((t.parent? x).isSome && t.parent? x == t.parent? y)

/-- Whether a later defense follows an earlier one, given the owners of each. -/
def follows (t : Tree) (owners : NodeId → List NodeId) (d later : NodeId) : Bool :=
  (owners d).any fun o => (owners later).any fun p => related t o p

/-- Each defense of a list with those behind it that follow it. -/
def followersAmong (t : Tree) (owners : NodeId → List NodeId) :
    List NodeId → List (NodeId × List NodeId)
  | [] => []
  | d :: later => (d, later.filter (follows t owners d)) :: followersAmong t owners later

/-- The indices of what lies below a root. -/
def index (t : Tree) (root : NodeId) : Graph :=
  let listed := t.depthFirstWithDefenses root
  let defenses := listed.filter t.isDefense
  let reachable := t.depthFirst root
  let ownerTable := Std.HashMap.ofList (defenses.map fun d => (d, ownersAmong t reachable d))
  { tree := t
    root
    attacks := listed.filter t.isAttack
    defenses
    subgoals := listed.filter t.isSubgoal
    ownerTable
    followerTable :=
      Std.HashMap.ofList (followersAmong t (fun d => ownerTable.getD d []) defenses) }

/-- The graph below a root, with the parents assigned. -/
def ofTree (t : Tree) (root : NodeId) : Except Fault Graph :=
  match t.node? root with
  | none => .error (.tree (.unknownNode root))
  | some (.subgoal s) =>
    if s.defenses ≠ [] then .error (.tree (.defendedRoot s.name))
    else match t.setParents root with
      | (_, some fault) => .error fault
      | (t, none) => .ok (index t root)
  | some node => .error (.tree (.rootNotSubgoal node.name))

/-! ## Looking up -/

def name (g : Graph) (id : NodeId) : String := g.tree.name id

/-- The nodes that a defense protects. -/
def owners (g : Graph) (d : NodeId) : List NodeId := g.ownerTable.getD d []

/-- The later defenses that follow a defense. -/
def followers (g : Graph) (d : NodeId) : List NodeId := g.followerTable.getD d []

/-- The periods of the defenses, in their order. -/
def periods (g : Graph) : List UInt32 :=
  g.defenses.filterMap fun d => (g.tree.defense? d).map Defense.period

/-- Nodes in the order of their names. -/
def sortedByName (g : Graph) (ids : List NodeId) : List NodeId :=
  ids.mergeSort fun a b => g.name a ≤ g.name b

/-- Nothing if there is an order to find and a number is no node. -/
def sortedByName? (g : Graph) (ids : List NodeId) : Option (List NodeId) :=
  if ids.length < 2 ∨ ids.all g.tree.has then some (g.sortedByName ids) else none

end Graph

end AttackDefense
