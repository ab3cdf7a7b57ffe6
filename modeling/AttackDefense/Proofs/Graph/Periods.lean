import AttackDefense.Graph.Reset
import AttackDefense.Proofs.Tree.Periods

/-!
# Graphs under other periods

A graph keeps its indices under other periods, and so does everything that is computed from them and
from the tree: progress, checkpoints, resets and the scope of defenses.  The graph of a tree with
other periods is the graph of the tree, with these periods:

    ofTree (t.withPeriods f) root =
      (ofTree t root).map (Graph.withPeriods f)                           (ofTree_withPeriods)
-/

namespace AttackDefense.Graph

variable (f : String → Option UInt32)

/-- The graph in whose tree the defenses of some names have other periods. -/
def withPeriods (g : Graph) : Graph := { g with tree := g.tree.withPeriods f }

/-! ## Indices -/

section

variable (t : Tree)

@[simp] theorem ownersAmong_withPeriods : ownersAmong (t.withPeriods f) = ownersAmong t := by
  funext nodes d
  simp [ownersAmong]

@[simp] theorem related_withPeriods : related (t.withPeriods f) = related t := by
  funext x y
  simp [related]

@[simp] theorem follows_withPeriods : follows (t.withPeriods f) = follows t := by
  funext owners d later
  simp [follows]

@[simp] theorem followersAmong_withPeriods (owners : NodeId → List NodeId) (l : List NodeId) :
    followersAmong (t.withPeriods f) owners l = followersAmong t owners l := by
  induction l with
  | nil => rfl
  | cons d later ih => simp [followersAmong, ih]

theorem index_withPeriods (root : NodeId) :
    index (t.withPeriods f) root = (index t root).withPeriods f := by
  simp [index, withPeriods]

/-- **The graph of a tree with other periods.**  It is refused for the same reason, or it has the
same indices. -/
theorem ofTree_withPeriods (root : NodeId) :
    ofTree (t.withPeriods f) root = (ofTree t root).map (Graph.withPeriods f) := by
  unfold ofTree
  rw [Tree.node?_withPeriods]
  rcases t.node? root with _ | (a | d | s)
  case none | some.attack | some.defense => rfl
  case some.subgoal =>
    simp only [Option.map_some, Node.withPeriod]
    split
    · rfl
    · rw [Tree.setParents_withPeriods]
      rcases t.setParents root with ⟨t', _ | fault⟩
      · exact congrArg Except.ok (index_withPeriods f t' root)
      · rfl

end

/-! ## Looking up -/

variable (g : Graph)

@[simp] theorem attacks_withPeriods : (g.withPeriods f).attacks = g.attacks := rfl

@[simp] theorem defenses_withPeriods : (g.withPeriods f).defenses = g.defenses := rfl

@[simp] theorem subgoals_withPeriods : (g.withPeriods f).subgoals = g.subgoals := rfl

@[simp] theorem tree_withPeriods : (g.withPeriods f).tree = g.tree.withPeriods f := rfl

@[simp] theorem owners_withPeriods : (g.withPeriods f).owners = g.owners := rfl

@[simp] theorem followers_withPeriods : (g.withPeriods f).followers = g.followers := rfl

@[simp] theorem name_withPeriods : (g.withPeriods f).name = g.name := by
  funext id
  simp [name]

@[simp] theorem sortedByName_withPeriods : (g.withPeriods f).sortedByName = g.sortedByName := by
  funext ids
  simp [sortedByName]

/-! ## Progress and resets -/

@[simp] theorem settle_withPeriods : (g.withPeriods f).settle = g.settle := by
  funext goal completed
  simp [settle]

@[simp] theorem propagate_withPeriods : (g.withPeriods f).propagate = g.propagate := by
  funext completed
  simp [propagate]

@[simp] theorem isCheckpoint_withPeriods : (g.withPeriods f).isCheckpoint = g.isCheckpoint := by
  funext id
  simp [isCheckpoint]

@[simp] theorem behindCheckpoint_withPeriods :
    (g.withPeriods f).behindCheckpoint = g.behindCheckpoint := by
  funext completed id
  simp [behindCheckpoint]

@[simp] theorem normalize_withPeriods : (g.withPeriods f).normalize = g.normalize := by
  funext c
  simp [normalize, reduce]

@[simp] theorem isAvailable_withPeriods : (g.withPeriods f).isAvailable = g.isAvailable := by
  funext c attack
  simp [isAvailable]

@[simp] theorem availableAttacks_withPeriods :
    (g.withPeriods f).availableAttacks = g.availableAttacks := by
  funext c
  simp [availableAttacks]

@[simp] theorem isAccepting_withPeriods : (g.withPeriods f).isAccepting = g.isAccepting := rfl

@[simp] theorem activeDefenses_withPeriods :
    (g.withPeriods f).activeDefenses = g.activeDefenses := by
  funext c
  have htouched : (g.withPeriods f).touched c = g.touched c := by simp [touched]
  unfold activeDefenses
  rw [htouched, tree_withPeriods, Tree.defensesOf_withPeriods, defenses_withPeriods]

@[simp] theorem applyDefense_withPeriods : (g.withPeriods f).applyDefense = g.applyDefense := by
  funext d c
  have hreset : (g.withPeriods f).resetOwner = g.resetOwner := by
    funext c owner
    simp [resetOwner]
  simp [applyDefense, hreset]

end AttackDefense.Graph
