import AttackDefense.Proofs.Graph.Propagate
import Mathlib.Logic.Function.Iterate

/-!
# One pass against repeated rounds

Completion can be read as a process.  In a round, all subgoals below the root that their children
complete are added at once; rounds are repeated until nothing is added.  One pass over the subgoals
from the end of the walk gives the set in which the rounds end:

    g.round (g.round^[n] s) = g.round^[n] s → g.round^[n] s = g.propagate s
                                                                    (Sound.iterate_round_eq)

The rounds do end: a goal that follows at all is added in the round after all its children, and these
have smaller numbers (`Sound.mem_iterate_round`).  The set is the least one that holds `s` and is
`Closed`, and taking it is extensive, monotone and idempotent
(`propagation_is_least_closure`).
-/

namespace AttackDefense.Graph

open AttackDefense.Tree

variable {g : Graph} {s : NodeSet} {x : NodeId}

/-! ## Rounds -/

/-- Whether the children of a subgoal complete it. -/
def supports (g : Graph) (s : NodeSet) (x : NodeId) : Bool :=
  (g.tree.subgoal? x).any fun goal => goal.refinement.reached goal.children fun c => c ∈ s

/-- The set with all subgoals that it supports. -/
def round (g : Graph) (s : NodeSet) : NodeSet := (g.subgoals.filter (g.supports s)).foldl .insert s

theorem supports_iff : g.supports s x ↔ g.Supported (· ∈ s) x := by
  unfold supports
  cases hgoal : g.tree.subgoal? x with
  | none => simp [Supported, hgoal]
  | some goal =>
    rw [supported_iff_reached hgoal]
    simp

theorem mem_round : x ∈ g.round s ↔ x ∈ s ∨ x ∈ g.subgoals ∧ g.Supported (· ∈ s) x := by
  rw [round, NodeSet.mem_foldl_insert, List.mem_filter, supports_iff, or_comm]

theorem mem_iterate_of_le {n k : Nat} (h : n ≤ k) (hx : x ∈ g.round^[n] s) :
    x ∈ g.round^[k] s := by
  induction h with
  | refl => exact hx
  | step _ ih =>
    rw [Function.iterate_succ_apply']
    exact mem_round.2 (.inl ih)

/-! ## Rounds and the pass -/

/-- No round adds what the pass does not add. -/
theorem Sound.mem_propagate_of_mem_iterate (hg : g.Sound) {n : Nat} (hx : x ∈ g.round^[n] s) :
    x ∈ g.propagate s := by
  induction n generalizing x with
  | zero => exact g.subset_propagate s hx
  | succ n ih =>
    rw [Function.iterate_succ_apply'] at hx
    rcases mem_round.1 hx with hx | ⟨hgoal, hsup⟩
    · exact ih hx
    · exact hg.mem_propagate_of_supported hgoal (hsup.mono fun _ _ hc => ih hc)

/-- By the round of its number every goal is there that the pass adds. -/
theorem Sound.mem_iterate_round (hg : g.Sound) (hx : x ∈ g.propagate s) :
    x ∈ g.round^[x + 1] s := by
  induction x using Nat.strongRecOn with
  | _ x ih =>
    rcases mem_or_mem_subgoals_of_propagate hx with hs | hgoal
    · exact mem_iterate_of_le (Nat.zero_le _) hs
    · rcases hg.mem_or_supported_of_propagate hx with hs | hsup
      · exact mem_iterate_of_le (Nat.zero_le _) hs
      · rw [Function.iterate_succ_apply']
        refine mem_round.2 (.inr ⟨hgoal, hsup.mono fun c hc hmem => ?_⟩)
        exact mem_iterate_of_le (children_lt hc) (ih c (children_lt hc) hmem)

/-- The root is the last node that can be added. -/
theorem Sound.iterate_round_root (hg : g.Sound) (s : NodeSet) :
    g.round^[g.root + 1] s = g.propagate s := by
  ext x
  refine ⟨hg.mem_propagate_of_mem_iterate, fun hx => ?_⟩
  rcases mem_or_mem_subgoals_of_propagate hx with hs | hgoal
  · exact mem_iterate_of_le (Nat.zero_le _) hs
  · have hle : x ≤ g.root := (hg.mem_subgoals.1 hgoal).1.le
    exact mem_iterate_of_le (Nat.succ_le_succ hle) (hg.mem_iterate_round hx)

theorem Sound.round_propagate (hg : g.Sound) (s : NodeSet) :
    g.round (g.propagate s) = g.propagate s := by
  ext x
  rw [mem_round]
  constructor
  · rintro (hx | ⟨hgoal, hsup⟩)
    · exact hx
    · exact hg.mem_propagate_of_supported hgoal hsup
  · exact .inl

/-- Rounds that add nothing more have reached what the pass gives. -/
theorem Sound.iterate_round_eq (hg : g.Sound) {n : Nat}
    (h : g.round (g.round^[n] s) = g.round^[n] s) : g.round^[n] s = g.propagate s := by
  ext x
  refine ⟨hg.mem_propagate_of_mem_iterate, propagate_induction ?_ ?_ x⟩
  · exact fun y hy => mem_iterate_of_le (Nat.zero_le n) hy
  · intro y hgoal hsup
    rw [← h]
    exact mem_round.2 (.inr ⟨hgoal, hsup⟩)

/-- **One pass is enough.**  For every set of nodes, propagation gives the least set that holds it
and every subgoal below the root that is completed by its children: all of them for a conjunction,
one of them otherwise.  So propagation is extensive, monotone and idempotent.  Adding such subgoals
round by round comes to an end, and ends with the same set. -/
theorem propagation_is_least_closure (hg : g.Built) (s : NodeSet) :
    (∀ x ∈ s, x ∈ g.propagate s) ∧
    g.Closed (· ∈ g.propagate s) ∧
    (∀ Q : NodeId → Prop, (∀ x ∈ s, Q x) → g.Closed Q → ∀ x ∈ g.propagate s, Q x) ∧
    (∀ u : NodeSet, (∀ x ∈ s, x ∈ u) → ∀ x ∈ g.propagate s, x ∈ g.propagate u) ∧
    g.propagate (g.propagate s) = g.propagate s ∧
    (∃ n, g.round (g.round^[n] s) = g.round^[n] s) ∧
    (∀ n, g.round (g.round^[n] s) = g.round^[n] s → g.round^[n] s = g.propagate s) := by
  have hg := hg.sound
  have hleast := hg.isLeastClosed_propagate s
  refine ⟨hleast.subset, hg.closed_propagate s, fun Q hbase hclosed => ?_,
    fun u hsub => ?_, hg.propagate_propagate s, ?_, fun n => hg.iterate_round_eq⟩
  · exact hleast.least Q hbase (hg.closed_iff.1 hclosed)
  · exact propagate_mono_of_subset hg fun x hx => g.subset_propagate u (hsub x hx)
  · refine ⟨g.root + 1, ?_⟩
    rw [hg.iterate_round_root, hg.round_propagate]

/-! ## Children listed twice -/

/-- Scouting is listed twice below the entry, and the entry twice below the raid. -/
def raidTree : Tree :=
  let t := Tree.empty
  let t := t.withNode (.attack ⟨"scout", 1, .one, none, none, []⟩) (t.children_attack_lt _)
  let t := t.withNode (.subgoal (t.subgoalOver "entry" .and [0, 0] false))
    fun _ h => children_subgoalOver_lt h
  t.withNode (.subgoal (t.subgoalOver "raid" .or [1, 1] false))
    fun _ h => children_subgoalOver_lt h

theorem built_raidTree : raidTree.Built := by
  refine Built.empty _
    |>.withAttack (by decide) (by decide) (by decide) ?_
    |>.withSubgoal (by decide) (by decide) (by decide) (by decide) (by decide) ?_
    |>.withSubgoal (by decide) (by decide) (by decide) (by decide) (by decide) ?_
  all_goals simp [find?_withNode, find?_empty, Node.name, subgoalOver]

def raid : Graph where
  tree := { raidTree with parents := #[some 1, some 2, none] }
  root := 2
  attacks := [0, 0, 0, 0]
  defenses := []
  subgoals := [2, 1, 1]
  ownerTable := .ofList []
  followerTable := .ofList []

theorem index_raid : index raid.tree 2 = raid := by
  have hwalk : raid.tree.depthFirst 2 = [2, 1, 0, 0, 1, 0, 0] := by decide +kernel
  have hlisted : raid.tree.depthFirstWithDefenses 2 = [2, 1, 0, 0, 1, 0, 0] := by
    have h0 : raid.tree.defensesOf 0 = [] := rfl
    have h1 : raid.tree.defensesOf 1 = [] := rfl
    have h2 : raid.tree.defensesOf 2 = [] := rfl
    unfold depthFirstWithDefenses
    simp [hwalk, Listing.addNode, h0, h1, h2]
  unfold index
  rw [hlisted, hwalk]
  rfl

theorem built_raid : raid.Built :=
  built_of_index built_raidTree rfl rfl rfl (by decide +kernel) rfl index_raid

/-- In the raid two rounds add a goal each, and one pass adds both. -/
theorem propagation_is_least_closure_raid :
    raid.round^[1] (.ofList [0]) = .ofList [0, 1] ∧
    raid.round^[2] (.ofList [0]) = raid.propagate (.ofList [0]) ∧
    raid.Closed (· ∈ raid.propagate (.ofList [0])) := by
  obtain ⟨_, hclosed, _, _, _, _, hrounds⟩ :=
    propagation_is_least_closure built_raid (.ofList [0])
  exact ⟨by decide +kernel, hrounds 2 (by decide +kernel), hclosed⟩

end AttackDefense.Graph
