import AttackDefense.Proofs.Graph.Propagate

/-!
# Canonical forms

`Behind g s x` says that a completed checkpoint stands above `x`, so that `x` is history; `Kept g s x`
says that `x` is completed and no history.  What is kept decides what is history (`behind_iff_kept`:
the topmost completed checkpoint above a node is kept), and so the canonical form of a configuration
depends on nothing but what is kept of its propagated set, and on the attacks that are neither kept
nor history (`normalize_congr`).

The configurations that reduction and normalization leave alone can be told without them:

    g.reduce c = c ↔ g.Reduced c                                   (Sound.reduce_eq_self_iff)
    g.normalize c = c ↔ g.Canonical c                              (Sound.normalize_eq_self_iff)

Main lemma, `kept_propagate_iff`: take the completed nodes `s`, forget the history in them, then take
back some nodes and add others, and propagate.  As long as nothing grows again below a checkpoint
that was taken back, what is kept is the same as if the history had not been forgotten.
-/

namespace AttackDefense

@[ext] theorem Configuration.ext {c d : Configuration} (hactivated : c.activated = d.activated)
    (hcompleted : c.completed = d.completed) : c = d := by
  cases c
  cases d
  cases hactivated
  cases hcompleted
  rfl

namespace Graph

open AttackDefense.Tree

variable {g : Graph}

/-! ## History -/

/-- A completed checkpoint stands above the node. -/
def Behind (g : Graph) (s : NodeSet) (x : NodeId) : Prop :=
  ∃ a ∈ g.tree.ancestors x, a ∈ s ∧ g.isCheckpoint a

/-- The node is completed, and no checkpoint above it is. -/
def Kept (g : Graph) (s : NodeSet) (x : NodeId) : Prop := x ∈ s ∧ ¬ g.Behind s x

theorem behindCheckpoint_iff {s : NodeSet} {x : NodeId} :
    g.behindCheckpoint s x = true ↔ g.Behind s x := by
  simp [behindCheckpoint, Behind, List.any_eq_true]

theorem Behind.mono {s u : NodeSet} {x : NodeId} (h : g.Behind s x) (hsu : ∀ a ∈ s, a ∈ u) :
    g.Behind u x := by
  obtain ⟨a, ha, hs, hc⟩ := h
  exact ⟨a, ha, hsu a hs, hc⟩

theorem Behind.of_ancestor {s : NodeSet} {x a : NodeId} (h : g.Behind s a)
    (ha : a ∈ g.tree.ancestors x) : g.Behind s x := by
  obtain ⟨b, hb, hs, hc⟩ := h
  exact ⟨b, mem_ancestors_trans ha hb, hs, hc⟩

theorem Sound.behind_iff_parent (hg : g.Sound) {s : NodeSet} {x p : NodeId}
    (hp : g.tree.parent? x = some p) :
    g.Behind s x ↔ (p ∈ s ∧ g.isCheckpoint p) ∨ g.Behind s p := by
  unfold Behind
  rw [hg.tree.ancestors_eq_cons hp]
  simp

theorem Sound.not_behind_root (hg : g.Sound) (s : NodeSet) : ¬ g.Behind s g.root := by
  unfold Behind
  rw [ancestors_eq_nil hg.root_parent]
  simp

/-- The topmost completed checkpoint above a node is kept. -/
theorem Sound.exists_kept_checkpoint (hg : g.Sound) {s : NodeSet} {x : NodeId}
    (h : g.Behind s x) : ∃ a ∈ g.tree.ancestors x, g.Kept s a ∧ g.isCheckpoint a := by
  induction hn : g.tree.size - x using Nat.strongRecOn generalizing x with
  | _ n ih =>
    obtain ⟨a, ha, hs, hc⟩ := h
    by_cases hb : g.Behind s a
    · have hlt := lt_of_mem_ancestors ha
      have hsize := lt_size_of_isSubgoal (hg.tree.isSubgoal_of_mem_ancestors ha)
      have hless : g.tree.size - a < n :=
        hn ▸ Nat.sub_lt_sub_left (Nat.lt_trans hlt hsize) hlt
      obtain ⟨b, hba, hb⟩ := ih (g.tree.size - a) hless hb rfl
      exact ⟨b, mem_ancestors_trans ha hba, hb⟩
    · exact ⟨a, ha, ⟨hs, hb⟩, hc⟩

theorem Sound.behind_iff_kept (hg : g.Sound) {s : NodeSet} {x : NodeId} :
    g.Behind s x ↔ ∃ a ∈ g.tree.ancestors x, g.Kept s a ∧ g.isCheckpoint a := by
  constructor
  · exact hg.exists_kept_checkpoint
  · rintro ⟨a, ha, hk, hc⟩
    exact ⟨a, ha, hk.1, hc⟩

/-- Sets of which the same is kept have the same history. -/
theorem Sound.behind_congr (hg : g.Sound) {s u : NodeSet} (h : ∀ x, g.Kept s x ↔ g.Kept u x)
    (x : NodeId) : g.Behind s x ↔ g.Behind u x := by
  rw [hg.behind_iff_kept, hg.behind_iff_kept]
  simp only [h]

/-! ## Reduction -/

theorem mem_reduce_completed {c : Configuration} {x : NodeId} :
    x ∈ (g.reduce c).completed ↔ g.Kept c.completed x := by
  simp [reduce, Kept, ← behindCheckpoint_iff]

theorem kept_reduce {c : Configuration} {x : NodeId} :
    g.Kept (g.reduce c).completed x ↔ g.Kept c.completed x := by
  have hsub : ∀ a ∈ (g.reduce c).completed, a ∈ c.completed :=
    fun a ha => (mem_reduce_completed.1 ha).1
  constructor
  · intro h
    exact mem_reduce_completed.1 h.1
  · intro h
    exact ⟨mem_reduce_completed.2 h, fun hb => h.2 (hb.mono hsub)⟩

theorem Sound.behind_reduce (hg : g.Sound) {c : Configuration} {x : NodeId} :
    g.Behind (g.reduce c).completed x ↔ g.Behind c.completed x :=
  hg.behind_congr (fun _ => kept_reduce) x

theorem Sound.mem_reduce_activated (hg : g.Sound) {c : Configuration} {x : NodeId} :
    x ∈ (g.reduce c).activated ↔
      x ∈ c.activated ∧ ¬ g.Kept c.completed x ∧ ¬ g.Behind c.completed x := by
  have h : x ∈ (g.reduce c).activated ↔
      (x ∈ c.activated ∧ x ∉ c.completed) ∧ ¬ g.Behind (g.reduce c).completed x := by
    rw [← behindCheckpoint_iff]
    simp [reduce]
  rw [h, hg.behind_reduce, Kept]
  constructor
  · rintro ⟨⟨ha, hn⟩, hb⟩
    exact ⟨ha, fun hk => hn hk.1, hb⟩
  · rintro ⟨ha, hk, hb⟩
    exact ⟨⟨ha, fun hm => hk ⟨hm, hb⟩⟩, hb⟩

/-- Nothing is history, and no attack is underway that is completed. -/
structure Reduced (g : Graph) (c : Configuration) : Prop where
  kept : ∀ x ∈ c.completed, ¬ g.Behind c.completed x
  underway : ∀ a ∈ c.activated, a ∉ c.completed ∧ ¬ g.Behind c.completed a

theorem Sound.reduced_reduce (hg : g.Sound) (c : Configuration) : g.Reduced (g.reduce c) where
  kept := by
    intro x hx
    rw [hg.behind_reduce]
    exact (mem_reduce_completed.1 hx).2
  underway := by
    intro a ha
    rw [mem_reduce_completed, hg.behind_reduce]
    exact (hg.mem_reduce_activated.1 ha).2

/-- Reduction drops nothing exactly if the configuration is reduced. -/
theorem Sound.reduce_eq_self_iff (hg : g.Sound) {c : Configuration} :
    g.reduce c = c ↔ g.Reduced c := by
  constructor
  · intro h
    rw [← h]
    exact hg.reduced_reduce c
  · intro h
    ext x
    · rw [hg.mem_reduce_activated, and_iff_left_iff_imp]
      intro hx
      obtain ⟨hn, hb⟩ := h.underway x hx
      exact ⟨fun hk => hn hk.1, hb⟩
    · rw [mem_reduce_completed, Kept, and_iff_left_iff_imp]
      exact h.kept x

/-! ## Canonical form -/

/-- Reduced, and with every goal that follows. -/
structure Canonical (g : Graph) (c : Configuration) : Prop extends g.Reduced c where
  closed : g.Closed (· ∈ c.completed)

theorem mem_normalize_completed {c : Configuration} {x : NodeId} :
    x ∈ (g.normalize c).completed ↔ g.Kept (g.propagate c.completed) x :=
  mem_reduce_completed

theorem Sound.mem_normalize_activated (hg : g.Sound) {c : Configuration} {x : NodeId} :
    x ∈ (g.normalize c).activated ↔ x ∈ c.activated ∧
      ¬ g.Kept (g.propagate c.completed) x ∧ ¬ g.Behind (g.propagate c.completed) x :=
  hg.mem_reduce_activated

theorem Sound.behind_normalize (hg : g.Sound) {c : Configuration} {x : NodeId} :
    g.Behind (g.normalize c).completed x ↔ g.Behind (g.propagate c.completed) x :=
  hg.behind_reduce

/-- In a canonical form no attack is underway that is completed. -/
theorem Sound.not_mem_completed (hg : g.Sound) {c : Configuration} {a : NodeId}
    (h : a ∈ (g.normalize c).activated) : a ∉ (g.normalize c).completed := by
  rw [mem_normalize_completed]
  exact (hg.mem_normalize_activated.1 h).2.1

theorem isAvailable_iff {c : Configuration} {a : NodeId} :
    g.isAvailable c a ↔ a ∉ c.activated ∧ a ∉ c.completed ∧ ¬ g.Behind c.completed a := by
  rw [← behindCheckpoint_iff]
  simp [isAvailable, and_assoc]

theorem isAccepting_iff {c : Configuration} : g.isAccepting c ↔ g.root ∈ c.completed := by
  simp [isAccepting]

/-- A goal is no history if its children are none, so reduction leaves what propagation has closed. -/
theorem Sound.canonical_normalize (hg : g.Sound) (c : Configuration) :
    g.Canonical (g.normalize c) where
  toReduced := hg.reduced_reduce _
  closed := by
    intro x hx hsup
    obtain ⟨y, hy, hdone⟩ := hsup.exists_child hg.tree
    have hmem : x ∈ g.propagate c.completed :=
      hg.closed_propagate _ x hx (hsup.mono fun _ _ hz => (mem_normalize_completed.1 hz).1)
    refine mem_normalize_completed.2 ⟨hmem, fun hb => (mem_normalize_completed.1 hdone).2 ?_⟩
    exact (hg.behind_iff_parent (hg.parent x hx y hy)).2 (.inr hb)

/-- A configuration is its own canonical form exactly if it is canonical. -/
theorem Sound.normalize_eq_self_iff (hg : g.Sound) {c : Configuration} :
    g.normalize c = c ↔ g.Canonical c := by
  constructor
  · intro h
    rw [← h]
    exact hg.canonical_normalize c
  · intro h
    calc g.normalize c
      _ = g.reduce c := by rw [normalize, hg.propagate_eq_self_iff.2 h.closed]
      _ = c := hg.reduce_eq_self_iff.2 h.toReduced

/-- Normalizing once is enough. -/
theorem Sound.normalize_normalize_eq (hg : g.Sound) (c : Configuration) :
    g.normalize (g.normalize c) = g.normalize c :=
  hg.normalize_eq_self_iff.2 (hg.canonical_normalize c)

/-- Two configurations have one canonical form if the same is kept of them, and the same attacks are
underway among those that are neither kept nor history. -/
theorem Sound.normalize_congr (hg : g.Sound) {c d : Configuration}
    (hk : ∀ x, g.Kept (g.propagate c.completed) x ↔ g.Kept (g.propagate d.completed) x)
    (ha : ∀ a, ¬ g.Kept (g.propagate d.completed) a → ¬ g.Behind (g.propagate d.completed) a →
      (a ∈ c.activated ↔ a ∈ d.activated)) :
    g.normalize c = g.normalize d := by
  ext x
  · rw [hg.mem_normalize_activated, hg.mem_normalize_activated, hk, hg.behind_congr hk]
    constructor
    · rintro ⟨hx, hk', hb⟩
      exact ⟨(ha x hk' hb).1 hx, hk', hb⟩
    · rintro ⟨hx, hk', hb⟩
      exact ⟨(ha x hk' hb).2 hx, hk', hb⟩
  · rw [mem_normalize_completed, mem_normalize_completed, hk]

/-! ## History does not come back -/

section

variable (hg : g.Sound) {s kept before after : NodeSet} (lost more : NodeId → Prop)
  (hkept : ∀ x, x ∈ kept ↔ g.Kept s x)
  (hbefore : ∀ x, x ∈ before ↔ (x ∈ s ∧ ¬ lost x) ∨ more x)
  (hafter : ∀ x, x ∈ after ↔ (x ∈ kept ∧ ¬ lost x) ∨ more x)
  (hlost : ∀ q ∈ s, g.isCheckpoint q → lost q → ∀ x, x = q ∨ q ∈ g.tree.ancestors x →
    x ∉ g.propagate before)

include hg hkept hbefore hafter hlost in
/-- What was not history before the change is derived without the history. -/
theorem mem_propagate_of_not_behind :
    ∀ x ∈ g.propagate before, ¬ g.Behind s x → x ∈ g.propagate after := by
  have key : ∀ x ∈ g.propagate before,
      x ∈ g.propagate before ∧ (¬ g.Behind s x → x ∈ g.propagate after) := by
    apply propagate_induction
    · intro x hx
      refine ⟨g.subset_propagate before hx, fun hb => g.subset_propagate after ?_⟩
      rw [hafter, hkept]
      exact ((hbefore x).1 hx).imp_left fun h => ⟨⟨h.1, hb⟩, h.2⟩
    · intro x hx hsup
      have hmem : x ∈ g.propagate before :=
        hg.mem_propagate_of_supported hx (hsup.mono fun _ _ hc => hc.1)
      refine ⟨hmem, fun hb => ?_⟩
      by_cases hold : x ∈ s ∧ g.isCheckpoint x
      · -- a checkpoint that was completed before is still there
        have hnot : ¬ lost x := fun hl => hlost x hold.1 hold.2 hl x (.inl rfl) hmem
        apply g.subset_propagate after
        rw [hafter, hkept]
        exact .inl ⟨⟨hold.1, hb⟩, hnot⟩
      · -- otherwise its children are no more history than itself
        apply hg.mem_propagate_of_supported hx (hsup.mono fun c hc hQ => hQ.2 ?_)
        rw [hg.behind_iff_parent (hg.parent x (hg.mem_subgoals.1 hx).1 c hc)]
        exact fun h => h.elim hold hb
  exact fun x hx => (key x hx).2

include hbefore hlost in
/-- What is still derived and not history was not history before the change. -/
theorem not_behind_of_not_behind_propagate {x : NodeId} (hx : x ∈ g.propagate before)
    (hb : ¬ g.Behind (g.propagate before) x) : ¬ g.Behind s x := by
  rintro ⟨q, hq, hqs, hc⟩
  by_cases hl : lost q
  · exact hlost q hqs hc hl x (.inr hq) hx
  · exact hb ⟨q, hq, g.subset_propagate before ((hbefore q).2 (.inl ⟨hqs, hl⟩)), hc⟩

include hg hkept hbefore hafter hlost in
theorem kept_propagate_iff (x : NodeId) :
    g.Kept (g.propagate after) x ↔ g.Kept (g.propagate before) x := by
  have hsub : ∀ y ∈ g.propagate after, y ∈ g.propagate before := by
    apply propagate_mono_of_subset hg
    intro y hy
    apply g.subset_propagate before
    rw [hbefore]
    exact ((hafter y).1 hy).imp_left fun h => ⟨((hkept y).1 h.1).1, h.2⟩
  have hback : ∀ y, g.Kept (g.propagate before) y → y ∈ g.propagate after := fun y hy =>
    mem_propagate_of_not_behind hg lost more hkept hbefore hafter hlost y hy.1
      (not_behind_of_not_behind_propagate lost more hbefore hlost hy.1 hy.2)
  constructor
  · intro h
    refine ⟨hsub x h.1, fun hb => ?_⟩
    obtain ⟨q, hq, hqk, hc⟩ := hg.exists_kept_checkpoint hb
    exact h.2 ⟨q, hq, hback q hqk, hc⟩
  · intro h
    exact ⟨hback x h, fun hb => h.2 (hb.mono hsub)⟩

end

end Graph

end AttackDefense
