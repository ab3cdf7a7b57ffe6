import AttackDefense.Graph.Progress
import AttackDefense.Proofs.Graph.Sound

/-!
# Propagation reaches the least closed set

`Supported g done x` says that the children of the subgoal `x` complete it, when `done` says which
of them are completed.  One pass over the subgoals from the end of the walk gives the least set that
holds the completed nodes and every reachable subgoal that it supports:

    s ⊆ g.propagate s                                              (subset_propagate)
    g.Supported (· ∈ g.propagate s) x → x ∈ g.propagate s          (mem_propagate_of_supported)
    s ⊆ Q, Q closed → g.propagate s ⊆ Q                            (propagate_induction)

which `IsLeastClosed` says of any set (`Sound.isLeastClosed_propagate`).

The pass is enough because the rest of the walk behind any place in it holds the children of all its
nodes (`suffix_preOrder_closed`): when a subgoal is settled, nothing below it changes any more.
-/

namespace AttackDefense.Graph

open AttackDefense.Tree

variable {g : Graph}

/-! ## Support -/

/-- The children that are done complete the subgoal. -/
def Supported (g : Graph) (done : NodeId → Prop) (x : NodeId) : Prop :=
  ∃ s, g.tree.subgoal? x = some s ∧
    match s.refinement with
    | .and => ∀ c ∈ s.children, done c
    | .or | .edge => ∃ c ∈ s.children, done c

theorem Supported.mono {p q : NodeId → Prop} {x : NodeId} (h : g.Supported p x)
    (hpq : ∀ c ∈ g.tree.children x, p c → q c) : g.Supported q x := by
  obtain ⟨s, hs, h⟩ := h
  have hc : ∀ c ∈ s.children, p c → q c := fun c hc => hpq c (mem_children_iff.2 ⟨s, hs, hc⟩)
  refine ⟨s, hs, ?_⟩
  cases hr : s.refinement with
  | and =>
    rw [hr] at h
    exact fun c hmem => hc c hmem (h c hmem)
  | or =>
    rw [hr] at h
    obtain ⟨c, hmem, hp⟩ := h
    exact ⟨c, hmem, hc c hmem hp⟩
  | edge =>
    rw [hr] at h
    obtain ⟨c, hmem, hp⟩ := h
    exact ⟨c, hmem, hc c hmem hp⟩

/-- Nothing is completed from nothing: a subgoal has a child. -/
theorem Supported.exists_child (ht : g.tree.Sound) {p : NodeId → Prop} {x : NodeId}
    (h : g.Supported p x) : ∃ c ∈ g.tree.children x, p c := by
  obtain ⟨s, hs, h⟩ := h
  have hf : g.tree.SubgoalFits x s := ht.fits x _ (subgoal?_eq_some.1 hs)
  obtain ⟨c, hc, hp⟩ : ∃ c ∈ s.children, p c := by
    cases hr : s.refinement with
    | and =>
      rw [hr] at h
      obtain ⟨c, hc⟩ := List.exists_mem_of_ne_nil _ hf.nonempty
      exact ⟨c, hc, h c hc⟩
    | or =>
      rw [hr] at h
      exact h
    | edge =>
      rw [hr] at h
      exact h
  exact ⟨c, mem_children_iff.2 ⟨s, hs, hc⟩, hp⟩

theorem Supported.isSubgoal {p : NodeId → Prop} {x : NodeId} (h : g.Supported p x) :
    g.tree.isSubgoal x := by
  obtain ⟨s, hs, _⟩ := h
  exact isSubgoal_iff.2 ⟨s, subgoal?_eq_some.1 hs⟩

theorem supported_iff_reached {x : NodeId} {s : Subgoal} (hs : g.tree.subgoal? x = some s)
    (done : NodeSet) :
    g.Supported (· ∈ done) x ↔ s.refinement.reached s.children (fun c => c ∈ done) := by
  unfold Supported Refinement.reached
  rw [hs]
  cases hr : s.refinement <;> simp [hr]

/-! ## One pass -/

theorem mem_settle {x goal : NodeId} {s : NodeSet} :
    x ∈ g.settle goal s ↔ x ∈ s ∨ x = goal ∧ g.Supported (· ∈ s) goal := by
  unfold settle
  split
  · next hgoal =>
    constructor
    · exact .inl
    · rintro (hx | ⟨rfl, _⟩)
      · exact hx
      · exact hgoal
  · cases hsub : g.tree.subgoal? goal with
    | none =>
      have : ¬ g.Supported (· ∈ s) goal := by
        rintro ⟨q, hq, _⟩
        rw [hsub] at hq
        cases hq
      simp [this]
    | some q =>
      rw [supported_iff_reached hsub]
      dsimp only
      split
      · next hreached => simp [hreached, or_comm]
      · next hreached => simp [hreached]

theorem subset_foldr_settle (l : List NodeId) (s : NodeSet) {x : NodeId} (h : x ∈ s) :
    x ∈ l.foldr g.settle s := by
  induction l with
  | nil => exact h
  | cons a l ih => exact mem_settle.2 (.inl ih)

theorem foldr_settle_induction {Q : NodeId → Prop} {l : List NodeId} {s : NodeSet}
    (base : ∀ x ∈ s, Q x) (step : ∀ x ∈ l, g.Supported Q x → Q x) :
    ∀ x ∈ l.foldr g.settle s, Q x := by
  induction l with
  | nil => exact base
  | cons a l ih =>
    have ih := ih fun x hx => step x (List.mem_cons_of_mem _ hx)
    intro x hx
    rcases mem_settle.1 hx with hx | ⟨rfl, hsup⟩
    · exact ih x hx
    · exact step x List.mem_cons_self (hsup.mono fun c _ hc => ih c hc)

/-- Behind every place of the list the pass has settled all subgoals. -/
theorem mem_foldr_settle_of_supported {l : List NodeId} {s : NodeSet}
    (hl : ∀ m, m <:+ l → g.tree.ChildrenClosed m) {x : NodeId} (hx : x ∈ l)
    (hsup : g.Supported (· ∈ (l.filter g.tree.isSubgoal).foldr g.settle s) x) :
    x ∈ (l.filter g.tree.isSubgoal).foldr g.settle s := by
  induction l generalizing x with
  | nil => cases hx
  | cons a l ih =>
    have ih : ∀ x ∈ l, g.Supported (· ∈ (l.filter g.tree.isSubgoal).foldr g.settle s) x →
        x ∈ (l.filter g.tree.isSubgoal).foldr g.settle s :=
      fun x hx hsup => ih (fun m hm => hl m (hm.trans (List.suffix_cons a l))) hx hsup
    by_cases ha : g.tree.isSubgoal a
    · rw [List.filter_cons_of_pos ha, List.foldr_cons] at hsup ⊢
      generalize (l.filter g.tree.isSubgoal).foldr g.settle s = done at ih hsup ⊢
      -- settling `a` adds no child of `x`: it comes after itself or was settled before
      have hback : ∀ c ∈ g.tree.children x, c ∈ g.settle a done → c ∈ done := by
        intro c hc hmem
        rcases mem_settle.1 hmem with hmem | ⟨rfl, hsupc⟩
        · exact hmem
        · rcases List.mem_cons.1 hx with rfl | hx
          · exact absurd (children_lt hc) (Nat.lt_irrefl _)
          · exact ih c (hl l (List.suffix_cons c l) x hx c hc) hsupc
      replace hsup := hsup.mono hback
      rcases List.mem_cons.1 hx with rfl | hx
      · exact mem_settle.2 (.inr ⟨rfl, hsup⟩)
      · exact mem_settle.2 (.inl (ih x hx hsup))
    · rw [List.filter_cons_of_neg ha] at hsup ⊢
      rcases List.mem_cons.1 hx with rfl | hx
      · exact absurd hsup.isSubgoal ha
      · exact ih x hx hsup

/-! ## The least closed set -/

theorem Sound.mem_subgoals (hg : g.Sound) {x : NodeId} :
    x ∈ g.subgoals ↔ g.Reachable x ∧ g.tree.isSubgoal x := by
  rw [hg.subgoals, List.mem_filter, mem_depthFirst]

theorem Sound.mem_attacks (hg : g.Sound) {x : NodeId} :
    x ∈ g.attacks ↔ g.Reachable x ∧ g.tree.isAttack x := by
  rw [hg.attacks, List.mem_filter, mem_depthFirst]

theorem subset_propagate (g : Graph) (s : NodeSet) {x : NodeId} (h : x ∈ s) :
    x ∈ g.propagate s :=
  subset_foldr_settle g.subgoals s h

/-- What holds of the completed nodes and is handed up by support holds of all that follows. -/
theorem propagate_induction {Q : NodeId → Prop} {s : NodeSet} (base : ∀ x ∈ s, Q x)
    (step : ∀ x ∈ g.subgoals, g.Supported Q x → Q x) : ∀ x ∈ g.propagate s, Q x :=
  foldr_settle_induction base step

theorem Sound.mem_propagate_of_supported (hg : g.Sound) {s : NodeSet} {x : NodeId}
    (hx : x ∈ g.subgoals) (hsup : g.Supported (· ∈ g.propagate s) x) : x ∈ g.propagate s := by
  unfold propagate at hsup ⊢
  rw [hg.subgoals, depthFirst_eq_preOrder] at hx hsup ⊢
  exact mem_foldr_settle_of_supported (fun m hm => suffix_preOrder_closed hm)
    (List.mem_filter.1 hx).1 hsup

/-- The set holds the base and every subgoal that it supports, and nothing that does not follow from
these. -/
structure IsLeastClosed (g : Graph) (base : NodeId → Prop) (s : NodeSet) : Prop where
  subset : ∀ x, base x → x ∈ s
  closed : ∀ x ∈ g.subgoals, g.Supported (· ∈ s) x → x ∈ s
  least : ∀ Q : NodeId → Prop, (∀ x, base x → Q x) → (∀ x ∈ g.subgoals, g.Supported Q x → Q x) →
    ∀ x ∈ s, Q x

theorem Sound.isLeastClosed_propagate (hg : g.Sound) (s : NodeSet) :
    g.IsLeastClosed (· ∈ s) (g.propagate s) where
  subset _ hx := g.subset_propagate s hx
  closed _ hx hsup := hg.mem_propagate_of_supported hx hsup
  least _ hbase hstep := propagate_induction hbase hstep

/-- Every subgoal below the root that its children complete belongs to it. -/
def Closed (g : Graph) (Q : NodeId → Prop) : Prop := ∀ x, g.Reachable x → g.Supported Q x → Q x

theorem Sound.closed_iff (hg : g.Sound) {Q : NodeId → Prop} :
    g.Closed Q ↔ ∀ x ∈ g.subgoals, g.Supported Q x → Q x := by
  constructor
  · intro h x hx hsup
    exact h x (hg.mem_subgoals.1 hx).1 hsup
  · intro h x hx hsup
    exact h x (hg.mem_subgoals.2 ⟨hx, hsup.isSubgoal⟩) hsup

theorem Sound.closed_propagate (hg : g.Sound) (s : NodeSet) : g.Closed (· ∈ g.propagate s) :=
  hg.closed_iff.2 fun _ hx hsup => hg.mem_propagate_of_supported hx hsup

/-- Propagation adds nothing to a set exactly if the set is closed. -/
theorem Sound.propagate_eq_self_iff (hg : g.Sound) {s : NodeSet} :
    g.propagate s = s ↔ g.Closed (· ∈ s) := by
  constructor
  · intro h
    rw [← h]
    exact hg.closed_propagate s
  · intro h
    ext x
    exact ⟨propagate_induction (fun _ hx => hx) (hg.closed_iff.1 h) x, g.subset_propagate s⟩

theorem propagate_mono_of_subset (hg : g.Sound) {s u : NodeSet}
    (h : ∀ x ∈ s, x ∈ g.propagate u) : ∀ x ∈ g.propagate s, x ∈ g.propagate u :=
  propagate_induction h fun _ hx hsup => hg.mem_propagate_of_supported hx hsup

theorem Sound.propagate_propagate (hg : g.Sound) (s : NodeSet) :
    g.propagate (g.propagate s) = g.propagate s :=
  hg.propagate_eq_self_iff.2 (hg.closed_propagate s)

/-- What is added is supported by what is there in the end. -/
theorem Sound.mem_or_supported_of_propagate (hg : g.Sound) {s : NodeSet} {x : NodeId}
    (h : x ∈ g.propagate s) : x ∈ s ∨ g.Supported (· ∈ g.propagate s) x := by
  have key : ∀ x ∈ g.propagate s,
      x ∈ g.propagate s ∧ (x ∈ s ∨ g.Supported (· ∈ g.propagate s) x) := by
    apply propagate_induction
    · exact fun x hx => ⟨g.subset_propagate s hx, .inl hx⟩
    · intro x hx hsup
      have hsup : g.Supported (· ∈ g.propagate s) x := hsup.mono fun _ _ hc => hc.1
      exact ⟨hg.mem_propagate_of_supported hx hsup, .inr hsup⟩
  exact (key x h).2

/-- Only subgoals are added. -/
theorem mem_or_mem_subgoals_of_propagate {s : NodeSet} {x : NodeId} (h : x ∈ g.propagate s) :
    x ∈ s ∨ x ∈ g.subgoals :=
  propagate_induction (Q := fun x => x ∈ s ∨ x ∈ g.subgoals) (fun _ h => .inl h)
    (fun _ h _ => .inr h) x h

theorem Sound.mem_of_mem_propagate (hg : g.Sound) {s : NodeSet} {x : NodeId}
    (hx : ¬ g.tree.isSubgoal x) (h : x ∈ g.propagate s) : x ∈ s := by
  rcases mem_or_mem_subgoals_of_propagate h with h | h
  · exact h
  · exact absurd (hg.mem_subgoals.1 h).2 hx

end AttackDefense.Graph
