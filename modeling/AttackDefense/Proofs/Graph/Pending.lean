import AttackDefense.Proofs.Graph.Effect

/-!
# Attacks that are still to be completed

An attack is *pending* when it is neither completed nor history.  Pending attacks are what is left to
do on the way to the root goal.  In a canonical configuration some attack is pending unless the root
is completed, and completing one leaves fewer:

    g.normalize c = c → g.root ∉ c.completed → ∃ a, a ∈ g.pending c.completed
                                                                    (Sound.exists_pending)
    a ∈ g.pending c.completed → (g.pending (g.normalize (c.complete a)).completed).length <
      (g.pending c.completed).length                                (Sound.length_pending_complete_lt)

The first holds because propagation reaches a closed set.  When no attack is pending, every node
below the root is completed or history, by induction from the leaves: either something below a goal
is history because of the goal or of something above it, or all children of the goal are completed.
-/

namespace AttackDefense.Graph

open AttackDefense.Tree

variable {g : Graph} {c : Configuration} {a : NodeId}

/-- The attacks that are neither completed nor behind a completed checkpoint. -/
def pending (g : Graph) (completed : NodeSet) : List NodeId :=
  g.attacks.filter fun a => a ∉ completed && !g.behindCheckpoint completed a

theorem mem_pending {s : NodeSet} :
    a ∈ g.pending s ↔ a ∈ g.attacks ∧ a ∉ s ∧ ¬ g.Behind s a := by
  rw [← behindCheckpoint_iff]
  simp [pending]

/-! ## Something is pending -/

/-- All children together complete any goal: there is at least one. -/
theorem Sound.supported_of_forall (hg : g.Sound) {p : NodeId → Prop} {x : NodeId}
    (hx : g.tree.isSubgoal x) (h : ∀ c ∈ g.tree.children x, p c) : g.Supported p x := by
  obtain ⟨s, hs⟩ := isSubgoal_iff.1 hx
  have hf : g.tree.SubgoalFits x s := hg.tree.fits x _ hs
  obtain ⟨c, hc⟩ := List.exists_mem_of_ne_nil _ hf.nonempty
  have hall : ∀ c ∈ s.children, p c := fun c hc =>
    h c (mem_children_iff.2 ⟨s, subgoal?_eq_some.2 hs, hc⟩)
  refine ⟨s, subgoal?_eq_some.2 hs, ?_⟩
  cases s.refinement with
  | and => exact hall
  | or => exact ⟨c, hc, hall c hc⟩
  | edge => exact ⟨c, hc, hall c hc⟩

/-- When no attack is pending, everything below the root is completed or history. -/
theorem Sound.mem_or_behind_of_pending_eq_nil (hg : g.Sound) {s : NodeSet}
    (hclosed : g.propagate s = s) (hdone : g.pending s = []) {x : NodeId} (hx : g.Reachable x)
    (hkind : g.tree.isAttack x ∨ g.tree.isSubgoal x) : x ∈ s ∨ g.Behind s x := by
  -- a node has a larger number than its children
  induction x using Nat.strongRecOn with
  | _ x ih =>
    rcases hkind with hattack | hgoal
    · by_contra hnot
      rw [not_or] at hnot
      have hmem : x ∈ g.pending s := mem_pending.2 ⟨hg.mem_attacks.2 ⟨hx, hattack⟩, hnot⟩
      rw [hdone] at hmem
      cases hmem
    · have hchild : ∀ y ∈ g.tree.children x, y ∈ s ∨ g.Behind s y := by
        intro y hy
        exact ih y (children_lt hy) (hx.step hy) (hg.tree.kind_of_mem_children hy)
      by_cases hhistory : ∃ y ∈ g.tree.children x, g.Behind s y
      · obtain ⟨y, hy, hb⟩ := hhistory
        rw [hg.behind_iff_parent (hg.parent x hx y hy)] at hb
        exact hb.imp_left And.left
      · left
        rw [← hclosed]
        apply hg.mem_propagate_of_supported (hg.mem_subgoals.2 ⟨hx, hgoal⟩)
        rw [hclosed]
        apply hg.supported_of_forall hgoal
        exact fun y hy => (hchild y hy).resolve_right fun hb => hhistory ⟨y, hy, hb⟩

theorem Sound.exists_pending (hg : g.Sound) (hc : g.normalize c = c) (hroot : g.root ∉ c.completed) :
    ∃ a, a ∈ g.pending c.completed := by
  by_contra hnone
  have hdone : g.pending c.completed = [] :=
    List.eq_nil_iff_forall_not_mem.2 fun a ha => hnone ⟨a, ha⟩
  rcases hg.mem_or_behind_of_pending_eq_nil (hg.propagate_completed hc) hdone (.refl _)
    (.inr hg.root_isSubgoal) with h | h
  · exact hroot h
  · exact hg.not_behind_root _ h

/-! ## Fewer are pending -/

theorem Sound.pending_of_pending_complete (hg : g.Sound) {b : NodeId}
    (h : b ∈ g.pending (g.normalize (c.complete a)).completed) :
    b ∈ g.pending c.completed ∧ b ≠ a := by
  obtain ⟨hattack, hnot, hb⟩ := mem_pending.1 h
  rw [hg.behind_normalize] at hb
  have hleft : b ∉ g.propagate (c.complete a).completed := fun hmem =>
    hnot (mem_normalize_completed.2 ⟨hmem, hb⟩)
  have hgrows : ∀ x, x = a ∨ x ∈ c.completed → x ∈ g.propagate (c.complete a).completed :=
    fun x hx => g.subset_propagate _ (NodeSet.mem_insert.2 hx)
  refine ⟨mem_pending.2 ⟨hattack, fun hmem => hleft (hgrows b (.inr hmem)), fun hold => ?_⟩, ?_⟩
  · exact hb (hold.mono fun x hx => hgrows x (.inr hx))
  · rintro rfl
    exact hleft (hgrows b (.inl rfl))

theorem Sound.length_pending_complete_lt (hg : g.Sound) (ha : a ∈ g.pending c.completed) :
    (g.pending (g.normalize (c.complete a)).completed).length < (g.pending c.completed).length := by
  have hless := fun b => hg.pending_of_pending_complete (c := c) (a := a) (b := b)
  generalize (g.normalize (c.complete a)).completed = after at hless ⊢
  have hfilter : g.pending after = (g.pending c.completed).filter
      fun b => b ∉ after && !g.behindCheckpoint after b := by
    unfold pending
    rw [List.filter_filter]
    apply List.filter_congr
    intro b hb
    rw [Bool.eq_self_and]
    exact fun h => (List.mem_filter.1 (hless b (List.mem_filter.2 ⟨hb, h⟩)).1).2
  rw [hfilter, List.length_filter_lt_length_iff_exists]
  refine ⟨a, ha, fun h => ?_⟩
  exact (hless a (List.mem_filter.2 ⟨(mem_pending.1 ha).1, h⟩)).2 rfl

/-! ## Underway -/

/-- An attack that is pending is underway once it is started. -/
theorem Sound.mem_activated_activate (hg : g.Sound) (hc : g.normalize c = c)
    (ha : a ∈ g.pending c.completed) : a ∈ (g.normalize (c.activate a)).activated := by
  obtain ⟨_, hnot, hb⟩ := mem_pending.1 ha
  rw [hg.mem_normalize_activated, show (c.activate a).completed = c.completed from rfl,
    hg.propagate_completed hc]
  exact ⟨NodeSet.mem_insert.2 (.inl rfl), fun hk => hnot hk.1, hb⟩

/-- Starting an attack completes nothing. -/
theorem completed_normalize_activate (hc : g.normalize c = c) :
    (g.normalize (c.activate a)).completed = c.completed :=
  calc (g.normalize (c.activate a)).completed
    _ = (g.normalize c).completed := rfl
    _ = c.completed := by rw [hc]

/-- Once an available attack is started it is underway, and so is what was underway before. -/
theorem Sound.activated_normalize_activate (hg : g.Sound) (hc : g.normalize c = c)
    (ha : g.isAvailable c a) : (g.normalize (c.activate a)).activated = c.activated.insert a := by
  obtain ⟨_, hnot, hb⟩ := isAvailable_iff.1 ha
  ext x
  rw [hg.mem_normalize_activated, show (c.activate a).completed = c.completed from rfl,
    hg.propagate_completed hc]
  constructor
  · rintro ⟨hx, _⟩
    exact hx
  · intro hx
    refine ⟨hx, ?_⟩
    rcases NodeSet.mem_insert.1 hx with rfl | hx
    · exact ⟨fun hk => hnot hk.1, hb⟩
    · rw [← hc, hg.mem_normalize_activated, hg.propagate_completed hc] at hx
      exact hx.2

end AttackDefense.Graph
