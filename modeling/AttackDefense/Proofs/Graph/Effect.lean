import AttackDefense.Proofs.Graph.Scope

/-!
# What a success of a defense leaves

The walk over the owners of a defense, which skips those that are history, stops at checkpoints and
leaves the rest to propagation, has an effect that can be said without any order.  The defense
*wipes* the attacks that it protects and everything at or below the reset subgoals that it protects.
*Firm* are the completed attacks and checkpoints; the other completed goals follow from these.  From
a canonical and grounded configuration `c`, a success of `d` leads to

    activated = c.activated without g.wiped d                       (Grounded.activated_effect)
    completed = g.propagate (g.firm c without g.wiped d)            (Grounded.completed_effect)

and what is firm then is `g.firm c` without `g.wiped d` (`Grounded.firm_effect`).  Whatever is
completed stays completed if it is neither wiped nor above an owner
(`Grounded.mem_propagate_of_apart`).
-/

namespace AttackDefense.Graph

open AttackDefense.Tree

variable {g : Graph} {c : Configuration}

/-! ## Wiped and firm nodes -/

/-- The attacks that the defense protects, and all nodes of the walks from the reset subgoals that it
protects. -/
def wiped (g : Graph) (d : NodeId) : List NodeId :=
  (g.owners d).filter g.tree.isAttack ++
    ((g.owners d).filter g.tree.isReset).flatMap g.tree.depthFirst

/-- The completed attacks and checkpoints. -/
def firm (g : Graph) (c : Configuration) : NodeSet :=
  c.completed.filter fun x => g.tree.isAttack x || g.isCheckpoint x

theorem mem_wiped {d x : NodeId} : x ∈ g.wiped d ↔ ∃ o ∈ g.owners d,
    g.tree.isAttack o ∧ x = o ∨ g.tree.isReset o ∧ g.tree.Below o x := by
  unfold wiped
  simp only [List.mem_append, List.mem_filter, List.mem_flatMap, mem_depthFirst]
  constructor
  · rintro (⟨hx, ha⟩ | ⟨o, ⟨ho, hr⟩, hx⟩)
    · exact ⟨x, hx, .inl ⟨ha, rfl⟩⟩
    · exact ⟨o, ho, .inr ⟨hr, hx⟩⟩
  · rintro ⟨o, ho, ⟨ha, rfl⟩ | ⟨hr, hx⟩⟩
    · exact .inl ⟨ho, ha⟩
    · exact .inr ⟨o, ⟨ho, hr⟩, hx⟩

theorem mem_firm {x : NodeId} :
    x ∈ g.firm c ↔ x ∈ c.completed ∧ (g.tree.isAttack x ∨ g.isCheckpoint x) := by
  simp [firm]

/-- What is firm and left by the defense. -/
theorem mem_firm_filter {d x : NodeId} : x ∈ (g.firm c).filter (· ∉ g.wiped d) ↔
    x ∈ c.completed ∧ (g.tree.isAttack x ∨ g.isCheckpoint x) ∧ x ∉ g.wiped d := by
  rw [NodeSet.mem_filter, mem_firm, decide_eq_true_eq, and_assoc]

/-- An owner that is erased without its subtree is wiped if it is an attack. -/
theorem mem_wiped_of_erased {s : NodeSet} {d x : NodeId} (h : g.Erased s d x)
    (hx : x ∈ g.owners d → g.tree.isAttack x) : x ∈ g.wiped d := by
  obtain ⟨o, ho, h⟩ := h
  split at h
  · next hr => exact mem_wiped.2 ⟨o, ho.1, .inr ⟨hr, h⟩⟩
  · subst h
    exact mem_wiped.2 ⟨x, ho.1, .inl ⟨hx ho.1, rfl⟩⟩

/-- Progress that is no history is below no owner that is. -/
theorem Sound.erased_of_mem_wiped (hg : g.Sound) {s : NodeSet} {d x : NodeId}
    (hx : x ∈ g.wiped d) (hb : ¬ g.Behind s x) : g.Erased s d x := by
  obtain ⟨o, ho, ⟨_, rfl⟩ | ⟨hr, hx⟩⟩ := mem_wiped.1 hx
  · exact Struck.erased ⟨ho, hb⟩
  · refine erased_of_reset ⟨ho, fun hbo => hb ?_⟩ hr hx
    rcases hg.eq_or_mem_ancestors ((hg.mem_owners o d).1 ho).1 hx with rfl | ha
    · exact hbo
    · exact hbo.of_ancestor ha

/-- Nothing that is wiped follows from nodes that are not. -/
theorem Sound.not_mem_wiped_of_mem_propagate (hg : g.Sound) {s : NodeSet} {d x : NodeId}
    (hs : ∀ y ∈ s, y ∉ g.wiped d) (hx : x ∈ g.propagate s) : x ∉ g.wiped d := by
  intro hw
  obtain ⟨o, ho, ⟨ha, rfl⟩ | ⟨hr, hbelow⟩⟩ := mem_wiped.1 hw
  · exact hs x (hg.mem_of_mem_propagate (not_isSubgoal_of_isAttack ha) hx) hw
  · refine hg.not_mem_propagate_of_below (fun y hy hyo => ?_) x hx hbelow
    exact hs y hy (mem_wiped.2 ⟨o, ho, .inr ⟨hr, hyo⟩⟩)

/-! ## Closed configurations -/

/-- In a canonical configuration everything that follows is there already. -/
theorem Sound.propagate_completed (hg : g.Sound) (hc : g.normalize c = c) :
    g.propagate c.completed = c.completed :=
  hg.propagate_eq_self_iff.2 (hg.normalize_eq_self_iff.1 hc).closed

/-! ## The effect -/

/-- Completed nodes follow from a set that holds the firm ones among them, if with every goal that can
be taken back also its children are among them; the children of a goal are smaller than the goal. -/
theorem Grounded.mem_propagate_firm (hg : g.Sound) (h : g.Grounded c) {s : NodeSet}
    {P : NodeId → Prop} (hfirm : ∀ x ∈ g.firm c, P x → x ∈ s)
    (hdown : ∀ x ∈ g.subgoals, ¬ g.isCheckpoint x → P x → ∀ y ∈ g.tree.children x, P y)
    {x : NodeId} (hx : x ∈ c.completed) (hP : P x) : x ∈ g.propagate s := by
  induction x using Nat.strongRecOn with
  | _ x ih =>
    by_cases hf : g.tree.isAttack x ∨ g.isCheckpoint x
    · exact g.subset_propagate _ (hfirm x (mem_firm.2 ⟨hx, hf⟩) hP)
    · rw [not_or] at hf
      have hgoal : x ∈ g.subgoals :=
        (h.completed x hx).resolve_left fun ha => hf.1 (hg.mem_attacks.1 ha).2
      apply hg.mem_propagate_of_supported hgoal
      apply (h.supported x hx hgoal hf.2).mono
      exact fun y hy hdone => ih y (children_lt hy) hdone (hdown x hgoal hf.2 hP y hy)

/-- A canonical and grounded configuration has no goal that does not follow from what is firm. -/
theorem Grounded.propagate_firm (hg : g.Sound) (h : g.Grounded c) (hc : g.normalize c = c) :
    g.propagate (g.firm c) = c.completed := by
  ext x
  constructor
  · intro hx
    rw [← hg.propagate_completed hc]
    exact propagate_mono_of_subset hg (fun y hy => g.subset_propagate _ (mem_firm.1 hy).1) x hx
  · exact fun hx => h.mem_propagate_firm hg (P := fun _ => True) (fun _ hy _ => hy)
      (fun _ _ _ _ _ _ => trivial) hx trivial

/-- Neither wiped nor above an owner. -/
def Apart (g : Graph) (d x : NodeId) : Prop := x ∉ g.wiped d ∧ ∀ o ∈ g.owners d, x ∉ g.tree.ancestors o

/-- The children of a goal that is apart are apart. -/
theorem Sound.apart_of_parent (hg : g.Sound) {d x y : NodeId} (hx : g.Apart d x)
    (hp : g.tree.parent? y = some x) : g.Apart d y := by
  have habove : ∀ o ∈ g.owners d, y ≠ o := by
    rintro o ho rfl
    apply hx.2 y ho
    rw [hg.tree.ancestors_eq_cons hp]
    exact List.mem_cons_self
  refine ⟨fun hw => ?_, fun o ho hy => hx.2 o ho (mem_ancestors_trans hy ?_)⟩
  · obtain ⟨o, ho, ⟨_, rfl⟩ | ⟨hr, hy⟩⟩ := mem_wiped.1 hw
    · exact habove y ho rfl
    · rcases hy.eq_or_parent with rfl | ⟨q, hq, hyq⟩
      · exact habove y ho rfl
      · have hqp := hg.parent q (((hg.mem_owners o d).1 ho).1.trans hq) y hyq
        obtain rfl : q = x := Option.some.inj (hqp.symm.trans hp)
        exact hx.1 (mem_wiped.2 ⟨o, ho, .inr ⟨hr, hq⟩⟩)
  · rw [hg.tree.ancestors_eq_cons hp]
    exact List.mem_cons_self

/-- What is apart stays completed. -/
theorem Grounded.mem_propagate_of_apart (hg : g.Sound) (h : g.Grounded c) {d x : NodeId}
    (hx : x ∈ c.completed) (hapart : g.Apart d x) :
    x ∈ g.propagate ((g.firm c).filter (· ∉ g.wiped d)) := by
  refine h.mem_propagate_firm hg (P := g.Apart d) ?_ ?_ hx hapart
  · exact fun y hy hapart => NodeSet.mem_filter.2 ⟨hy, decide_eq_true hapart.1⟩
  · intro y hgoal _ hapart z hz
    exact hg.apart_of_parent hapart (hg.parent y (hg.mem_subgoals.1 hgoal).1 z hz)

section

variable (hg : g.Sound) (hc : g.normalize c = c)

include hg hc

/-- A firm node is lost exactly if it is wiped. -/
theorem lost_iff_mem_wiped {d x : NodeId} (hx : x ∈ c.completed)
    (hfirm : g.tree.isAttack x ∨ g.isCheckpoint x) : g.Lost c.completed d x ↔ x ∈ g.wiped d := by
  constructor
  · rintro (he | hr)
    · refine mem_wiped_of_erased he fun howner => ?_
      exact hfirm.resolve_right (hg.not_isCheckpoint_of_mem_owners howner)
    · rcases hfirm with ha | hq
      · exact absurd (hr.isSubgoal hg) (not_isSubgoal_of_isAttack ha)
      · exact absurd hq hr.not_isCheckpoint
  · intro hw
    exact .inl (hg.erased_of_mem_wiped hw (hg.not_behind_of_mem_nodes hc (mem_nodes.2 (.inr hx))))

/-- What is left after the defense follows from the firm nodes that are left. -/
theorem Grounded.propagate_applyDefense_eq_firm (h : g.Grounded c) (d : NodeId) :
    g.propagate (g.applyDefense d c).completed =
      g.propagate ((g.firm c).filter (· ∉ g.wiped d)) := by
  ext x
  constructor
  · refine propagate_mono_of_subset hg (fun y hy => ?_) x
    obtain ⟨hy, hleft⟩ := mem_applyDefense_completed.1 hy
    refine h.mem_propagate_firm hg (P := fun y => ¬ g.Lost c.completed d y) ?_ ?_ hy hleft
    · intro z hz hleft
      obtain ⟨hz, hfirm⟩ := mem_firm.1 hz
      exact mem_firm_filter.2 ⟨hz, hfirm, fun hw =>
        hleft ((lost_iff_mem_wiped hg hc hz hfirm).2 hw)⟩
    · intro z hgoal hcheck hleft w hw hl
      exact hleft (hg.lost_of_parent hl (hg.parent z (hg.mem_subgoals.1 hgoal).1 w hw) hcheck)
  · refine propagate_mono_of_subset hg (fun y hy => ?_) x
    obtain ⟨hy, hfirm, hw⟩ := mem_firm_filter.1 hy
    apply g.subset_propagate
    exact mem_applyDefense_completed.2 ⟨hy, fun hl => hw ((lost_iff_mem_wiped hg hc hy hfirm).1 hl)⟩

/-- A defense makes nothing history that was none: it completes nothing that was not completed. -/
theorem propagate_applyDefense_subset {d x : NodeId}
    (hx : x ∈ g.propagate (g.applyDefense d c).completed) : x ∈ c.completed := by
  rw [← hg.propagate_completed hc]
  refine propagate_mono_of_subset hg (fun y hy => ?_) x hx
  exact g.subset_propagate _ (mem_applyDefense_completed.1 hy).1

theorem not_behind_propagate_applyDefense {d x : NodeId} (hx : x ∈ c.nodes) :
    ¬ g.Behind (g.propagate (g.applyDefense d c).completed) x := fun hb =>
  hg.not_behind_of_mem_nodes hc hx (hb.mono fun _ => propagate_applyDefense_subset hg hc)

theorem Grounded.completed_effect (h : g.Grounded c) (d : NodeId) :
    (g.normalize (g.applyDefense d c)).completed =
      g.propagate ((g.firm c).filter (· ∉ g.wiped d)) := by
  ext x
  rw [mem_normalize_completed, ← h.propagate_applyDefense_eq_firm hg hc, Kept, and_iff_left_iff_imp]
  intro hx
  have hnode : x ∈ c.nodes := mem_nodes.2 (.inr (propagate_applyDefense_subset hg hc hx))
  exact not_behind_propagate_applyDefense hg hc hnode

theorem Grounded.activated_effect (h : g.Grounded c) (d : NodeId) :
    (g.normalize (g.applyDefense d c)).activated = c.activated.filter (· ∉ g.wiped d) := by
  ext x
  rw [hg.mem_normalize_activated, mem_applyDefense_activated, NodeSet.mem_filter, decide_eq_true_eq]
  constructor
  · rintro ⟨⟨hx, he⟩, _, _⟩
    have hb := hg.not_behind_of_mem_nodes hc (mem_nodes.2 (.inl hx))
    exact ⟨hx, fun hw => he (hg.erased_of_mem_wiped hw hb)⟩
  · rintro ⟨hx, hw⟩
    refine ⟨⟨hx, fun he => hw ?_⟩, fun hk => ?_, ?_⟩
    · exact mem_wiped_of_erased he fun _ => (hg.mem_attacks.1 (h.activated x hx)).2
    · rw [← hc] at hx
      exact hg.not_mem_completed hx (hc.symm ▸ propagate_applyDefense_subset hg hc hk.1)
    · exact not_behind_propagate_applyDefense hg hc (mem_nodes.2 (.inl hx))

/-- Firm is afterwards what was firm and is not wiped. -/
theorem Grounded.firm_effect (h : g.Grounded c) (d : NodeId) :
    g.firm (g.normalize (g.applyDefense d c)) = (g.firm c).filter (· ∉ g.wiped d) := by
  ext x
  rw [mem_firm, h.completed_effect hg hc, mem_firm_filter]
  constructor
  · rintro ⟨hx, hfirm⟩
    refine ⟨?_, hfirm, ?_⟩
    · rw [← h.propagate_applyDefense_eq_firm hg hc] at hx
      exact propagate_applyDefense_subset hg hc hx
    · exact hg.not_mem_wiped_of_mem_propagate (fun y hy => (mem_firm_filter.1 hy).2.2) hx
  · intro hx
    exact ⟨g.subset_propagate _ (mem_firm_filter.2 hx), hx.2.1⟩

end

end AttackDefense.Graph
