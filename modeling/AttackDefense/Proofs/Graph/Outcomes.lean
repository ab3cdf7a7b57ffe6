import AttackDefense.Proofs.Graph.Effect

/-!
# Successes commute

Successes of defenses, one after the other, leave what none of them wipes.  From a canonical and
grounded configuration `c`, the defenses `ds` lead to the only such configuration in which underway
and firm is what is so in `c` and wiped by none of `ds` (`Grounded.leaves_foldl_strike`,
`Leaves.unique`).  Completions of attacks lead to the canonical form of what is completed together:

    (as.map .complete).foldl (Event.normalized g) (g.normalize c) =
      g.normalize ⟨c.activated, as.foldl .insert c.completed⟩       (Sound.foldl_complete)

Neither depends on the order, nor on how often something is listed (`Grounded.foldl_strike_congr`,
`Sound.foldl_complete_congr`).
-/

namespace AttackDefense.Graph

variable {g : Graph} {c c₁ c₂ : Configuration} {ds ds' : List NodeId}

/-! ## Defenses -/

/-- What is firm decides what is completed. -/
theorem Grounded.eq_of_firm (hg : g.Sound) (h₁ : g.Grounded c₁) (hc₁ : g.normalize c₁ = c₁)
    (h₂ : g.Grounded c₂) (hc₂ : g.normalize c₂ = c₂) (hactivated : c₁.activated = c₂.activated)
    (hfirm : g.firm c₁ = g.firm c₂) : c₁ = c₂ := by
  apply Configuration.ext hactivated
  calc c₁.completed
    _ = g.propagate (g.firm c₁) := (h₁.propagate_firm hg hc₁).symm
    _ = g.propagate (g.firm c₂) := by rw [hfirm]
    _ = c₂.completed := h₂.propagate_firm hg hc₂

/-- Underway and firm is what was so before and is wiped by none of the defenses. -/
structure Leaves (g : Graph) (c : Configuration) (ds : List NodeId) (after : Configuration) :
    Prop where
  grounded : g.Grounded after
  canonical : g.normalize after = after
  activated : ∀ x, x ∈ after.activated ↔ x ∈ c.activated ∧ ∀ d ∈ ds, x ∉ g.wiped d
  firm : ∀ x, x ∈ g.firm after ↔ x ∈ g.firm c ∧ ∀ d ∈ ds, x ∉ g.wiped d

theorem Leaves.unique (hg : g.Sound) (h₁ : g.Leaves c ds c₁) (h₂ : g.Leaves c ds' c₂)
    (hds : ∀ d, d ∈ ds ↔ d ∈ ds') : c₁ = c₂ := by
  have hwiped : ∀ x, (∀ d ∈ ds, x ∉ g.wiped d) ↔ ∀ d ∈ ds', x ∉ g.wiped d := by
    intro x
    simp only [hds]
  apply h₁.grounded.eq_of_firm hg h₁.canonical h₂.grounded h₂.canonical
  · ext x
    rw [h₁.activated, h₂.activated, hwiped]
  · ext x
    rw [h₁.firm, h₂.firm, hwiped]

theorem Grounded.leaves_nil (h : g.Grounded c) (hc : g.normalize c = c) : g.Leaves c [] c where
  grounded := h
  canonical := hc
  activated := by simp
  firm := by simp

/-- A success before the others: wiped is what it wipes as well. -/
theorem Leaves.cons (hg : g.Sound) (h : g.Grounded c) (hc : g.normalize c = c) {d : NodeId}
    {after : Configuration} (hafter : g.Leaves (Event.normalized g c (.strike d)) ds after) :
    g.Leaves c (d :: ds) after where
  grounded := hafter.grounded
  canonical := hafter.canonical
  activated := by
    intro x
    have heffect : (Event.normalized g c (.strike d)).activated = _ := h.activated_effect hg hc d
    rw [hafter.activated, heffect, NodeSet.mem_filter, decide_eq_true_eq, List.forall_mem_cons,
      and_assoc]
  firm := by
    intro x
    have heffect : g.firm (Event.normalized g c (.strike d)) = _ := h.firm_effect hg hc d
    rw [hafter.firm, heffect, NodeSet.mem_filter, decide_eq_true_eq, List.forall_mem_cons,
      and_assoc]

theorem Grounded.normalized_strike (hg : g.Sound) (h : g.Grounded c) (d : NodeId) :
    g.Grounded (Event.normalized g c (.strike d)) :=
  (h.applyDefense hg d).normalize hg

/-- **Run.**  Successes of defenses, one after the other, by induction on the list. -/
theorem Grounded.leaves_foldl_strike (hg : g.Sound) (h : g.Grounded c) (hc : g.normalize c = c)
    (ds : List NodeId) : g.Leaves c ds ((ds.map .strike).foldl (Event.normalized g) c) := by
  induction ds generalizing c with
  | nil => exact h.leaves_nil hc
  | cons d ds ih =>
    have hafter := ih (h.normalized_strike hg d) (hg.normalize_normalize_eq _)
    exact hafter.cons hg h hc

theorem Grounded.foldl_strike_congr (hg : g.Sound) (h : g.Grounded c) (hc : g.normalize c = c)
    (hds : ∀ d, d ∈ ds ↔ d ∈ ds') : (ds.map .strike).foldl (Event.normalized g) c =
      (ds'.map .strike).foldl (Event.normalized g) c :=
  (h.leaves_foldl_strike hg hc ds).unique hg (h.leaves_foldl_strike hg hc ds') hds

/-! ## Attacks -/

/-- What follows is the same, whether one more node is added before or after. -/
theorem Sound.propagate_insert_propagate (hg : g.Sound) (s : NodeSet) (a : NodeId) :
    g.propagate ((g.propagate s).insert a) = g.propagate (s.insert a) := by
  ext x
  constructor
  · refine propagate_mono_of_subset hg (fun y hy => ?_) x
    rcases NodeSet.mem_insert.1 hy with rfl | hy
    · exact g.subset_propagate _ (NodeSet.mem_insert.2 (.inl rfl))
    · refine propagate_mono_of_subset hg (fun z hz => ?_) y hy
      exact g.subset_propagate _ (NodeSet.mem_insert.2 (.inr hz))
  · refine propagate_mono_of_subset hg (fun y hy => g.subset_propagate _ ?_) x
    exact NodeSet.mem_insert.2 ((NodeSet.mem_insert.1 hy).imp_right (g.subset_propagate s))

/-- A completion needs neither what follows nor what is history to be settled first. -/
theorem Sound.normalized_complete (hg : g.Sound) (c : Configuration) (a : NodeId) :
    Event.normalized g (g.normalize c) (.complete a) = g.normalize (c.complete a) := by
  have hclosed := hg.propagate_propagate c.completed
  calc g.normalize ((g.normalize c).complete a)
    _ = g.normalize ((g.normalize ⟨c.activated, g.propagate c.completed⟩).complete a) := by
        rw [normalize_propagated hg]
    _ = g.normalize ⟨c.activated, (g.propagate c.completed).insert a⟩ :=
        normalize_complete_normalize hg hclosed a
    _ = g.normalize ⟨c.activated, g.propagate ((g.propagate c.completed).insert a)⟩ :=
        (normalize_propagated hg ⟨c.activated, (g.propagate c.completed).insert a⟩).symm
    _ = g.normalize ⟨c.activated, g.propagate (c.completed.insert a)⟩ := by
        rw [hg.propagate_insert_propagate]
    _ = g.normalize (c.complete a) := normalize_propagated hg (c.complete a)

/-- **Run.**  Completions of attacks, one after the other, by induction on the list. -/
theorem Sound.foldl_complete (hg : g.Sound) (as : List NodeId) (c : Configuration) :
    (as.map .complete).foldl (Event.normalized g) (g.normalize c) =
      g.normalize ⟨c.activated, as.foldl .insert c.completed⟩ := by
  induction as generalizing c with
  | nil => rfl
  | cons a as ih =>
    rw [List.map_cons, List.foldl_cons, hg.normalized_complete]
    exact ih (c.complete a)

theorem Sound.foldl_complete_congr (hg : g.Sound) (hc : g.normalize c = c) {as as' : List NodeId}
    (has : ∀ a, a ∈ as ↔ a ∈ as') : (as.map .complete).foldl (Event.normalized g) c =
      (as'.map .complete).foldl (Event.normalized g) c := by
  have hcompleted : as.foldl .insert c.completed = as'.foldl .insert c.completed := by
    ext x
    rw [NodeSet.mem_foldl_insert, NodeSet.mem_foldl_insert, has]
  have hrun := hg.foldl_complete as c
  rw [hcompleted, ← hg.foldl_complete as' c, hc] at hrun
  exact hrun

end AttackDefense.Graph
