import AttackDefense.Proofs.Graph.Grounded

/-!
# When a defense changes nothing

`Untouched g d c` says that the defense `d` finds nothing to take back in `c`: no progress at an
attack that it protects, and none anywhere below a reset subgoal that it protects.  In a canonical
and grounded configuration this is exactly when its success changes nothing, and a defense out of
scope is a case of it:

    d ∉ g.activeDefenses c → g.Untouched d c        (untouched_of_not_mem_activeDefenses)
    g.normalize (g.applyDefense d c) = c ↔ g.Untouched d c
                                                    (Grounded.normalize_applyDefense_eq_iff)

A success may still take completed goals away, those that it protects itself and those above; they
are supported by what stays, so propagation brings them back, the lower ones first.
-/

namespace AttackDefense.Graph

open AttackDefense.Tree

variable {g : Graph} {c : Configuration}

/-! ## Progress -/

theorem mem_nodes {x : NodeId} : x ∈ c.nodes ↔ x ∈ c.activated ∨ x ∈ c.completed :=
  List.mem_append

/-- No progress of a canonical configuration is history. -/
theorem Sound.not_behind_of_mem_nodes (hg : g.Sound) (hc : g.normalize c = c) {x : NodeId}
    (hx : x ∈ c.nodes) : ¬ g.Behind c.completed x := by
  have hcanonical := hg.normalize_eq_self_iff.1 hc
  rcases mem_nodes.1 hx with hx | hx
  · exact (hcanonical.underway x hx).2
  · exact hcanonical.kept x hx

/-- Below a node of the graph, climbing leads back to it. -/
theorem Sound.eq_or_mem_ancestors (hg : g.Sound) {o x : NodeId} (ho : g.Reachable o)
    (h : g.tree.Below o x) : x = o ∨ o ∈ g.tree.ancestors x := by
  induction h with
  | refl => exact .inl rfl
  | @child p c x hc _ ih =>
    right
    have hp : p ∈ g.tree.ancestors c := by
      rw [hg.tree.ancestors_eq_cons (hg.parent p ho c hc)]
      exact List.mem_cons_self
    rcases ih (ho.step hc) with rfl | hx
    · exact hp
    · exact mem_ancestors_trans hx hp

theorem Sound.reachable_of_mem_ancestors (hg : g.Sound) {x a : NodeId} (hx : g.Reachable x)
    (h : a ∈ g.tree.ancestors x) : g.Reachable a := by
  fun_induction ancestors g.tree x with
  | case1 x hnone => cases h
  | case2 x p hsome hlt ih =>
    have hp : g.Reachable p := by
      rcases hx.eq_or_parent with rfl | ⟨q, hq, hxq⟩
      · rw [hg.root_parent] at hsome
        cases hsome
      · obtain rfl := Option.some.inj ((hg.parent q hq x hxq).symm.trans hsome)
        exact hq
    rcases List.mem_cons.1 h with rfl | h
    · exact hp
    · exact ih hp h
  | case3 x p hsome hlt => cases h

/-! ## Scope -/

/-- Nothing that the defense would reset: neither an attack that it protects nor anything below a
reset subgoal that it protects. -/
def Untouched (g : Graph) (d : NodeId) (c : Configuration) : Prop :=
  ∀ o ∈ g.owners d, (g.tree.isAttack o → o ∉ c.nodes) ∧
    (g.tree.isReset o → ∀ x, g.tree.Below o x → x ∉ c.nodes)

theorem mem_activeDefenses {d : NodeId} : d ∈ g.activeDefenses c ↔ d ∈ g.defenses ∧
    ∃ x ∈ c.nodes, d ∈ g.tree.defensesOf x ∨
      ∃ a ∈ g.tree.ancestors x, g.tree.isReset a ∧ d ∈ g.tree.defensesOf a := by
  unfold activeDefenses touched
  rw [List.mem_filter, decide_eq_true_eq, List.mem_flatMap]
  refine and_congr_right fun _ => ?_
  simp only [List.mem_flatMap, List.mem_cons, List.mem_filter]
  constructor
  · rintro ⟨a, ⟨x, hx, rfl | ⟨ha, hr⟩⟩, hd⟩
    · exact ⟨a, hx, .inl hd⟩
    · exact ⟨x, hx, .inr ⟨a, ha, hr, hd⟩⟩
  · rintro ⟨x, hx, hd | ⟨a, ha, hr, hd⟩⟩
    · exact ⟨x, ⟨x, hx, .inl rfl⟩, hd⟩
    · exact ⟨a, ⟨x, hx, .inr ⟨ha, hr⟩⟩, hd⟩

theorem Sound.untouched_of_not_mem_activeDefenses (hg : g.Sound) {d : NodeId} (hd : d ∈ g.defenses)
    (h : d ∉ g.activeDefenses c) : g.Untouched d c := by
  rw [mem_activeDefenses, not_and] at h
  have h := h hd
  intro o ho
  obtain ⟨hreach, hattached⟩ := (hg.mem_owners o d).1 ho
  refine ⟨fun _ hmem => h ⟨o, hmem, .inl hattached⟩, fun hr x hx hmem => ?_⟩
  rcases hg.eq_or_mem_ancestors hreach hx with rfl | ha
  · exact h ⟨x, hmem, .inl hattached⟩
  · exact h ⟨x, hmem, .inr ⟨o, ha, hr, hattached⟩⟩

theorem Grounded.reachable (hg : g.Sound) (h : g.Grounded c) {x : NodeId} (hx : x ∈ c.nodes) :
    g.Reachable x := by
  rcases mem_nodes.1 hx with hx | hx
  · exact (hg.mem_attacks.1 (h.activated x hx)).1
  · rcases h.completed x hx with hx | hx
    · exact (hg.mem_attacks.1 hx).1
    · exact (hg.mem_subgoals.1 hx).1

/-- All that brings the defense into scope are completed subgoals that are no reset subgoals. -/
def InScopeByGoals (g : Graph) (d : NodeId) (c : Configuration) : Prop :=
  ∀ x ∈ c.nodes,
    (d ∈ g.tree.defensesOf x → x ∈ c.completed ∧ g.tree.isSubgoal x ∧ ¬ g.tree.isReset x) ∧
    ∀ a ∈ g.tree.ancestors x, g.tree.isReset a → d ∉ g.tree.defensesOf a

theorem Grounded.untouched_iff (hg : g.Sound) (h : g.Grounded c) {d : NodeId} :
    g.Untouched d c ↔ g.InScopeByGoals d c := by
  constructor
  · intro hu x hx
    have hreach := h.reachable hg hx
    refine ⟨fun hd => ?_, fun a ha hr hd => ?_⟩
    · obtain ⟨hattack, hreset⟩ := hu x ((hg.mem_owners x d).2 ⟨hreach, hd⟩)
      have hnot : x ∉ g.attacks := fun hmem => hattack (hg.mem_attacks.1 hmem).2 hx
      have hcompleted := (mem_nodes.1 hx).resolve_left fun ha => hnot (h.activated x ha)
      have hgoal := (h.completed x hcompleted).resolve_left hnot
      exact ⟨hcompleted, (hg.mem_subgoals.1 hgoal).2, fun hr => hreset hr x (.refl x) hx⟩
    · have howner := (hg.mem_owners a d).2 ⟨hg.reachable_of_mem_ancestors hreach ha, hd⟩
      exact (hu a howner).2 hr x (hg.tree.below_of_mem_ancestors ha) hx
  · intro hs o ho
    obtain ⟨hreach, hd⟩ := (hg.mem_owners o d).1 ho
    refine ⟨fun ha hx => ?_, fun hr x hbelow hx => ?_⟩
    · exact not_isSubgoal_of_isAttack ha ((hs o hx).1 hd).2.1
    · rcases hg.eq_or_mem_ancestors hreach hbelow with rfl | ha
      · exact ((hs x hx).1 hd).2.2 hr
      · exact (hs x hx).2 o ha hr hd

/-! ## Nothing to take back -/

/-- What an untouched configuration loses are goals that can be taken back. -/
theorem Grounded.mem_subgoals_of_lost (hg : g.Sound) (h : g.Grounded c) {d : NodeId}
    (hu : g.Untouched d c) {x : NodeId} (hx : x ∈ c.completed) (hl : g.Lost c.completed d x) :
    x ∈ g.subgoals ∧ ¬ g.isCheckpoint x := by
  have hnode : x ∈ c.nodes := mem_nodes.2 (.inr hx)
  rcases hl with ⟨o, ho, hxo⟩ | hl
  · split at hxo
    · next hr => exact absurd hnode ((hu o ho.1).2 hr x hxo)
    · subst hxo
      refine ⟨(h.completed x hx).resolve_left fun ha => ?_, hg.not_isCheckpoint_of_mem_owners ho.1⟩
      exact (hu x ho.1).1 (hg.mem_attacks.1 ha).2 hnode
  · refine ⟨(h.completed x hx).resolve_left fun ha => ?_, hl.not_isCheckpoint⟩
    exact not_isSubgoal_of_isAttack (hg.mem_attacks.1 ha).2 (hl.isSubgoal hg)

/-- Propagation brings back what was taken away; the children of a goal are smaller than the goal. -/
theorem Grounded.mem_propagate_applyDefense (hg : g.Sound) (h : g.Grounded c) {d : NodeId}
    (hu : g.Untouched d c) {x : NodeId} (hx : x ∈ c.completed) :
    x ∈ g.propagate (g.applyDefense d c).completed := by
  induction x using Nat.strongRecOn with
  | _ x ih =>
    by_cases hl : g.Lost c.completed d x
    · obtain ⟨hgoal, hcheck⟩ := h.mem_subgoals_of_lost hg hu hx hl
      apply hg.mem_propagate_of_supported hgoal
      exact (h.supported x hx hgoal hcheck).mono fun y hy hmem => ih y (children_lt hy) hmem
    · exact g.subset_propagate _ (mem_applyDefense_completed.2 ⟨hx, hl⟩)

theorem Grounded.propagate_applyDefense_eq (hg : g.Sound) (h : g.Grounded c) {d : NodeId}
    (hu : g.Untouched d c) :
    g.propagate (g.applyDefense d c).completed = g.propagate c.completed := by
  ext x
  constructor
  · refine propagate_mono_of_subset hg (fun y hy => ?_) x
    exact g.subset_propagate _ (mem_applyDefense_completed.1 hy).1
  · exact propagate_mono_of_subset hg (fun y hy => h.mem_propagate_applyDefense hg hu hy) x

theorem Grounded.normalize_applyDefense_eq (hg : g.Sound) (h : g.Grounded c)
    (hc : g.normalize c = c) {d : NodeId} (hu : g.Untouched d c) :
    g.normalize (g.applyDefense d c) = c := by
  have hsame : g.normalize (g.applyDefense d c) = g.normalize c := by
    apply hg.normalize_congr
    · intro x
      rw [h.propagate_applyDefense_eq hg hu]
    · intro a _ _
      rw [mem_applyDefense_activated]
      refine ⟨fun ha => ha.1, fun ha => ⟨ha, ?_⟩⟩
      -- an attack that is underway is no struck owner and not below one
      rintro ⟨o, ho, hao⟩
      have hnode : a ∈ c.nodes := mem_nodes.2 (.inl ha)
      split at hao
      · next hr => exact (hu o ho.1).2 hr a hao hnode
      · subst hao
        exact (hu a ho.1).1 (hg.mem_attacks.1 (h.activated a ha)).2 hnode
  rw [hsame, hc]

/-! ## Something to take back -/

/-- What is erased and not derived again is gone. -/
theorem Sound.not_mem_nodes_of_erased (hg : g.Sound) {d x : NodeId}
    (hx : g.Erased c.completed d x) (hn : x ∉ g.propagate (g.applyDefense d c).completed) :
    x ∉ (g.normalize (g.applyDefense d c)).nodes := by
  rw [mem_nodes, hg.mem_normalize_activated, mem_applyDefense_activated, mem_normalize_completed]
  rintro (⟨⟨_, he⟩, _⟩ | ⟨hp, _⟩)
  · exact he hx
  · exact hn hp

theorem Sound.untouched_of_normalize_eq (hg : g.Sound) (hc : g.normalize c = c) {d : NodeId}
    (h : g.normalize (g.applyDefense d c) = c) : g.Untouched d c := by
  intro o ho
  constructor
  · intro ha hmem
    have hstruck : g.Struck c.completed d o := ⟨ho, hg.not_behind_of_mem_nodes hc hmem⟩
    refine hg.not_mem_nodes_of_erased hstruck.erased (fun hp => ?_) (h.symm ▸ hmem)
    have hp := hg.mem_of_mem_propagate (not_isSubgoal_of_isAttack ha) hp
    exact (mem_applyDefense_completed.1 hp).2 (.inl hstruck.erased)
  · intro hr x hx hmem
    -- were the owner history, so would be what lies below it
    have hstruck : g.Struck c.completed d o := by
      refine ⟨ho, fun hb => hg.not_behind_of_mem_nodes hc hmem ?_⟩
      rcases hg.eq_or_mem_ancestors ((hg.mem_owners o d).1 ho).1 hx with rfl | ha
      · exact hb
      · exact hb.of_ancestor ha
    exact hg.not_mem_nodes_of_erased (erased_of_reset hstruck hr hx)
      (hg.not_mem_propagate_applyDefense hstruck hr hx) (h.symm ▸ hmem)

theorem Grounded.normalize_applyDefense_eq_iff (hg : g.Sound) (h : g.Grounded c)
    (hc : g.normalize c = c) {d : NodeId} :
    g.normalize (g.applyDefense d c) = c ↔ g.Untouched d c :=
  ⟨hg.untouched_of_normalize_eq hc, h.normalize_applyDefense_eq hg hc⟩

end AttackDefense.Graph
