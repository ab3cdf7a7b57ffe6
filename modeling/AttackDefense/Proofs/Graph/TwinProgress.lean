import AttackDefense.Proofs.Graph.Twins

/-!
# Progress does not depend on numbers

Sets of nodes of two graphs are twins if each member of one has its twin in the other, and so are
configurations.  Everything that happens to progress takes twins to twins, whatever order the nodes,
the owners and the goals are gone through in: propagation ends in the least closed set, and the rest
is said node by node.

    ConfigurationTwins g g' c c' →
      ConfigurationTwins g g' (g.normalize c) (g'.normalize c')                       (normalize)
    Twins g g' d d' →
      ConfigurationTwins g g' (g.applyDefense d c) (g'.applyDefense d' c')         (applyDefense)

One direction of each membership is proved; the other one is the same statement about the two graphs
exchanged.
-/

namespace AttackDefense.Graph

open AttackDefense.Tree

variable {g g' : Graph} {x x' : NodeId} {s s' : NodeSet} {c c' : Configuration}

/-! ## Sets -/

/-- Each member has its twin in the other set. -/
structure SetTwins (g g' : Graph) (s s' : NodeSet) : Prop where
  left : ∀ x ∈ s, g.Reachable x ∧ ∃ x' ∈ s', Twins g g' x x'
  right : ∀ x' ∈ s', g'.Reachable x' ∧ ∃ x ∈ s, Twins g g' x x'

theorem SetTwins.symm (hs : SetTwins g g' s s') : SetTwins g' g s' s where
  left x' hx' := by
    obtain ⟨hreach, x, hx, ht⟩ := hs.right x' hx'
    exact ⟨hreach, x, hx, ht.symm⟩
  right x hx := by
    obtain ⟨hreach, x', hx', ht⟩ := hs.left x hx
    exact ⟨hreach, x', hx', ht.symm⟩

theorem setTwins_empty (g g' : Graph) : SetTwins g g' .empty .empty :=
  ⟨by simp, by simp⟩

theorem SetTwins.eq_empty (hs : SetTwins g g' s s') (hempty : s = .empty) : s' = .empty := by
  ext x'
  rw [NodeSet.mem_empty, iff_false]
  intro hx'
  obtain ⟨_, x, hx, _⟩ := hs.right x' hx'
  rw [hempty] at hx
  exact NodeSet.mem_empty.1 hx

section

variable (h : Alike g g')

include h

theorem SetTwins.mem (hs : SetTwins g g' s s') (ht : Twins g g' x x') (hx : x ∈ s) : x' ∈ s' := by
  obtain ⟨_, y', hy', hty⟩ := hs.left x hx
  rwa [ht.eq h.sound' hty]

theorem SetTwins.mem_iff (hs : SetTwins g g' s s') (ht : Twins g g' x x') : x ∈ s ↔ x' ∈ s' :=
  ⟨hs.mem h ht, hs.symm.mem h.symm ht.symm⟩

/-- Sets of nodes below the roots are twins if they have the same members up to twins. -/
theorem setTwins_of_mem (hs : ∀ x ∈ s, g.Reachable x) (hs' : ∀ x' ∈ s', g'.Reachable x')
    (hmem : ∀ x x', Twins g g' x x' → g.Reachable x → (x ∈ s ↔ x' ∈ s')) :
    SetTwins g g' s s' where
  left x hx := by
    obtain ⟨x', _, ht⟩ := h.exists_twin (hs x hx)
    exact ⟨hs x hx, x', (hmem x x' ht (hs x hx)).1 hx, ht⟩
  right x' hx' := by
    obtain ⟨x, hx, ht⟩ := h.symm.exists_twin (hs' x' hx')
    exact ⟨hs' x' hx', x, (hmem x x' ht.symm hx).2 hx', ht.symm⟩

/-- A set has at most one twin. -/
theorem SetTwins.eq (hs : SetTwins g g' s s') {t' : NodeSet} (ht : SetTwins g g' s t') :
    s' = t' := by
  ext x'
  constructor
  · intro hx'
    obtain ⟨_, x, hx, htx⟩ := hs.right x' hx'
    exact ht.mem h htx hx
  · intro hx'
    obtain ⟨_, x, hx, htx⟩ := ht.right x' hx'
    exact hs.mem h htx hx

theorem SetTwins.insert (hs : SetTwins g g' s s') {a a' : NodeId} (ha : Twins g g' a a')
    (hreach : g.Reachable a) : SetTwins g g' (s.insert a) (s'.insert a') := by
  apply setTwins_of_mem h
  · intro x hx
    rcases NodeSet.mem_insert.1 hx with rfl | hx
    · exact hreach
    · exact (hs.left x hx).1
  · intro x' hx'
    rcases NodeSet.mem_insert.1 hx' with rfl | hx'
    · exact h.reachable ha hreach
    · exact (hs.right x' hx').1
  · intro x x' ht _
    have heq : x = a ↔ x' = a' :=
      ⟨fun he => ht.eq h.sound' (he ▸ ha), fun he => ht.symm.eq h.sound (he ▸ ha.symm)⟩
    rw [NodeSet.mem_insert, NodeSet.mem_insert, heq, hs.mem_iff h ht]

theorem SetTwins.erase (hs : SetTwins g g' s s') {a a' : NodeId} (ha : Twins g g' a a') :
    SetTwins g g' (s.erase a) (s'.erase a') := by
  apply setTwins_of_mem h
  · exact fun x hx => (hs.left x (NodeSet.mem_erase.1 hx).1).1
  · exact fun x' hx' => (hs.right x' (NodeSet.mem_erase.1 hx').1).1
  · intro x x' ht _
    have heq : x = a ↔ x' = a' :=
      ⟨fun he => ht.eq h.sound' (he ▸ ha), fun he => ht.symm.eq h.sound (he ▸ ha.symm)⟩
    rw [NodeSet.mem_erase, NodeSet.mem_erase, ne_eq, ne_eq, heq, hs.mem_iff h ht]

/-! ## Propagation -/

theorem Supported.twin {P P' : NodeId → Prop} (ht : Twins g g' x x') (hx : g.Reachable x)
    (hP : ∀ c c', Twins g g' c c' → P c → P' c') (hsup : g.Supported P x) :
    g'.Supported P' x' := by
  obtain ⟨s, hs, hsup⟩ := hsup
  have hrefinement := h.refinement_eq ht
  rw [hs, Option.map_some, eq_comm, Option.map_eq_some_iff] at hrefinement
  obtain ⟨s', hs', hrefinement⟩ := hrefinement
  have hchildren : ∀ c, c ∈ g.tree.children x ↔ c ∈ s.children := by simp [mem_children_iff, hs]
  have hchildren' : ∀ c', c' ∈ g'.tree.children x' ↔ c' ∈ s'.children := by
    simp [mem_children_iff, hs']
  have hmatched := h.matched_children ht hx (h.reachable ht hx)
  have hall : (∀ c ∈ s.children, P c) → ∀ c' ∈ s'.children, P' c' := by
    intro hall c' hc'
    obtain ⟨c, hc, htc⟩ := hmatched.symm.exists_left ((hchildren' c').2 hc')
    exact hP c c' htc (hall c ((hchildren c).1 hc))
  have hsome : (∃ c ∈ s.children, P c) → ∃ c' ∈ s'.children, P' c' := by
    rintro ⟨c, hc, hdone⟩
    obtain ⟨c', hc', htc⟩ := hmatched.exists_left ((hchildren c).2 hc)
    exact ⟨c', (hchildren' c').1 hc', hP c c' htc hdone⟩
  refine ⟨s', hs', ?_⟩
  rw [hrefinement]
  cases hr : s.refinement with
  | and =>
    rw [hr] at hsup
    exact hall hsup
  | or =>
    rw [hr] at hsup
    exact hsome hsup
  | edge =>
    rw [hr] at hsup
    exact hsome hsup

theorem SetTwins.propagate_left (hs : SetTwins g g' s s') :
    ∀ x ∈ g.propagate s, g.Reachable x ∧ ∃ x' ∈ g'.propagate s', Twins g g' x x' := by
  apply propagate_induction
  · intro x hx
    obtain ⟨hreach, x', hx', ht⟩ := hs.left x hx
    exact ⟨hreach, x', g'.subset_propagate s' hx', ht⟩
  · intro x hx hsup
    obtain ⟨hreach, hgoal⟩ := h.sound.mem_subgoals.1 hx
    obtain ⟨x', hreach', ht⟩ := h.exists_twin hreach
    refine ⟨hreach, x', ?_, ht⟩
    apply h.sound'.mem_propagate_of_supported
      (h.sound'.mem_subgoals.2 ⟨hreach', h.isSubgoal_eq ht ▸ hgoal⟩)
    refine hsup.twin h ht hreach fun c c' htc ⟨_, y', hy', hty⟩ => ?_
    rwa [htc.eq h.sound' hty]

theorem SetTwins.propagate (hs : SetTwins g g' s s') :
    SetTwins g g' (g.propagate s) (g'.propagate s') where
  left := hs.propagate_left h
  right x' hx' := by
    obtain ⟨hreach, x, hx, ht⟩ := hs.symm.propagate_left h.symm x' hx'
    exact ⟨hreach, x, hx, ht.symm⟩

/-! ## History -/

theorem Behind.twin (hs : SetTwins g g' s s') (ht : Twins g g' x x') (hx : g.Reachable x)
    (hb : g.Behind s x) : g'.Behind s' x' := by
  obtain ⟨a, ha, hmem, hc⟩ := hb
  obtain ⟨a', ha', hta⟩ := exists_of_mem_left (h.ancestors ht hx) ha
  have hreach := h.sound.reachable_of_mem_ancestors hx ha
  exact ⟨a', ha', hs.mem h hta hmem, h.isCheckpoint_of_isCheckpoint hta hreach hc⟩

theorem SetTwins.behind_iff (hs : SetTwins g g' s s') (ht : Twins g g' x x')
    (hx : g.Reachable x) : g.Behind s x ↔ g'.Behind s' x' :=
  ⟨Behind.twin h hs ht hx, Behind.twin h.symm hs.symm ht.symm (h.reachable ht hx)⟩

theorem SetTwins.kept_iff (hs : SetTwins g g' s s') (ht : Twins g g' x x') (hx : g.Reachable x) :
    g.Kept s x ↔ g'.Kept s' x' := by
  rw [Kept, Kept, hs.mem_iff h ht, hs.behind_iff h ht hx]

end

/-! ## Configurations -/

/-- The same progress, up to twins. -/
structure ConfigurationTwins (g g' : Graph) (c c' : Configuration) : Prop where
  activated : SetTwins g g' c.activated c'.activated
  completed : SetTwins g g' c.completed c'.completed

theorem ConfigurationTwins.symm (hc : ConfigurationTwins g g' c c') :
    ConfigurationTwins g' g c' c := ⟨hc.activated.symm, hc.completed.symm⟩

theorem configurationTwins_empty (g g' : Graph) : ConfigurationTwins g g' .empty .empty :=
  ⟨setTwins_empty g g', setTwins_empty g g'⟩

theorem ConfigurationTwins.exists_node (hc : ConfigurationTwins g g' c c') (hx : x ∈ c.nodes) :
    g.Reachable x ∧ ∃ x' ∈ c'.nodes, Twins g g' x x' := by
  rcases mem_nodes.1 hx with hx | hx
  · obtain ⟨hreach, x', hx', ht⟩ := hc.activated.left x hx
    exact ⟨hreach, x', mem_nodes.2 (.inl hx'), ht⟩
  · obtain ⟨hreach, x', hx', ht⟩ := hc.completed.left x hx
    exact ⟨hreach, x', mem_nodes.2 (.inr hx'), ht⟩

section

variable (h : Alike g g') (hc : ConfigurationTwins g g' c c')

include h hc

namespace ConfigurationTwins

theorem eq {d' : Configuration} (hd : ConfigurationTwins g g' c d') : c' = d' :=
  Configuration.ext (hc.activated.eq h hd.activated) (hc.completed.eq h hd.completed)

theorem activate {a a' : NodeId} (ha : Twins g g' a a') (hreach : g.Reachable a) :
    ConfigurationTwins g g' (c.activate a) (c'.activate a') :=
  ⟨hc.activated.insert h ha hreach, hc.completed⟩

theorem complete {a a' : NodeId} (ha : Twins g g' a a') (hreach : g.Reachable a) :
    ConfigurationTwins g g' (c.complete a) (c'.complete a') :=
  ⟨hc.activated, hc.completed.insert h ha hreach⟩

theorem deactivate {a a' : NodeId} (ha : Twins g g' a a') :
    ConfigurationTwins g g' (c.deactivate a) (c'.deactivate a') :=
  ⟨hc.activated.erase h ha, hc.completed⟩

theorem normalize : ConfigurationTwins g g' (g.normalize c) (g'.normalize c') := by
  have hpropagated := hc.completed.propagate h
  constructor
  · apply setTwins_of_mem h
    · exact fun x hx => (hc.activated.left x (h.sound.mem_normalize_activated.1 hx).1).1
    · exact fun x' hx' => (hc.activated.right x' (h.sound'.mem_normalize_activated.1 hx').1).1
    · intro x x' ht hx
      rw [h.sound.mem_normalize_activated, h.sound'.mem_normalize_activated,
        hc.activated.mem_iff h ht, hpropagated.kept_iff h ht hx, hpropagated.behind_iff h ht hx]
  · apply setTwins_of_mem h
    · exact fun x hx => (hpropagated.left x (mem_normalize_completed.1 hx).1).1
    · exact fun x' hx' => (hpropagated.right x' (mem_normalize_completed.1 hx').1).1
    · intro x x' ht hx
      rw [mem_normalize_completed, mem_normalize_completed, hpropagated.kept_iff h ht hx]

theorem isAvailable_eq (ht : Twins g g' x x') (hx : g.Reachable x) :
    g.isAvailable c x = g'.isAvailable c' x' := by
  rw [Bool.eq_iff_iff, isAvailable_iff, isAvailable_iff, hc.activated.mem_iff h ht,
    hc.completed.mem_iff h ht, hc.completed.behind_iff h ht hx]

/-! ## Defenses -/

theorem mem_activeDefenses {d d' : NodeId} (htd : Twins g g' d d')
    (hd : d ∈ g.activeDefenses c) : d' ∈ g'.activeDefenses c' := by
  obtain ⟨hdefense, x, hx, hattached⟩ := Graph.mem_activeDefenses.1 hd
  obtain ⟨e', he', hte⟩ := h.exists_twin_defense hdefense
  obtain rfl := htd.eq h.sound' hte
  obtain ⟨hreach, x', hx', ht⟩ := hc.exists_node hx
  refine Graph.mem_activeDefenses.2 ⟨he', x', hx', ?_⟩
  rcases hattached with hd | ⟨a, ha, hr, hd⟩
  · exact .inl (h.mem_defensesOf ht hreach htd hd)
  · obtain ⟨a', ha', hta⟩ := exists_of_mem_left (h.ancestors ht hreach) ha
    have hreach_a := h.sound.reachable_of_mem_ancestors hreach ha
    exact .inr ⟨a', ha', h.isReset_eq hta ▸ hr, h.mem_defensesOf hta hreach_a htd hd⟩

theorem mem_activeDefenses_iff {d d' : NodeId} (htd : Twins g g' d d') :
    d ∈ g.activeDefenses c ↔ d' ∈ g'.activeDefenses c' :=
  ⟨hc.mem_activeDefenses h htd, hc.symm.mem_activeDefenses h.symm htd.symm⟩

end ConfigurationTwins

end

/-! ## Resets -/

section

variable (h : Alike g g') (hs : SetTwins g g' s s') {d d' : NodeId} (htd : Twins g g' d d')

include h hs htd

/-- The owners that are struck have struck twins. -/
theorem Struck.exists_twin {o : NodeId} (ho : g.Struck s d o) :
    g.Reachable o ∧ ∃ o', g'.Struck s' d' o' ∧ Twins g g' o o' := by
  obtain ⟨hreach, hd⟩ := (h.sound.mem_owners o d).1 ho.1
  obtain ⟨o', hreach', ht⟩ := h.exists_twin hreach
  refine ⟨hreach, o', ⟨?_, ?_⟩, ht⟩
  · exact (h.sound'.mem_owners o' d').2 ⟨hreach', h.mem_defensesOf ht hreach htd hd⟩
  · rw [← hs.behind_iff h ht hreach]
    exact ho.2

theorem Erased.twin (ht : Twins g g' x x') (hx : g.Erased s d x) : g'.Erased s' d' x' := by
  obtain ⟨o, ho, hx⟩ := hx
  obtain ⟨hreach, o', ho', hto⟩ := ho.exists_twin h hs htd
  refine ⟨o', ho', ?_⟩
  rw [← h.isReset_eq hto]
  by_cases hr : g.tree.isReset o
  · rw [if_pos hr] at hx ⊢
    exact h.below hto hreach ht hx
  · rw [if_neg hr] at hx ⊢
    subst hx
    exact ht.eq h.sound' hto

/-- Climbs that stop at the first checkpoint go over twins as well. -/
theorem Retracted.twin (ht : Twins g g' x x') (hx : g.Retracted s d x) :
    g'.Retracted s' d' x' := by
  obtain ⟨o, ho, hx⟩ := hx
  obtain ⟨hreach, o', ho', hto⟩ := ho.exists_twin h hs htd
  have hclimb := forall₂_takeWhile (h.ancestors hto hreach)
    (p := fun a => !g.isCheckpoint a) (q := fun a' => !g'.isCheckpoint a') fun a ha a' _ hta => by
      rw [h.isCheckpoint_eq hta (h.sound.reachable_of_mem_ancestors hreach ha)]
  obtain ⟨y', hy', hty⟩ := exists_of_mem_left hclimb hx
  exact ⟨o', ho', ht.eq h.sound' hty ▸ hy'⟩

theorem lost_iff (ht : Twins g g' x x') : g.Lost s d x ↔ g'.Lost s' d' x' := by
  constructor
  · rintro (hx | hx)
    · exact .inl (hx.twin h hs htd ht)
    · exact .inr (hx.twin h hs htd ht)
  · rintro (hx | hx)
    · exact .inl (hx.twin h.symm hs.symm htd.symm ht.symm)
    · exact .inr (hx.twin h.symm hs.symm htd.symm ht.symm)

end

/-- What a defense takes back does not depend on numbers. -/
theorem ConfigurationTwins.applyDefense (h : Alike g g') (hc : ConfigurationTwins g g' c c')
    {d d' : NodeId} (htd : Twins g g' d d') :
    ConfigurationTwins g g' (g.applyDefense d c) (g'.applyDefense d' c') := by
  constructor
  · apply setTwins_of_mem h
    · exact fun x hx => (hc.activated.left x (mem_applyDefense_activated.1 hx).1).1
    · exact fun x' hx' => (hc.activated.right x' (mem_applyDefense_activated.1 hx').1).1
    · intro x x' ht _
      have herased : g.Erased c.completed d x ↔ g'.Erased c'.completed d' x' :=
        ⟨fun hx => hx.twin h hc.completed htd ht,
          fun hx => hx.twin h.symm hc.completed.symm htd.symm ht.symm⟩
      rw [mem_applyDefense_activated, mem_applyDefense_activated, hc.activated.mem_iff h ht,
        herased]
  · apply setTwins_of_mem h
    · exact fun x hx => (hc.completed.left x (mem_applyDefense_completed.1 hx).1).1
    · exact fun x' hx' => (hc.completed.right x' (mem_applyDefense_completed.1 hx').1).1
    · intro x x' ht _
      rw [mem_applyDefense_completed, mem_applyDefense_completed, hc.completed.mem_iff h ht,
        lost_iff h hc.completed htd ht]

end AttackDefense.Graph
