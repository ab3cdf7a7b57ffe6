import AttackDefense.Proofs.Automaton.Rows
import AttackDefense.Proofs.Graph.Grounded
import Mathlib.Algebra.BigOperators.Finprod
import Mathlib.Data.Set.Card
import Mathlib.Data.Set.Finite.Powerset

/-!
# Reachable keys

A phase and a configuration are `Regular` if the phase is about an attack or a defense of the graph
which the configuration still has, the configuration is canonical and grounded, and nobody waits when
nothing can happen.  Every move keeps this, since it leads to the configuration that it leaves or to
what an event of the graph makes of it (`Step.event`):

    g.Regular phase c → (m, some (phase', c')) ∈ g.moves phase c →
      g.Regular phase' (g.normalize c')                                     (Regular.step)
    g.ReachableKey k → g.Regular k.phase k.configuration                    (ReachableKey.regular)

So there are finitely many reachable keys (`Sound.finite_reachableKey`).  `g.stateCount` is their
number, and `g.edgeCount` the number of moves that leave them.
-/

namespace AttackDefense.Graph

open AttackDefense.Tree

variable {g : Graph} {c : Configuration}

/-! ## Moves are events -/

theorem Step.event {phase phase' : Phase} {c' : Configuration} (hphase : g.Involves phase)
    (h : g.Step phase c phase' c') : c' = c ∨ ∃ e : Event, e.Of g ∧ c' = e.apply g c := by
  cases h with
  | pay _ => exact .inl rfl
  | @start _ a ha => exact .inr ⟨.activate a, (List.mem_filter.1 ha).1, rfl⟩
  | wait => exact .inl rfl
  | paid _ a => exact .inr ⟨.activate a, hphase, rfl⟩
  | attempt _ _ => exact .inl rfl
  | @finish _ a ha _ => exact .inr ⟨.complete a, ha, rfl⟩
  | succeed _ a => exact .inr ⟨.complete a, hphase, rfl⟩
  | fail _ a => exact .inr ⟨.deactivate a, hphase, rfl⟩
  | strike _ => exact .inl rfl
  | @reset _ d hd => exact .inr ⟨.strike d, (List.mem_filter.1 hd).1, rfl⟩
  | defended _ d => exact .inr ⟨.strike d, hphase, rfl⟩
  | spared => exact .inl rfl

/-- Nothing is underway, and no defense is in scope. -/
def Quiet (g : Graph) (c : Configuration) : Prop :=
  c.activated.isEmpty ∧ g.activeDefenses c = []

/-- Waiting begins with a decision, and only if anything can happen. -/
theorem not_quiet_of_wait {phase : Phase} {m : Move} {c' : Configuration}
    (h : (m, some (.waiting, c')) ∈ g.moves phase c) : c' = c ∧ ¬ g.Quiet c := by
  cases step_of_mem_moves h with
  | wait =>
    refine ⟨rfl, fun hq => ?_⟩
    rcases List.mem_append.1 h with h | h
    · obtain ⟨a, _, he⟩ := List.mem_map.1 h
      unfold startMove at he
      split at he <;> cases he
    · rw [if_pos (show _ ∧ _ from hq)] at h
      cases h

/-! ## Regular keys -/

/-- What holds of the phase and the configuration of every state. -/
structure Regular (g : Graph) (phase : Phase) (c : Configuration) : Prop where
  involves : g.Involves phase
  admits : g.Admits phase c
  canonical : g.normalize c = c
  grounded : g.Grounded c
  busy : phase = .waiting → ¬ g.Quiet c

theorem regular_initial (hg : g.Sound) : g.Regular .deciding .empty where
  involves := trivial
  admits := trivial
  canonical := hg.normalize_empty
  grounded := grounded_empty g
  busy := by simp

theorem Regular.step (hg : g.Sound) {phase phase' : Phase} {m : Move} {c' : Configuration}
    (h : g.Regular phase c) (hmem : (m, some (phase', c')) ∈ g.moves phase c) :
    g.Regular phase' (g.normalize c') where
  involves := (step_of_mem_moves hmem).involves
  admits := (step_of_mem_moves hmem).admits h.canonical
  canonical := hg.normalize_normalize_eq c'
  grounded := by
    apply Grounded.normalize hg
    rcases (step_of_mem_moves hmem).event h.involves with rfl | ⟨e, he, rfl⟩
    · exact h.grounded
    · exact h.grounded.apply hg he
  busy := by
    rintro rfl
    obtain ⟨rfl, hbusy⟩ := not_quiet_of_wait hmem
    rwa [h.canonical]

variable {k : StateKey}

/-- **Invariant.**  Every reachable key is regular. -/
theorem ReachableKey.regular (hg : g.Sound) (hk : g.ReachableKey k) :
    g.Regular k.phase k.configuration := by
  induction hk with
  | initial => exact regular_initial hg
  | step _ hmem ih =>
    rw [configuration_keyOf]
    exact ih.step hg hmem

theorem ReachableKey.eq_keyOf (hg : g.Sound) (hk : g.ReachableKey k) :
    k = g.keyOf k.phase k.configuration := by
  cases hk with
  | initial =>
    have h := hg.keyOf_normalize_empty
    rw [hg.normalize_empty] at h
    exact h.symm
  | step _ _ =>
    rw [configuration_keyOf]
    rfl

/-! ## Finitely many keys -/

/-- A set is determined by its members, so a list has finitely many sets of members. -/
theorem finite_nodeSets (l : List NodeId) : {s : NodeSet | ∀ x ∈ s, x ∈ l}.Finite := by
  apply Set.Finite.of_finite_image (f := fun s : NodeSet => {x | x ∈ s})
  · apply (List.finite_toSet l).finite_subsets.subset
    rintro _ ⟨s, hs, rfl⟩
    exact hs
  · intro s _ t _ h
    ext x
    exact Set.ext_iff.1 h x

theorem finite_involves (g : Graph) : {phase | g.Involves phase}.Finite := by
  have hattacks := List.finite_toSet g.attacks
  have hdefenses := List.finite_toSet g.defenses
  apply ((((Set.finite_singleton Phase.deciding).insert .waiting).union
    (hattacks.image .paying)).union ((hattacks.image .attempting).union
    (hdefenses.image .resetting))).subset
  intro phase h
  cases phase with
  | deciding => simp
  | waiting => simp
  | paying a => exact .inl (.inr ⟨a, h, rfl⟩)
  | attempting a => exact .inr (.inl ⟨a, h, rfl⟩)
  | resetting d => exact .inr (.inr ⟨d, h, rfl⟩)

theorem Sound.finite_reachableKey (hg : g.Sound) : {k | g.ReachableKey k}.Finite := by
  have hnodes := finite_nodeSets (g.attacks ++ g.subgoals)
  apply (((finite_involves g).prod (hnodes.prod hnodes)).image
    fun p => g.keyOf p.1 ⟨p.2.1, p.2.2⟩).subset
  intro k hk
  have hregular := ReachableKey.regular hg hk
  refine ⟨(k.phase, k.configuration.activated, k.configuration.completed),
    ⟨hregular.involves, ?_, ?_⟩, (ReachableKey.eq_keyOf hg hk).symm⟩
  · exact fun a ha => List.mem_append_left _ (hregular.grounded.activated a ha)
  · exact fun x hx => List.mem_append.2 (hregular.grounded.completed x hx)

/-! ## Their number -/

/-- The number of reachable keys. -/
noncomputable def stateCount (g : Graph) : Nat := {k | g.ReachableKey k}.ncard

/-- The number of moves that leave a key. -/
def moveCount (g : Graph) (k : StateKey) : Nat := (g.moves k.phase k.configuration).length

theorem moveCount_keyOf (phase : Phase) (c : Configuration) :
    g.moveCount (g.keyOf phase c) = (g.moves phase c).length := by
  rw [moveCount, configuration_keyOf]
  rfl

/-- The number of moves that leave the reachable keys. -/
noncomputable def edgeCount (g : Graph) : Nat := ∑ᶠ k ∈ {k | g.ReachableKey k}, g.moveCount k

section

variable (hg : g.Sound)

theorem stateCount_eq_card : g.stateCount = hg.finite_reachableKey.toFinset.card :=
  Set.ncard_eq_toFinset_card _ hg.finite_reachableKey

theorem edgeCount_eq_sum :
    g.edgeCount = ∑ k ∈ hg.finite_reachableKey.toFinset, g.moveCount k :=
  finsum_mem_eq_finite_toFinset_sum _ hg.finite_reachableKey

variable {l : List StateKey} (hnodup : l.Nodup)

include hg hnodup

theorem length_le_stateCount (hl : ∀ k ∈ l, g.ReachableKey k) : l.length ≤ g.stateCount := by
  rw [stateCount_eq_card hg, ← List.toFinset_card_of_nodup hnodup]
  apply Finset.card_le_card
  exact fun k hk => by simpa using hl k (List.mem_toFinset.1 hk)

theorem sum_moveCount_le_edgeCount (hl : ∀ k ∈ l, g.ReachableKey k) :
    (l.map g.moveCount).sum ≤ g.edgeCount := by
  rw [edgeCount_eq_sum hg, ← List.sum_toFinset _ hnodup]
  apply Finset.sum_le_sum_of_subset
  exact fun k hk => by simpa using hl k (List.mem_toFinset.1 hk)

omit hnodup in
theorem stateCount_le_length (hl : ∀ k, g.ReachableKey k → k ∈ l) : g.stateCount ≤ l.length := by
  rw [stateCount_eq_card hg]
  refine le_trans (Finset.card_le_card fun k hk => ?_) l.toFinset_card_le
  exact List.mem_toFinset.2 (hl k (by simpa using hk))

theorem edgeCount_le_sum_moveCount (hl : ∀ k, g.ReachableKey k → k ∈ l) :
    g.edgeCount ≤ (l.map g.moveCount).sum := by
  rw [edgeCount_eq_sum hg, ← List.sum_toFinset _ hnodup]
  apply Finset.sum_le_sum_of_subset
  exact fun k hk => List.mem_toFinset.2 (hl k (by simpa using hk))

end

end AttackDefense.Graph
