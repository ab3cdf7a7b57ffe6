import AttackDefense.Proofs.Automaton.Goal
import AttackDefense.Proofs.Automaton.Incidence

/-!
# Starting attacks

Whether an attack is available is tested before it is started; what reduction drops is decided
after.  The two agree on every canonical configuration:

    g.normalize c = c → g.isAvailable c a → g.normalize (c.activate a) = c.activate a
                                                                    (Sound.normalize_activate)
    g.normalize c = c → ¬ g.isAvailable c a → g.normalize (c.activate a) = c
                                                                (Sound.normalize_activate_eq_self)

So in an automaton an edge that starts an attack leads to a state that differs by this attack alone,
and an attack for which a decision has no such edge would change nothing (`availability_is_exact`).
-/

namespace AttackDefense

variable {g : Graph} {c : Configuration} {a : NodeId}

namespace Graph

/-! ## The test and the reduction -/

/-- An available attack comes in and nothing else changes. -/
theorem Sound.normalize_activate (hg : g.Sound) (hc : g.normalize c = c) (ha : g.isAvailable c a) :
    g.normalize (c.activate a) = c.activate a :=
  Configuration.ext (hg.activated_normalize_activate hc ha) (completed_normalize_activate hc)

/-- An attack that is not available is there already, or is dropped again. -/
theorem Sound.normalize_activate_eq_self (hg : g.Sound) (hc : g.normalize c = c)
    (ha : ¬ g.isAvailable c a) : g.normalize (c.activate a) = c := by
  have hcanonical := hg.normalize_eq_self_iff.1 hc
  apply Configuration.ext _ (completed_normalize_activate hc)
  ext x
  rw [hg.mem_normalize_activated, show (c.activate a).completed = c.completed from rfl,
    hg.propagate_completed hc]
  constructor
  · rintro ⟨hx, hkept, hbehind⟩
    rcases NodeSet.mem_insert.1 hx with rfl | hx
    · by_contra hnew
      exact ha (isAvailable_iff.2 ⟨hnew, fun hdone => hkept ⟨hdone, hbehind⟩, hbehind⟩)
    · exact hx
  · intro hx
    obtain ⟨hnot, hbehind⟩ := hcanonical.underway x hx
    exact ⟨NodeSet.mem_insert.2 (.inr hx), fun hkept => hnot hkept.1, hbehind⟩

/-! ## Moves that start an attack -/

/-- An attack is started by a decision that has it available, or once it is paid for. -/
theorem of_start_mem_moves {phase : Phase} {target : Option (Phase × Configuration)}
    (h : (.start a, target) ∈ g.moves phase c) : target = some (.deciding, c.activate a) ∧
      (phase = .deciding ∧ a ∈ g.availableAttacks c ∨ phase = .paying a) := by
  cases phase with
  | deciding =>
    rcases List.mem_append.1 h with h | h
    · obtain ⟨b, hb, he⟩ := List.mem_map.1 h
      unfold startMove at he
      split at he <;> cases he
      exact ⟨rfl, .inl ⟨rfl, hb⟩⟩
    · split at h
      · cases h
      · cases List.mem_singleton.1 h
  | paying b =>
    cases List.mem_singleton.1 h
    exact ⟨rfl, .inr rfl⟩
  | waiting =>
    rcases mem_moves_waiting.1 h with ⟨b, _, _, he⟩ | ⟨d, _, he⟩
    · cases he
    · unfold strikeMove at he
      split at he <;> cases he
  | attempting b => simp [moves] at h
  | resetting d => simp [moves] at h

/-- Whoever starts an attack has it available. -/
theorem Regular.isAvailable_of_start {phase : Phase} {target : Option (Phase × Configuration)}
    (hregular : g.Regular phase c) (h : (.start a, target) ∈ g.moves phase c) :
    g.isAvailable c a := by
  rcases (of_start_mem_moves h).2 with ⟨_, ha⟩ | rfl
  · exact (List.mem_filter.1 ha).2
  · exact hregular.admits

end Graph

namespace Automaton

open AttackDefense.Graph

variable {m : Automaton}

/-- An edge that starts an attack adds it to what is underway. -/
theorem Unfolds.configuration_of_start (hg : g.Sound) (h : m.Unfolds g) {e : Edge}
    (he : e ∈ m.edges.toList) (hmove : e.move = .start a) :
    ∃ s u, m.state? e.source = some s ∧ m.state? e.destination = some u ∧
      g.isAvailable s.configuration a ∧ u.configuration = s.configuration.activate a := by
  obtain ⟨s, hs, he⟩ := h.mem_edges_iff.1 he
  obtain ⟨⟨move, target⟩, hmem, _, heq, hdest⟩ := exists_of_mem_left (h.rows _ s hs) he
  obtain rfl : move = .start a := heq.symm.trans hmove
  obtain ⟨hstate, hkey⟩ := h.states _ s hs
  have havailable := (hkey.regular hg).isAvailable_of_start hmem
  obtain rfl := (of_start_mem_moves hmem).1
  obtain ⟨u, hu, huk⟩ := (h.indexed _ _).1 hdest
  refine ⟨s, u, hs, hu, havailable, ?_⟩
  rw [State.configuration, huk, configuration_keyOf]
  exact hg.normalize_activate hstate.canonical havailable

/-- A decision has an edge to start each available attack, or one to pay for it and then start. -/
theorem Unfolds.exists_start (hg : g.Sound) (h : m.Unfolds g) {i : StateId} {s : State}
    (hs : m.state? i = some s) (hphase : s.phase = .deciding)
    (ha : a ∈ g.availableAttacks s.configuration) :
    ∃ j u, m.state? j = some u ∧ u.phase = .deciding ∧
      u.configuration = s.configuration.activate a ∧
      ((∃ e ∈ m.edgesOf i, e.move = .start a ∧ e.destination = j) ∨
        ∃ k, (∃ e ∈ m.edgesOf i, e.move = .pay a ∧ e.destination = k) ∧
          ∃ e ∈ m.edgesOf k, e.move = .start a ∧ e.destination = j) := by
  have hc : g.normalize s.configuration = s.configuration := (h.states i s hs).1.canonical
  have hstarted := hg.normalize_activate hc (List.mem_filter.1 ha).2
  have hmem : g.startMove s.configuration a ∈ g.moves s.phase s.configuration := by
    rw [hphase]
    exact List.mem_append_left _ (List.mem_map_of_mem ha)
  unfold startMove at hmem
  split at hmem
  · obtain ⟨k, v, hv, heq, hpay⟩ := h.exists_edge hs hmem
    obtain ⟨hvphase, hvc⟩ := Prod.mk.inj heq
    rw [hc] at hvc
    have hstart : (.start a, some (.deciding, v.configuration.activate a)) ∈
        g.moves v.phase v.configuration := by
      rw [hvphase]
      exact List.mem_cons_self
    obtain ⟨j, u, hu, heq, hedge⟩ := h.exists_edge hv hstart
    obtain ⟨huphase, huc⟩ := Prod.mk.inj heq
    rw [hvc, hstarted] at huc
    exact ⟨j, u, hu, huphase, huc, .inr ⟨k, hpay, hedge⟩⟩
  · obtain ⟨j, u, hu, heq, hedge⟩ := h.exists_edge hs hmem
    obtain ⟨huphase, huc⟩ := Prod.mk.inj heq
    exact ⟨j, u, hu, huphase, huc.trans hstarted, .inl hedge⟩

/-- **Availability is exact.**  In every canonical configuration, an available attack that is
activated is a new member of what is underway and the only change, and any other attack changes
nothing.  So in an automaton every edge that starts an attack adds exactly this attack, and from
every decision each attack whose activation would change anything can be started, maybe after paying
for it. -/
theorem availability_is_exact (hg : g.Built) :
    (∀ c a, g.normalize c = c →
      (g.isAvailable c a → a ∉ c.activated ∧
        (g.normalize (c.activate a)).activated = c.activated.insert a ∧
        (g.normalize (c.activate a)).completed = c.completed) ∧
      (¬ g.isAvailable c a → g.normalize (c.activate a) = c)) ∧
    ∀ maxStates m, build g maxStates = .ok m →
      (∀ e ∈ m.edges.toList, ∀ a, e.move = .start a →
        ∃ s u, m.state? e.source = some s ∧ m.state? e.destination = some u ∧
          a ∉ s.configuration.activated ∧ u.configuration = s.configuration.activate a) ∧
      ∀ i s, m.state? i = some s → s.phase = .deciding → ∀ a ∈ g.attacks,
        g.normalize (s.configuration.activate a) ≠ s.configuration →
        ∃ j u, m.state? j = some u ∧ u.phase = .deciding ∧
          u.configuration = s.configuration.activate a ∧
          ((∃ e ∈ m.edgesOf i, e.move = .start a ∧ e.destination = j) ∨
            ∃ k, (∃ e ∈ m.edgesOf i, e.move = .pay a ∧ e.destination = k) ∧
              ∃ e ∈ m.edgesOf k, e.move = .start a ∧ e.destination = j) := by
  have hg := hg.sound
  refine ⟨fun c a hc => ⟨fun ha => ?_, hg.normalize_activate_eq_self hc⟩, fun maxStates m hm => ?_⟩
  · exact ⟨(isAvailable_iff.1 ha).1, hg.activated_normalize_activate hc ha,
      completed_normalize_activate hc⟩
  · have hunfolds := unfolds_of_build hg hm
    constructor
    · intro e he a hmove
      obtain ⟨s, u, hs, hu, ha, huc⟩ := hunfolds.configuration_of_start hg he hmove
      exact ⟨s, u, hs, hu, (isAvailable_iff.1 ha).1, huc⟩
    · intro i s hs hphase a hattack hchange
      have hc : g.normalize s.configuration = s.configuration :=
        (hunfolds.states i s hs).1.canonical
      have havailable : g.isAvailable s.configuration a := by
        by_contra hnot
        exact hchange (hg.normalize_activate_eq_self hc hnot)
      exact hunfolds.exists_start hg hs hphase (List.mem_filter.2 ⟨hattack, havailable⟩)

/-- The theft of the small graph can be started at first, and no more once the goal is reached. -/
theorem availability_is_exact_vault :
    vault.Built ∧ vault.isAvailable .empty 1 ∧
    (vault.normalize (Configuration.empty.activate 1)).activated = .ofList [1] ∧
    ¬ vault.isAvailable ⟨.empty, .ofList [3]⟩ 1 ∧
    vault.normalize (Configuration.activate ⟨.empty, .ofList [3]⟩ 1) = ⟨.empty, .ofList [3]⟩ ∧
    ∃ m i s, build vault 7 = .ok m ∧ m.state? i = some s ∧ s.key = ⟨.deciding, [1], []⟩ := by
  obtain ⟨hexact, hbuilt⟩ := availability_is_exact built_vault
  have hfirst : vault.isAvailable .empty 1 := by decide +kernel
  have hlast : ¬ vault.isAvailable ⟨.empty, .ofList [3]⟩ 1 := by decide +kernel
  obtain ⟨m, hm⟩ := exists_build_vault
  have hunfolds := unfolds_of_build built_vault.sound hm
  obtain ⟨s, hs, hkey⟩ := hunfolds.initial
  have hphase : s.phase = .deciding := by rw [State.phase, hkey]
  have hc : s.configuration = .empty := by
    rw [State.configuration, hkey]
    rfl
  obtain ⟨j, u, hu, huphase, huc, _⟩ := (hbuilt 7 m hm).2 0 s hs hphase 1 (by decide)
    (by rw [hc]; decide +kernel)
  refine ⟨built_vault, hfirst, ((hexact .empty 1 (by decide +kernel)).1 hfirst).2.1, hlast,
    (hexact ⟨.empty, .ofList [3]⟩ 1 (by decide +kernel)).2 hlast, m, j, u, hm, hu, ?_⟩
  rw [(hunfolds.states j u hu).2.eq_keyOf built_vault.sound, ← State.phase, ← State.configuration,
    huphase, huc, hc]
  decide +kernel

end Automaton

end AttackDefense
