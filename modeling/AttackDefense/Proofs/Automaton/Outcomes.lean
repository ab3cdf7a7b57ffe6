import AttackDefense.Proofs.Automaton.Configurations
import AttackDefense.Proofs.Automaton.Permanence
import AttackDefense.Proofs.Graph.NormalForms
import AttackDefense.Proofs.Graph.Outcomes

/-!
# The order of successes does not matter

When several defenses or several attacks are due at one moment of waiting, they come about one after
another, and the attacker decides in between.  An event that is no longer `Live` when its turn comes,
because the attack is no longer underway or the defense no longer in scope, is skipped;
`m.Occurs i es j` says that the events `es` lead from the state `i` to the state `j` in this way.

Whatever is skipped would change nothing: a success of a defense out of scope, or the completion of an
attack that another one has made history (`Settled.normalize_complete`).  Of such `Concerted` events
the end can be computed as if all of them were live (`Concerted.foldl_outcome`), and these successes
commute.
-/

namespace AttackDefense

open Relation

variable {g : Graph} {c : Configuration} {a : NodeId}

namespace Graph

/-! ## Live events -/

/-- The attack is underway, or the defense in scope. -/
def Live (g : Graph) (c : Configuration) : Event → Prop
  | .complete a => a ∈ c.activated
  | .strike d => d ∈ g.activeDefenses c
  | .activate _ | .deactivate _ => False

instance (g : Graph) (c : Configuration) (e : Event) : Decidable (g.Live c e) :=
  match e with
  | .complete a => inferInstanceAs (Decidable (a ∈ c.activated))
  | .strike d => inferInstanceAs (Decidable (d ∈ g.activeDefenses c))
  | .activate _ | .deactivate _ => inferInstanceAs (Decidable False)

/-- A success of a live event leads to a decision. -/
def outcome (g : Graph) (p : Phase × Configuration) (e : Event) : Phase × Configuration :=
  if g.Live p.2 e then (.deciding, e.normalized g p.2) else p

/-- Moves lead to the outcome, after a wait if the attacker decides. -/
theorem Regular.pathBy_outcome {p : Phase × Configuration} (h : g.Regular p.1 p.2)
    (hphase : p.1 = .deciding ∨ p.1 = .waiting) {e : Event} (he : g.Live p.2 e) :
    ReflTransGen (g.NextBy e) p (.deciding, e.normalized g p.2) := by
  obtain ⟨phase, c⟩ := p
  have hpath : ¬ g.Quiet c ∧
      ReflTransGen (g.NextBy e) (.waiting, c) (.deciding, e.normalized g c) := by
    cases e with
    | complete a =>
      exact ⟨not_quiet_of_mem_activated he,
        pathBy_complete h.canonical (h.grounded.activated a he) he⟩
    | strike d => exact ⟨not_quiet_of_mem_activeDefenses he, pathBy_reset h.canonical he⟩
    | activate a => exact he.elim
    | deactivate a => exact he.elim
  obtain ⟨hbusy, hpath⟩ := hpath
  rcases hphase with rfl | rfl
  · exact hpath.head (nextBy_waiting e h.canonical hbusy)
  · exact hpath

/-- Events that change nothing when they are not live, and stay such when others of them succeed. -/
structure Concerted (g : Graph) (P : Configuration → Event → Prop) : Prop where
  idle : ∀ {c e}, P c e → ¬ g.Live c e → e.normalized g c = c
  step : ∀ {c e e'}, P c e → P c e' → P (e.normalized g c) e'

section

variable {P : Configuration → Event → Prop} (hP : g.Concerted P) {es es' : List Event}
  (hes : ∀ e ∈ es, P c e) (phase : Phase)

include hP hes

/-- **Run.**  Concerted events lead where their successes lead, by induction on the list. -/
theorem Concerted.foldl_outcome :
    es.foldl g.outcome (phase, c) = (if ∃ e ∈ es, g.Live c e then .deciding else phase,
      es.foldl (Event.normalized g) c) := by
  induction es generalizing phase c with
  | nil => simp
  | cons e es ih =>
    have he := hes e List.mem_cons_self
    have hes : ∀ e' ∈ es, P c e' := fun e' he' => hes e' (List.mem_cons_of_mem e he')
    rw [List.foldl_cons, List.foldl_cons, outcome]
    by_cases hlive : g.Live c e
    · rw [if_pos hlive, ih fun e' he' => hP.step he (hes e' he'), ite_self,
        if_pos ⟨e, List.mem_cons_self, hlive⟩]
    · rw [if_neg hlive, ih hes, hP.idle he hlive]
      simp [hlive]

/-- Lists of the same events lead to the same, if their successes do. -/
theorem Concerted.foldl_outcome_congr (hmem : ∀ e, e ∈ es ↔ e ∈ es')
    (hsame : es.foldl (Event.normalized g) c = es'.foldl (Event.normalized g) c) :
    es.foldl g.outcome (phase, c) = es'.foldl g.outcome (phase, c) := by
  rw [hP.foldl_outcome hes, hP.foldl_outcome fun e he => hes e ((hmem e).2 he), hsame]
  simp only [hmem]

end

/-! ## Defenses -/

/-- A defense strikes in a configuration that is canonical and grounded. -/
def Striking (g : Graph) (c : Configuration) (e : Event) : Prop :=
  g.Grounded c ∧ g.normalize c = c ∧ ∃ d ∈ g.defenses, e = .strike d

theorem Sound.concerted_striking (hg : g.Sound) : g.Concerted g.Striking where
  idle := by
    rintro c e ⟨h, hc, d, hd, rfl⟩ hlive
    exact h.normalize_applyDefense_eq hg hc (hg.untouched_of_not_mem_activeDefenses hd hlive)
  step := by
    rintro c e e' ⟨h, _, d, _, rfl⟩ ⟨_, _, he'⟩
    exact ⟨h.normalized_strike hg d, hg.normalize_normalize_eq _, he'⟩

theorem Grounded.foldl_outcome_strike (hg : g.Sound) (h : g.Grounded c) (hc : g.normalize c = c)
    {ds ds' : List NodeId} (hdefenses : ∀ d ∈ ds, d ∈ g.defenses) (hds : ∀ d, d ∈ ds ↔ d ∈ ds')
    (phase : Phase) : (ds.map .strike).foldl g.outcome (phase, c) =
      (ds'.map .strike).foldl g.outcome (phase, c) := by
  apply hg.concerted_striking.foldl_outcome_congr
  · intro e he
    obtain ⟨d, hd, rfl⟩ := List.mem_map.1 he
    exact ⟨h, hc, d, hdefenses d hd, rfl⟩
  · intro e
    simp only [List.mem_map, hds]
  · exact h.foldl_strike_congr hg hc hds

/-! ## Attacks -/

/-- In a canonical configuration the completion of what is settled changes nothing. -/
theorem Settled.normalize_complete (hg : g.Sound) (hc : g.normalize c = c)
    (h : g.Settled c.completed a) : g.normalize (c.complete a) = c := by
  rcases h with h | ⟨q, hq, hdone, hcheck⟩
  · have hsame : c.completed.insert a = c.completed := by
      ext x
      simp only [NodeSet.mem_insert, or_iff_right_iff_imp]
      rintro rfl
      exact h
    rw [Configuration.complete, hsame, hc]
  · -- the two configurations differ below a completed checkpoint only
    have hcollapse : g.normalize (c.complete a) = g.normalize c := by
      apply hg.normalize_eq_of_agree hcheck
      · exact g.subset_propagate _ (NodeSet.mem_insert.2 (.inr hdone))
      · exact g.subset_propagate _ hdone
      · intro x hx
        have hne : x ≠ a := by
          rintro rfl
          exact hx hq
        simp [Configuration.complete, hne]
    rw [hcollapse, hc]

/-- Underway or settled. -/
def Begun (g : Graph) (c : Configuration) (a : NodeId) : Prop :=
  a ∈ c.activated ∨ g.Settled c.completed a

/-- What ends an attack in the canonical form settles it. -/
theorem Begun.normalize (hg : g.Sound) (h : g.Begun c a) : g.Begun (g.normalize c) a := by
  rcases h with h | h
  · by_cases hk : g.Kept (g.propagate c.completed) a
    · exact .inr (.inl (mem_normalize_completed.2 hk))
    · by_cases hb : g.Behind (g.propagate c.completed) a
      · exact .inr (.inr (hg.behind_normalize.2 hb))
      · exact .inl (hg.mem_normalize_activated.2 ⟨h, hk, hb⟩)
  · exact .inr (h.normalize hg)

theorem Begun.complete (h : g.Begun c a) (b : NodeId) : g.Begun (c.complete b) a :=
  h.imp_right fun h => h.mono fun _ _ hx => NodeSet.mem_insert.2 (.inr hx)

/-- An attack that has begun is completed in a configuration that is canonical. -/
def Completing (g : Graph) (c : Configuration) (e : Event) : Prop :=
  g.normalize c = c ∧ ∃ a, g.Begun c a ∧ e = .complete a

theorem Sound.concerted_completing (hg : g.Sound) : g.Concerted g.Completing where
  idle := by
    rintro c e ⟨hc, a, ha, rfl⟩ hlive
    exact (ha.resolve_left hlive).normalize_complete hg hc
  step := by
    rintro c e e' ⟨_, b, _, rfl⟩ ⟨_, a, ha, rfl⟩
    exact ⟨hg.normalize_normalize_eq _, a, (ha.complete b).normalize hg, rfl⟩

theorem Sound.foldl_outcome_complete (hg : g.Sound) (hc : g.normalize c = c) {as as' : List NodeId}
    (hunderway : ∀ a ∈ as, a ∈ c.activated) (has : ∀ a, a ∈ as ↔ a ∈ as') (phase : Phase) :
    (as.map .complete).foldl g.outcome (phase, c) =
      (as'.map .complete).foldl g.outcome (phase, c) := by
  apply hg.concerted_completing.foldl_outcome_congr
  · intro e he
    obtain ⟨a, ha, rfl⟩ := List.mem_map.1 he
    exact ⟨hc, a, .inl (hunderway a ha), rfl⟩
  · intro e
    simp only [List.mem_map, has]
  · exact hg.foldl_complete_congr hc has

end Graph

namespace Automaton

open AttackDefense.Graph

variable {m : Automaton} {i j : StateId} {s : State} {e : Event} {es es' : List Event}

/-! ## Events along edges -/

/-- An edge by a move that brings the event. -/
def AdjacentBy (m : Automaton) (e : Event) (i j : StateId) : Prop :=
  ∃ edge ∈ m.edgesOf i, Brings edge.move e ∧ edge.destination = j

theorem Unfolds.exists_adjacentBy (h : m.Unfolds g) (hs : m.state? i = some s)
    {q : Phase × Configuration} (hnext : g.NextBy e (s.phase, s.configuration) q) :
    ∃ j u, m.state? j = some u ∧ (u.phase, u.configuration) = q ∧ m.AdjacentBy e i j := by
  obtain ⟨phase, _⟩ := q
  obtain ⟨move, c, hbrings, hmem, rfl⟩ := hnext
  obtain ⟨j, u, hu, heq, edge, hedge, hmove, hdest⟩ := h.exists_edge hs hmem
  exact ⟨j, u, hu, heq, edge, hedge, hmove.symm ▸ hbrings, hdest⟩

/-- The events come about one after another.  A live event leads to the decision after its success,
by moves that bring it; any other is skipped. -/
inductive Occurs (m : Automaton) : StateId → List Event → StateId → Prop
  | nil (i : StateId) : Occurs m i [] i
  | skip {i k : StateId} {s : State} {e : Event} {es : List Event} : m.state? i = some s →
    ¬ m.graph.Live s.configuration e → Occurs m i es k → Occurs m i (e :: es) k
  | succeed {i j k : StateId} {s u : State} {e : Event} {es : List Event} : m.state? i = some s →
    m.graph.Live s.configuration e → m.state? j = some u →
    (u.phase, u.configuration) = (.deciding, e.normalized m.graph s.configuration) →
    ReflTransGen (m.AdjacentBy e) i j → Occurs m j es k → Occurs m i (e :: es) k

/-- Events lead nowhere but to their outcome. -/
theorem Occurs.target (h : m.Occurs i es j) (hs : m.state? i = some s) :
    ∃ u, m.state? j = some u ∧
      (u.phase, u.configuration) = es.foldl m.graph.outcome (s.phase, s.configuration) := by
  induction h generalizing s with
  | nil i => exact ⟨s, hs, rfl⟩
  | skip hs' hlive _ ih =>
    obtain rfl := Option.some.inj (hs'.symm.trans hs)
    rw [List.foldl_cons, outcome, if_neg hlive]
    exact ih hs
  | succeed hs' hlive hu heq _ _ ih =>
    obtain rfl := Option.some.inj (hs'.symm.trans hs)
    rw [List.foldl_cons, outcome, if_pos hlive, ← heq]
    exact ih hu

theorem Unfolds.exists_occurs (hg : g.Sound) (h : m.Unfolds g) (hs : m.state? i = some s)
    (hphase : s.phase = .deciding ∨ s.phase = .waiting) (es : List Event) :
    ∃ j, m.Occurs i es j := by
  obtain rfl := h.graph
  induction es generalizing i s with
  | nil => exact ⟨i, .nil i⟩
  | cons e es ih =>
    by_cases hlive : m.graph.Live s.configuration e
    · have hregular := (h.states i s hs).2.regular hg
      have hpath := hregular.pathBy_outcome (p := (s.phase, s.configuration)) hphase hlive
      obtain ⟨j, u, hu, heq, hij⟩ := exists_path_of (h.exists_adjacentBy) hs hpath
      obtain ⟨k, hk⟩ := ih hu (.inl (Prod.mk.inj heq).1)
      exact ⟨k, .succeed hs hlive hu heq hij hk⟩
    · obtain ⟨k, hk⟩ := ih hs hphase
      exact ⟨k, .skip hs hlive hk⟩

/-- A phase and a configuration belong to one state. -/
theorem Unfolds.eq_of_configuration (hg : g.Sound) (h : m.Unfolds g) {u : State}
    (hs : m.state? i = some s) (hu : m.state? j = some u)
    (heq : (s.phase, s.configuration) = (u.phase, u.configuration)) : i = j := by
  apply h.indexed.key_inj hs hu
  rw [(h.states i s hs).2.eq_keyOf hg, (h.states j u hu).2.eq_keyOf hg]
  exact keyOf_inj.2 (Prod.ext_iff.1 heq)

/-- Events that have one outcome end in one state. -/
theorem Unfolds.exists_end (hg : g.Sound) (h : m.Unfolds g) (hs : m.state? i = some s)
    (hphase : s.phase = .waiting) (hsame : es.foldl g.outcome (s.phase, s.configuration) =
      es'.foldl g.outcome (s.phase, s.configuration)) :
    ∃ k, ∀ j, (m.Occurs i es j ↔ j = k) ∧ (m.Occurs i es' j ↔ j = k) := by
  obtain rfl := h.graph
  have hone : ∀ {es es' j k}, m.Occurs i es j → m.Occurs i es' k →
      es.foldl m.graph.outcome (s.phase, s.configuration) =
        es'.foldl m.graph.outcome (s.phase, s.configuration) → j = k := by
    intro es es' j k hj hk hsame
    obtain ⟨u, hu, htarget⟩ := hj.target hs
    obtain ⟨v, hv, htarget'⟩ := hk.target hs
    exact h.eq_of_configuration hg hu hv (htarget.trans (hsame.trans htarget'.symm))
  obtain ⟨k, hk⟩ := h.exists_occurs hg hs (.inr hphase) es
  obtain ⟨k', hk'⟩ := h.exists_occurs hg hs (.inr hphase) es'
  obtain rfl := hone hk hk' hsame
  refine ⟨k, fun j => ⟨⟨fun hj => hone hj hk rfl, fun hj => hj ▸ hk⟩,
    ⟨fun hj => hone hj hk' rfl, fun hj => hj ▸ hk'⟩⟩⟩

/-! ## Outcomes commute -/

/-- **Outcomes commute.**  Let `c` be the configuration of a state of an automaton.  Successes of two
defenses lead to the same canonical form in either order, a second success of a defense changes
nothing, and completions of two attacks lead to the same canonical form in either order.  So if the
attacker waits in the state, the defenses that are due end in one state whatever their order is and
however often each is listed, and so do attacks that are underway. -/
theorem outcomes_commute (hg : g.Built) {maxStates : Nat} (h : build g maxStates = .ok m)
    (hs : m.state? i = some s) :
    let c := s.configuration
    let D (d : NodeId) (x : Configuration) := g.normalize (g.applyDefense d x)
    let C (a : NodeId) (x : Configuration) := g.normalize (x.complete a)
    (∀ d₁ d₂, D d₁ (D d₂ c) = D d₂ (D d₁ c)) ∧
    (∀ d, D d (D d c) = D d c) ∧
    (∀ a b, C a (C b c) = C b (C a c)) ∧
    (s.phase = .waiting →
      (∀ ds ds' : List NodeId, (∀ d ∈ ds, d ∈ g.defenses) → (∀ d, d ∈ ds ↔ d ∈ ds') →
        ∃ k, ∀ j, (m.Occurs i (ds.map .strike) j ↔ j = k) ∧
          (m.Occurs i (ds'.map .strike) j ↔ j = k)) ∧
      ∀ as as' : List NodeId, (∀ a ∈ as, a ∈ c.activated) → (∀ a, a ∈ as ↔ a ∈ as') →
        ∃ k, ∀ j, (m.Occurs i (as.map .complete) j ↔ j = k) ∧
          (m.Occurs i (as'.map .complete) j ↔ j = k)) := by
  intro c D C
  have hg := hg.sound
  have hm := unfolds_of_build hg h
  have hgrounded : g.Grounded c := hm.grounded hg hs
  have hc : g.normalize c = c := (hm.states i s hs).1.canonical
  refine ⟨fun d₁ d₂ => ?_, fun d => ?_, fun a b => ?_, fun hphase => ⟨?_, ?_⟩⟩
  · have hswap : ∀ x, x ∈ [d₂, d₁] ↔ x ∈ [d₁, d₂] := by simp [or_comm]
    exact hgrounded.foldl_strike_congr hg hc hswap
  · have htwice : ∀ x, x ∈ [d, d] ↔ x ∈ [d] := by simp
    exact hgrounded.foldl_strike_congr hg hc htwice
  · have hswap : ∀ x, x ∈ [b, a] ↔ x ∈ [a, b] := by simp [or_comm]
    exact hg.foldl_complete_congr hc hswap
  · intro ds ds' hdefenses hds
    exact hm.exists_end hg hs hphase (hgrounded.foldl_outcome_strike hg hc hdefenses hds _)
  · intro as as' hunderway has
    exact hm.exists_end hg hs hphase (hg.foldl_outcome_complete hc hunderway has _)

/-- While the bribe and the theft of the office are underway, both may be done in either order, and
so may the alarm and the patrol go off. -/
theorem outcomes_commute_office : ∃ m i s, build office 15 = .ok m ∧ m.state? i = some s ∧
    (s.phase, s.configuration) = (.waiting, ⟨.ofList [2, 3], .empty⟩) ∧
    office.activeDefenses s.configuration = [0, 1] ∧
    (∃ k, m.Occurs i [.complete 2, .complete 3] k ∧ m.Occurs i [.complete 3, .complete 2] k) ∧
    ∃ k, m.Occurs i [.strike 0, .strike 1] k ∧ m.Occurs i [.strike 1, .strike 0] k := by
  obtain ⟨m, hm⟩ := exists_build_office
  have hunfolds := unfolds_of_build built_office.sound hm
  obtain ⟨s₀, hs₀, hkey⟩ := hunfolds.initial
  have hbribe : office.Next (.deciding, .empty) (.deciding, ⟨.ofList [2], .empty⟩) :=
    ⟨.start 2, ⟨.ofList [2], .empty⟩, by decide +kernel, by decide +kernel⟩
  have hsteal : office.Next (.deciding, ⟨.ofList [2], .empty⟩)
      (.deciding, ⟨.ofList [2, 3], .empty⟩) :=
    ⟨.start 3, ⟨.ofList [2, 3], .empty⟩, by decide +kernel, by decide +kernel⟩
  have hwait : office.Next (.deciding, ⟨.ofList [2, 3], .empty⟩)
      (.waiting, ⟨.ofList [2, 3], .empty⟩) :=
    ⟨.wait, ⟨.ofList [2, 3], .empty⟩, by decide +kernel, by decide +kernel⟩
  have hinitial : (s₀.phase, s₀.configuration) = (.deciding, .empty) := by
    rw [State.phase, State.configuration, hkey]
    rfl
  have hpath := hinitial.symm ▸ ((ReflTransGen.single hbribe).tail hsteal).tail hwait
  obtain ⟨i, s, hs, hstate, _⟩ := hunfolds.exists_path hs₀ hpath
  obtain ⟨hphase, hconfiguration⟩ := Prod.mk.inj hstate
  obtain ⟨_, _, _, hends⟩ := outcomes_commute built_office hm hs
  obtain ⟨hstrikes, hcompletes⟩ := hends hphase
  obtain ⟨k, hk⟩ := hcompletes [2, 3] [3, 2] (by rw [hconfiguration]; decide) (by simp [or_comm])
  obtain ⟨k', hk'⟩ := hstrikes [0, 1] [1, 0] (by decide) (by simp [or_comm])
  refine ⟨m, i, s, hm, hs, hstate, ?_, ⟨k, (hk k).1.2 rfl, (hk k).2.2 rfl⟩,
    ⟨k', (hk' k').1.2 rfl, (hk' k').2.2 rfl⟩⟩
  rw [hconfiguration]
  decide +kernel

end Automaton

end AttackDefense
