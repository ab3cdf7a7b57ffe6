import AttackDefense.Model.Query
import AttackDefense.Proofs.Automaton.Reachable
import AttackDefense.Proofs.Graph.Pending
import Mathlib.Logic.Relation

/-!
# The goal can always still be reached

`g.Next (phase, c) (phase', c')` says that a move leads from one phase and canonical configuration to
another.  Such moves lead from everything that is regular to a configuration with the root completed:

    g.Regular phase c → ∃ c', ReflTransGen g.Next (phase, c) (.deciding, c') ∧ g.root ∈ c'.completed
                                                                    (Regular.exists_path_root)

`g.NextBy e` are the moves that bring the event `e`, which is that an attack is completed or a
defense strikes.  Every phase leads back to a decision (`Regular.exists_deciding`), and from a
decision a pending attack can be started, waited for and completed, which leaves fewer pending
(`Sound.path_complete_pending`).  The edges of an automaton follow the moves (`Unfolds.exists_path`),
so the same holds of its states.  The builder notes the first accepting state (`accepting_of_build`),
and with an accepting state a model has a goal and queries (`goal_stays_reachable`).
-/

namespace AttackDefense

variable {g : Graph} {c : Configuration} {a : NodeId}

namespace Graph

open Decimal Relation

/-! ## Paths of moves -/

/-- Some move leads from a phase and a configuration to a phase and a canonical configuration. -/
def Next (g : Graph) (p q : Phase × Configuration) : Prop :=
  ∃ m c, (m, some (q.1, c)) ∈ g.moves p.1 p.2 ∧ g.normalize c = q.2

/-- The moves by which an attack is completed or a defense strikes, with the wait before it. -/
inductive Brings : Move → Event → Prop
  | wait (e : Event) : Brings .wait e
  | finish (a : NodeId) : Brings (.finish a) (.complete a)
  | succeed (a : NodeId) (p : Binary64) : Brings (.attackOutcome a true p) (.complete a)
  | strike (d : NodeId) : Brings (.strike d) (.strike d)
  | defended (d : NodeId) (p : Binary64) : Brings (.defenseOutcome d true p) (.strike d)

/-- A move that brings the event leads from one to the other. -/
def NextBy (g : Graph) (e : Event) (p q : Phase × Configuration) : Prop :=
  ∃ m c, Brings m e ∧ (m, some (q.1, c)) ∈ g.moves p.1 p.2 ∧ g.normalize c = q.2

theorem NextBy.next {e : Event} {p q : Phase × Configuration} (h : g.NextBy e p q) :
    g.Next p q := by
  obtain ⟨m, c, _, h⟩ := h
  exact ⟨m, c, h⟩

/-- While anything can happen the attacker may wait. -/
theorem nextBy_waiting (e : Event) (hc : g.normalize c = c) (hbusy : ¬ g.Quiet c) :
    g.NextBy e (.deciding, c) (.waiting, c) := by
  refine ⟨.wait, c, .wait e, List.mem_append_right _ ?_, hc⟩
  have hbusy : ¬ (c.activated.isEmpty ∧ g.activeDefenses c = []) := hbusy
  rw [if_neg hbusy]
  exact List.mem_singleton.2 rfl

theorem not_quiet_of_mem_activated (ha : a ∈ c.activated) : ¬ g.Quiet c := by
  intro hquiet
  rw [NodeSet.isEmpty_iff.1 hquiet.1] at ha
  exact absurd ha (by simp)

theorem not_quiet_of_mem_activeDefenses {d : NodeId} (hd : d ∈ g.activeDefenses c) :
    ¬ g.Quiet c := by
  intro hquiet
  rw [hquiet.2] at hd
  cases hd

theorem next_paid : g.Next (.paying a, c) (.deciding, g.normalize (c.activate a)) :=
  ⟨.start a, c.activate a, List.mem_singleton.2 rfl, rfl⟩

theorem nextBy_attempted :
    g.NextBy (.complete a) (.attempting a, c) (.deciding, g.normalize (c.complete a)) :=
  ⟨_, c.complete a, .succeed a _, List.mem_cons_self, rfl⟩

theorem nextBy_reset {d : NodeId} :
    g.NextBy (.strike d) (.resetting d, c) (.deciding, g.normalize (g.applyDefense d c)) :=
  ⟨_, g.applyDefense d c, .defended d _, List.mem_cons_self, rfl⟩

/-- An available attack is started, maybe after paying for it. -/
theorem path_activate (hc : g.normalize c = c) (ha : a ∈ g.availableAttacks c) :
    ReflTransGen g.Next (.deciding, c) (.deciding, g.normalize (c.activate a)) := by
  have hmem : g.startMove c a ∈ g.moves .deciding c :=
    List.mem_append_left _ (List.mem_map_of_mem ha)
  unfold startMove at hmem
  split at hmem
  · have hpay : g.Next (.deciding, c) (.paying a, c) := ⟨.pay a, c, hmem, hc⟩
    exact .tail (.single hpay) next_paid
  · exact .single ⟨.start a, c.activate a, hmem, rfl⟩

/-- An attack that is underway finishes, maybe after an attempt. -/
theorem pathBy_complete (hc : g.normalize c = c) (hattack : a ∈ g.attacks) (ha : a ∈ c.activated) :
    ReflTransGen (g.NextBy (.complete a)) (.waiting, c) (.deciding, g.normalize (c.complete a)) := by
  have hmem : g.finishMove c a ∈ g.moves .waiting c :=
    List.mem_append_left _ (List.mem_map_of_mem (List.mem_filter.2 ⟨hattack, decide_eq_true ha⟩))
  unfold finishMove at hmem
  split at hmem
  · have hattempt : g.NextBy (.complete a) (.waiting, c) (.attempting a, c) :=
      ⟨.finish a, c, .finish a, hmem, hc⟩
    exact .tail (.single hattempt) nextBy_attempted
  · exact .single ⟨.finish a, c.complete a, .finish a, hmem, rfl⟩

/-- A defense in scope resets, maybe after an attempt. -/
theorem pathBy_reset (hc : g.normalize c = c) {d : NodeId} (hd : d ∈ g.activeDefenses c) :
    ReflTransGen (g.NextBy (.strike d)) (.waiting, c)
      (.deciding, g.normalize (g.applyDefense d c)) := by
  have hdefense : d ∈ g.defenses := (List.mem_filter.1 hd).1
  have hmem : g.strikeMove c d ∈ g.moves .waiting c :=
    List.mem_append_right _ (List.mem_map_of_mem hdefense)
  unfold strikeMove at hmem
  rw [if_pos hd] at hmem
  split at hmem
  · have hstrike : g.NextBy (.strike d) (.waiting, c) (.resetting d, c) :=
      ⟨.strike d, c, .strike d, hmem, hc⟩
    exact .tail (.single hstrike) nextBy_reset
  · exact .single ⟨.strike d, g.applyDefense d c, .strike d, hmem, rfl⟩

theorem path_complete (hc : g.normalize c = c) (hattack : a ∈ g.attacks) (ha : a ∈ c.activated) :
    ReflTransGen g.Next (.waiting, c) (.deciding, g.normalize (c.complete a)) :=
  ReflTransGen.mono (fun _ _ => NextBy.next) _ _ (pathBy_complete hc hattack ha)

theorem path_reset (hc : g.normalize c = c) {d : NodeId} (hd : d ∈ g.activeDefenses c) :
    ReflTransGen g.Next (.waiting, c) (.deciding, g.normalize (g.applyDefense d c)) :=
  ReflTransGen.mono (fun _ _ => NextBy.next) _ _ (pathBy_reset hc hd)

/-! ## To a decision -/

/-- Every phase leads back to a decision. -/
theorem Regular.exists_deciding (hg : g.Sound) {phase : Phase} (h : g.Regular phase c) :
    ∃ c', ReflTransGen g.Next (phase, c) (.deciding, c') ∧ g.normalize c' = c' := by
  have hcanonical := hg.normalize_normalize_eq
  cases phase with
  | deciding => exact ⟨c, .refl, h.canonical⟩
  | paying a => exact ⟨_, .single next_paid, hcanonical _⟩
  | waiting =>
    by_cases hunderway : ∃ a, a ∈ c.activated
    · obtain ⟨a, ha⟩ := hunderway
      exact ⟨_, path_complete h.canonical (h.grounded.activated a ha) ha, hcanonical _⟩
    · have hidle : c.activated.isEmpty :=
        NodeSet.isEmpty_iff.2 (NodeSet.ext fun a => by simpa using fun ha => hunderway ⟨a, ha⟩)
      have hscope : g.activeDefenses c ≠ [] := fun hnil => h.busy rfl ⟨hidle, hnil⟩
      obtain ⟨d, hd⟩ := List.exists_mem_of_ne_nil _ hscope
      exact ⟨_, path_reset h.canonical hd, hcanonical _⟩
  | attempting a => exact ⟨_, .single nextBy_attempted.next, hcanonical _⟩
  | resetting d => exact ⟨_, .single nextBy_reset.next, hcanonical _⟩

/-! ## To the goal -/

/-- A pending attack is started if it is not underway, and completed. -/
theorem Sound.path_complete_pending (hg : g.Sound) (hc : g.normalize c = c)
    (ha : a ∈ g.pending c.completed) : ∃ c', ReflTransGen g.Next (.deciding, c) (.deciding, c') ∧
      g.normalize c' = c' ∧
      (g.pending c'.completed).length < (g.pending c.completed).length := by
  obtain ⟨hattack, hnot, hb⟩ := mem_pending.1 ha
  obtain ⟨c₁, hpath, hc₁, hcompleted, hunderway⟩ : ∃ c₁,
      ReflTransGen g.Next (.deciding, c) (.deciding, c₁) ∧ g.normalize c₁ = c₁ ∧
        c₁.completed = c.completed ∧ a ∈ c₁.activated := by
    by_cases hunderway : a ∈ c.activated
    · exact ⟨c, .refl, hc, rfl, hunderway⟩
    · have havailable : a ∈ g.availableAttacks c :=
        List.mem_filter.2 ⟨hattack, isAvailable_iff.2 ⟨hunderway, hnot, hb⟩⟩
      exact ⟨_, path_activate hc havailable, hg.normalize_normalize_eq _,
        completed_normalize_activate hc, hg.mem_activated_activate hc ha⟩
  have hwait := nextBy_waiting (.complete a) hc₁ (not_quiet_of_mem_activated hunderway)
  have hfinish := (path_complete hc₁ hattack hunderway).head hwait.next
  refine ⟨_, hpath.trans hfinish, hg.normalize_normalize_eq _, ?_⟩
  rw [← hcompleted] at ha ⊢
  exact hg.length_pending_complete_lt ha

/-- From every decision moves lead on to the goal, by induction on what is pending. -/
theorem Sound.exists_path_root (hg : g.Sound) (hc : g.normalize c = c) :
    ∃ c', ReflTransGen g.Next (.deciding, c) (.deciding, c') ∧ g.root ∈ c'.completed := by
  induction hn : (g.pending c.completed).length using Nat.strongRecOn generalizing c with
  | _ n ih =>
    by_cases hroot : g.root ∈ c.completed
    · exact ⟨c, .refl, hroot⟩
    · obtain ⟨a, ha⟩ := hg.exists_pending hc hroot
      obtain ⟨c₁, hpath, hc₁, hless⟩ := hg.path_complete_pending hc ha
      obtain ⟨c', hrest, hroot⟩ := ih _ (hn ▸ hless) hc₁ rfl
      exact ⟨c', hpath.trans hrest, hroot⟩

theorem Regular.exists_path_root (hg : g.Sound) {phase : Phase} (h : g.Regular phase c) :
    ∃ c', ReflTransGen g.Next (phase, c) (.deciding, c') ∧ g.root ∈ c'.completed := by
  obtain ⟨c₁, hpath, hc₁⟩ := h.exists_deciding hg
  obtain ⟨c', hrest, hroot⟩ := hg.exists_path_root hc₁
  exact ⟨c', hpath.trans hrest, hroot⟩

end Graph

namespace Automaton

open AttackDefense.Graph Relation

variable {m : Automaton} {maxStates : Nat}

/-! ## Paths of edges -/

/-- Some edge of the first state leads to the other. -/
def Adjacent (m : Automaton) (i j : StateId) : Prop := ∃ e ∈ m.edgesOf i, e.destination = j

/-- The automaton has an edge for every move. -/
theorem Unfolds.exists_edge (h : m.Unfolds g) {i : StateId} {s : State} (hs : m.state? i = some s)
    {move : Move} {phase : Phase} {c : Configuration}
    (hmem : (move, some (phase, c)) ∈ g.moves s.phase s.configuration) :
    ∃ j u, m.state? j = some u ∧ (u.phase, u.configuration) = (phase, g.normalize c) ∧
      ∃ e ∈ m.edgesOf i, e.move = move ∧ e.destination = j := by
  obtain ⟨e, he, _, hmove, hdest⟩ := exists_of_mem_right (h.rows i s hs) hmem
  obtain ⟨v, hv, hkey⟩ := (h.indexed _ _).1 hdest
  refine ⟨_, v, hv, ?_, e, he, hmove, rfl⟩
  rw [State.phase, State.configuration, hkey, configuration_keyOf]
  rfl

theorem Unfolds.exists_adjacent (h : m.Unfolds g) {i : StateId} {s : State}
    (hs : m.state? i = some s) {q : Phase × Configuration}
    (hnext : g.Next (s.phase, s.configuration) q) :
    ∃ j u, m.state? j = some u ∧ (u.phase, u.configuration) = q ∧ m.Adjacent i j := by
  obtain ⟨phase, _⟩ := q
  obtain ⟨move, c, hmem, rfl⟩ := hnext
  obtain ⟨j, u, hu, heq, e, he, _, hdest⟩ := h.exists_edge hs hmem
  exact ⟨j, u, hu, heq, e, he, hdest⟩

/-- Where edges follow moves, paths of edges follow paths of moves. -/
theorem exists_path_of {next : Phase × Configuration → Phase × Configuration → Prop}
    {adjacent : StateId → StateId → Prop}
    (hstep : ∀ {i s}, m.state? i = some s → ∀ {q}, next (s.phase, s.configuration) q →
      ∃ j u, m.state? j = some u ∧ (u.phase, u.configuration) = q ∧ adjacent i j)
    {i : StateId} {s : State} (hs : m.state? i = some s) {q : Phase × Configuration}
    (hpath : ReflTransGen next (s.phase, s.configuration) q) :
    ∃ j u, m.state? j = some u ∧ (u.phase, u.configuration) = q ∧ ReflTransGen adjacent i j := by
  induction hpath with
  | refl => exact ⟨i, s, hs, rfl, .refl⟩
  | tail _ hnext ih =>
    obtain ⟨j, u, hu, rfl, hij⟩ := ih
    obtain ⟨k, v, hv, heq, hjk⟩ := hstep hu hnext
    exact ⟨k, v, hv, heq, hij.tail hjk⟩

theorem Unfolds.exists_path (h : m.Unfolds g) {i : StateId} {s : State} (hs : m.state? i = some s)
    {q : Phase × Configuration} (hpath : ReflTransGen g.Next (s.phase, s.configuration) q) :
    ∃ j u, m.state? j = some u ∧ (u.phase, u.configuration) = q ∧ ReflTransGen m.Adjacent i j :=
  exists_path_of h.exists_adjacent hs hpath

theorem Unfolds.exists_accepting (hg : g.Sound) (h : m.Unfolds g) {i : StateId} {s : State}
    (hs : m.state? i = some s) :
    ∃ j u, m.state? j = some u ∧ u.accepting ∧ ReflTransGen m.Adjacent i j := by
  obtain ⟨c, hpath, hroot⟩ := ((h.states i s hs).2.regular hg).exists_path_root hg
  obtain ⟨j, u, hu, heq, hij⟩ := h.exists_path hs hpath
  obtain ⟨hphase, rfl⟩ := Prod.mk.inj heq
  refine ⟨j, u, hu, ?_, hij⟩
  rw [congrArg State.accepting (h.states j u hu).1.eq_stateOf, hphase]
  simpa [stateOf] using isAccepting_iff.2 hroot

/-- A path to an accepting state begins with an edge, unless it is there already. -/
theorem Unfolds.edgesOf_ne_nil (hg : g.Sound) (h : m.Unfolds g) {i : StateId} {s : State}
    (hs : m.state? i = some s) (hnot : ¬ s.accepting) : m.edgesOf i ≠ [] := by
  intro hnil
  obtain ⟨j, u, hu, haccepting, hij⟩ := h.exists_accepting hg hs
  rcases hij.cases_head with rfl | ⟨_, ⟨e, he, _⟩, _⟩
  · obtain rfl := Option.some.inj (hs.symm.trans hu)
    exact hnot haccepting
  · rw [hnil] at he
    cases he

/-! ## The accepting state that is noted -/

namespace Draft

variable {limit : Nat} {d d' : Draft limit}

/-- The draft notes the first accepting state of its table. -/
def Noted (d : Draft limit) : Prop := d.accepting = d.table.states.findIdx? State.accepting

theorem noted_empty : (empty : Draft limit).Noted := Array.findIdx?_empty.symm

theorem Noted.intern (hd : d.Noted) {s : State} {id : StateId}
    (h : d.intern g s = .ok (d', id)) : d'.Noted := by
  obtain ⟨t, isNew, _, ht, rfl⟩ := intern_eq_ok.1 h
  unfold Noted at hd ⊢
  rcases StateTable.intern_eq_ok.1 ht with ⟨_, rfl, rfl, rfl⟩ | ⟨_, _, rfl, rfl⟩
  · show _ = (d.table.states.push s).findIdx? State.accepting
    rw [Array.findIdx?_push, ← hd]
    cases d.accepting with
    | none => simp [StateTable.size]
    | some first => simp
  · simpa using hd

theorem Noted.mark (hd : d.Noted) (h : d.mark = .ok d') : d'.Noted := by
  unfold Draft.mark at h
  split at h
  · cases h
    exact hd
  · cases h

theorem Noted.addEdges (hd : d.Noted) {source : StateId} {ts : List (Target × Move)}
    (h : d.addEdges g source ts = .ok d') : d'.Noted := by
  induction ts generalizing d with
  | nil =>
    cases h
    exact hd
  | cons t ts ih =>
    obtain ⟨target, move⟩ := t
    cases target with
    | itself => exact ih (d := d.addEdge ⟨source, source, move⟩) hd h
    | state s =>
      obtain ⟨⟨d₁, id⟩, hintern, h⟩ := bind_eq_ok.1 h
      have hd₁ : d₁.Noted := hd.intern hintern
      exact ih (d := d₁.addEdge ⟨source, id, move⟩) hd₁ h

theorem Noted.expand (hd : d.Noted) {next : StateId} (h : d.expand g next = .ok d') :
    d'.Noted := by
  fun_induction Draft.expand g d next with
  | case1 d next _ ih =>
    obtain ⟨ts, _, h⟩ := bind_eq_ok.1 h
    obtain ⟨d₁, hmark, h⟩ := bind_eq_ok.1 h
    obtain ⟨d₂, hadd, h⟩ := bind_eq_ok.1 h
    exact ih d₂ ((hd.mark hmark).addEdges hadd) h
  | case2 d next _ => exact hd.mark h

end Draft

/-- An automaton knows the first of its accepting states. -/
theorem accepting_of_build (h : build g maxStates = .ok m) :
    m.accepting = m.table.states.findIdx? State.accepting := by
  obtain ⟨initial, _, h⟩ := bind_eq_ok.1 h
  obtain ⟨⟨d, id⟩, hintern, h⟩ := bind_eq_ok.1 h
  obtain ⟨d', hexpand, h⟩ := bind_eq_ok.1 h
  obtain rfl := Except.ok.inj h
  exact (Draft.noted_empty.intern hintern).expand hexpand

theorem exists_accepting_of_build (h : build g maxStates = .ok m) {i : StateId} {s : State}
    (hs : m.state? i = some s) (haccepting : s.accepting) :
    ∃ j u, m.accepting = some j ∧ m.state? j = some u ∧ u.accepting := by
  rw [accepting_of_build h]
  cases hfirst : m.table.states.findIdx? State.accepting with
  | none =>
    have hnone := Array.findIdx?_eq_none_iff.1 hfirst s (Array.mem_of_getElem? hs)
    rw [haccepting] at hnone
    cases hnone
  | some j =>
    obtain ⟨hlt, hj, _⟩ := Array.findIdx?_eq_some_iff_getElem.1 hfirst
    exact ⟨j, _, rfl, Array.getElem?_eq_getElem hlt, hj⟩

end Automaton

/-! ## Queries -/

namespace Model

variable {m : Model}

theorem goal_ne_none {i : StateId} {s : State} (hs : m.automaton.state? i = some s)
    (haccepting : s.accepting) : m.goal ≠ none := by
  have hlt : i < m.automaton.size := StateTable.lt_size_of_get? hs
  have hmem : i ∈ m.automaton.acceptingStates :=
    List.mem_filter.2 ⟨List.mem_range.2 hlt, by rw [hs]; exact haccepting⟩
  have hname : templateName ++ "." ++ locationName i s ∈
      m.automaton.acceptingStates.filterMap fun id =>
        (m.locationName? id).map fun name => templateName ++ "." ++ name :=
    List.mem_filterMap.2 ⟨i, hmem, by rw [locationName?, hs]; rfl⟩
  unfold goal
  dsimp only
  split
  · next hnil =>
    rw [hnil] at hname
    cases hname
  · exact Option.some_ne_none _
  · exact Option.some_ne_none _

/-- Whatever limits are set, there is a strategy to ask for. -/
theorem objectives_ne_nil (s : QuerySettings) : objectives s ≠ [] := by
  unfold objectives
  cases s.timeLimit <;> cases s.costLimit <;> simp

theorem queries_ne_nil (h : m.goal ≠ none) : m.queries ≠ [] := by
  obtain ⟨goal, hgoal⟩ := Option.ne_none_iff_exists'.1 h
  obtain ⟨o, ho⟩ := List.exists_mem_of_ne_nil _ (objectives_ne_nil m.settings)
  unfold queries
  rw [hgoal]
  exact List.ne_nil_of_mem (List.mem_flatMap.2 ⟨o, ho, List.mem_cons_self⟩)

end Model

namespace Automaton

open AttackDefense.Graph Relation

variable {m : Automaton}

/-- **The goal stays reachable.**  From every state of an automaton a path of edges leads to an
accepting state.  So the automaton knows an accepting state, every state that is not accepting has
an edge, and every model of the automaton has a goal and queries. -/
theorem goal_stays_reachable (hg : g.Built) {maxStates : Nat} (h : build g maxStates = .ok m) :
    (∀ i s, m.state? i = some s →
      ∃ j u, m.state? j = some u ∧ u.accepting ∧ ReflTransGen m.Adjacent i j) ∧
    (∃ j u, m.accepting = some j ∧ m.state? j = some u ∧ u.accepting) ∧
    (∀ i s, m.state? i = some s → ¬ s.accepting → m.edgesOf i ≠ []) ∧
    (∀ model : Model, model.automaton = m → model.goal ≠ none ∧ model.queries ≠ []) := by
  have hg := hg.sound
  have hm := unfolds_of_build hg h
  obtain ⟨_, hinitial, _⟩ := hm.initial
  obtain ⟨_, _, hu, haccepting, _⟩ := hm.exists_accepting hg hinitial
  refine ⟨fun _ _ => hm.exists_accepting hg, exists_accepting_of_build h hu haccepting,
    fun _ _ => hm.edgesOf_ne_nil hg, ?_⟩
  rintro model rfl
  have hgoal := Model.goal_ne_none hu haccepting
  exact ⟨hgoal, Model.queries_ne_nil hgoal⟩

/-- While the alarm of the small graph may go off, the goal can still be reached. -/
theorem goal_stays_reachable_vault : ∃ m i s, build vault 7 = .ok m ∧ m.state? i = some s ∧
    s.key = ⟨.resetting 0, [1], []⟩ ∧
    (∃ j u, m.state? j = some u ∧ u.accepting ∧ ReflTransGen m.Adjacent i j) ∧
    (Model.ofAutomaton m .standard).queries ≠ [] := by
  obtain ⟨m, hm⟩ := exists_build_vault
  obtain ⟨i, s, hs, hkey⟩ := (unfolds_of_build built_vault.sound hm).exists_state_iff.2
    (reachableKey_of_mem_vaultKeys ⟨.resetting 0, [1], []⟩ (by decide))
  obtain ⟨hpath, _, _, hqueries⟩ := goal_stays_reachable built_vault hm
  exact ⟨m, i, s, hm, hs, hkey, hpath i s hs, (hqueries _ rfl).2⟩

end Automaton

end AttackDefense
