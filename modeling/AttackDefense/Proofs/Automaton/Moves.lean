import AttackDefense.Automaton.Successors
import AttackDefense.Proofs.Decimal.Probability
import AttackDefense.Proofs.Except
import AttackDefense.Proofs.Graph.Canonical

/-!
# The table of moves

`moves` is the table of moves without the making of states: the moves that leave a phase and a
configuration, in order, each with the phase and the configuration that it leads to before anything
is normalized, or `none` for a move back to where it came from.  The successors of a state are the
entries of the table, each with the state made of it:

    g.makeState phase c = .ok s ↔
      g.Admits phase (g.normalize c) ∧ s = g.stateOf phase (g.normalize c)    (makeState_eq_ok)
    g.successors s = .ok ts ↔
      List.Forall₂ g.Made ts (g.moves s.phase s.configuration)                (successors_eq_ok)
-/

namespace AttackDefense

open AttackDefense.Tree Decimal

variable {g : Graph}

namespace Graph

/-! ## Making states -/

/-- The configuration still has the node that the phase is about. -/
def Admits (g : Graph) (phase : Phase) (c : Configuration) : Prop :=
  match phase with
  | .attempting a => a ∈ c.activated
  | .paying a => g.isAvailable c a
  | .resetting d => d ∈ g.activeDefenses c
  | .deciding | .waiting => True

/-- The state of a phase and a canonical configuration. -/
def stateOf (g : Graph) (phase : Phase) (c : Configuration) : State where
  key := g.keyOf phase c
  accepting := phase == .deciding && g.isAccepting c
  initial := phase == .deciding && c.isEmpty
  activeDefenses := g.activeDefenses c

theorem mem_sortedByName {l : List NodeId} {x : NodeId} : x ∈ g.sortedByName l ↔ x ∈ l :=
  List.mem_mergeSort

theorem ofList_sortedByName (s : NodeSet) : NodeSet.ofList (g.sortedByName s.toList) = s := by
  ext x
  rw [NodeSet.mem_ofList, mem_sortedByName, NodeSet.mem_def]

/-- The key of a configuration is about this configuration. -/
theorem configuration_keyOf (phase : Phase) (c : Configuration) :
    (g.keyOf phase c).configuration = c := by
  unfold StateKey.configuration keyOf
  rw [ofList_sortedByName, ofList_sortedByName]

theorem keyOf_inj {phase phase' : Phase} {c c' : Configuration} :
    g.keyOf phase c = g.keyOf phase' c' ↔ phase = phase' ∧ c = c' := by
  constructor
  · intro h
    have hc := congrArg StateKey.configuration h
    rw [configuration_keyOf, configuration_keyOf] at hc
    exact ⟨congrArg StateKey.phase h, hc⟩
  · rintro ⟨rfl, rfl⟩
    rfl

theorem configuration_stateOf (phase : Phase) (c : Configuration) :
    (g.stateOf phase c).configuration = c :=
  configuration_keyOf phase c

theorem reducedAway?_eq_none {phase : Phase} {c : Configuration} :
    g.reducedAway? phase c (g.activeDefenses c) = none ↔ g.Admits phase c := by
  cases phase <;> simp [reducedAway?, Admits]

theorem makeState_eq_ok (hg : g.Sound) {phase : Phase} {c : Configuration} {s : State} :
    g.makeState phase c = .ok s ↔
      g.Admits phase (g.normalize c) ∧ s = g.stateOf phase (g.normalize c) := by
  have hdisjoint : (g.normalize c).activated.toList.find? (· ∈ (g.normalize c).completed) = none := by
    rw [List.find?_eq_none]
    intro a ha
    simpa using hg.not_mem_completed ha
  unfold makeState
  dsimp only
  rw [← reducedAway?_eq_none]
  cases g.reducedAway? phase (g.normalize c) (g.activeDefenses (g.normalize c)) with
  | some node => simp
  | none =>
    dsimp only
    rw [hdisjoint]
    simp [stateOf, eq_comm]

/-! ## The table -/

/-- The probability that an attack or a defense succeeds. -/
def successOf (g : Graph) (id : NodeId) : Binary64 :=
  match g.tree.node? id with
  | some (.attack a) => a.successProbability
  | some (.defense d) => d.successProbability
  | _ => .one

/-- An available attack is paid for first, if it costs anything to start it. -/
def startMove (g : Graph) (c : Configuration) (a : NodeId) :
    Move × Option (Phase × Configuration) :=
  if (g.tree.attack? a).any Attack.hasActivationCost then (.pay a, some (.paying a, c))
  else (.start a, some (.deciding, c.activate a))

/-- An attack that cannot fail is completed at once. -/
def finishMove (g : Graph) (c : Configuration) (a : NodeId) :
    Move × Option (Phase × Configuration) :=
  (.finish a, some
    (if (g.successOf a).BelowOne then (.attempting a, c) else (.deciding, c.complete a)))

/-- A defense that is not in scope leads back, and one that cannot fail resets at once. -/
def strikeMove (g : Graph) (c : Configuration) (d : NodeId) :
    Move × Option (Phase × Configuration) :=
  if d ∈ g.activeDefenses c then
    (.strike d, some
      (if (g.successOf d).BelowOne then (.resetting d, c) else (.deciding, g.applyDefense d c)))
  else (.idle d, none)

/-- The moves that leave a phase and a configuration, each with where it leads. -/
def moves (g : Graph) (phase : Phase) (c : Configuration) :
    List (Move × Option (Phase × Configuration)) :=
  match phase with
  | .deciding => (g.availableAttacks c).map (g.startMove c) ++
      if c.activated.isEmpty ∧ g.activeDefenses c = [] then [] else [(.wait, some (.waiting, c))]
  | .paying a => [(.start a, some (.deciding, c.activate a))]
  | .waiting => (g.attacks.filter (· ∈ c.activated)).map (g.finishMove c) ++
      g.defenses.map (g.strikeMove c)
  | .attempting a => [
      (.attackOutcome a true (g.successOf a), some (.deciding, c.complete a)),
      (.attackOutcome a false (g.successOf a).complement, some (.deciding, c.deactivate a))]
  | .resetting d => [
      (.defenseOutcome d true (g.successOf d), some (.deciding, g.applyDefense d c)),
      (.defenseOutcome d false (g.successOf d).complement, some (.deciding, c))]

/-- Time passes until an attack finishes or a defense acts. -/
theorem mem_moves_waiting {c : Configuration} {e : Move × Option (Phase × Configuration)} :
    e ∈ g.moves .waiting c ↔
      (∃ a ∈ g.attacks, a ∈ c.activated ∧ g.finishMove c a = e) ∨
      ∃ d ∈ g.defenses, g.strikeMove c d = e := by
  simp [moves, and_assoc]

/-- A defense that acts attempts a reset, which is a branch point if it can fail. -/
theorem strikeMove_eq_some {c c' : Configuration} {m : Move} {phase : Phase} {d : NodeId}
    (h : g.strikeMove c d = (m, some (phase, c'))) :
    (phase = .resetting d ∧ (g.successOf d).BelowOne ∧ c' = c) ∨
      (phase = .deciding ∧ ¬ (g.successOf d).BelowOne ∧ c' = g.applyDefense d c) := by
  unfold strikeMove at h
  split at h
  · split at h <;> cases h
    · exact .inl ⟨rfl, ‹_›, rfl⟩
    · exact .inr ⟨rfl, ‹_›, rfl⟩
  · cases h

/-- One move leads from a phase and a configuration to a phase and a configuration that is still to
be normalized. -/
inductive Step (g : Graph) : Phase → Configuration → Phase → Configuration → Prop
  | pay {c : Configuration} {a : NodeId} : a ∈ g.availableAttacks c →
    Step g .deciding c (.paying a) c
  | start {c : Configuration} {a : NodeId} : a ∈ g.availableAttacks c →
    Step g .deciding c .deciding (c.activate a)
  | wait (c : Configuration) : Step g .deciding c .waiting c
  | paid (c : Configuration) (a : NodeId) : Step g (.paying a) c .deciding (c.activate a)
  | attempt {c : Configuration} {a : NodeId} : a ∈ g.attacks → a ∈ c.activated →
    Step g .waiting c (.attempting a) c
  | finish {c : Configuration} {a : NodeId} : a ∈ g.attacks → a ∈ c.activated →
    Step g .waiting c .deciding (c.complete a)
  | succeed (c : Configuration) (a : NodeId) : Step g (.attempting a) c .deciding (c.complete a)
  | fail (c : Configuration) (a : NodeId) : Step g (.attempting a) c .deciding (c.deactivate a)
  | strike {c : Configuration} {d : NodeId} : d ∈ g.activeDefenses c →
    Step g .waiting c (.resetting d) c
  | reset {c : Configuration} {d : NodeId} : d ∈ g.activeDefenses c →
    Step g .waiting c .deciding (g.applyDefense d c)
  | defended (c : Configuration) (d : NodeId) :
    Step g (.resetting d) c .deciding (g.applyDefense d c)
  | spared (c : Configuration) (d : NodeId) : Step g (.resetting d) c .deciding c

theorem step_of_mem_moves {phase phase' : Phase} {c c' : Configuration} {m : Move}
    (h : (m, some (phase', c')) ∈ g.moves phase c) : g.Step phase c phase' c' := by
  cases phase with
  | deciding =>
    rcases List.mem_append.1 h with h | h
    · obtain ⟨a, ha, he⟩ := List.mem_map.1 h
      unfold startMove at he
      split at he <;> cases he
      · exact .pay ha
      · exact .start ha
    · split at h
      · cases h
      · cases List.mem_singleton.1 h
        exact .wait c
  | paying a =>
    cases List.mem_singleton.1 h
    exact .paid c a
  | waiting =>
    rcases List.mem_append.1 h with h | h
    · obtain ⟨a, ha, he⟩ := List.mem_map.1 h
      obtain ⟨ha, hunderway⟩ := List.mem_filter.1 ha
      unfold finishMove at he
      split at he <;> cases he
      · exact .attempt ha (of_decide_eq_true hunderway)
      · exact .finish ha (of_decide_eq_true hunderway)
    · obtain ⟨d, _, he⟩ := List.mem_map.1 h
      unfold strikeMove at he
      split at he
      · next hd =>
        split at he <;> cases he
        · exact .strike hd
        · exact .reset hd
      · cases he
  | attempting a =>
    simp only [moves, List.mem_cons, List.not_mem_nil, or_false, Prod.mk.injEq] at h
    rcases h with ⟨_, h⟩ | ⟨_, h⟩ <;> cases h
    · exact .succeed c a
    · exact .fail c a
  | resetting d =>
    simp only [moves, List.mem_cons, List.not_mem_nil, or_false, Prod.mk.injEq] at h
    rcases h with ⟨_, h⟩ | ⟨_, h⟩ <;> cases h
    · exact .defended c d
    · exact .spared c d

/-- The phase is about an attack or a defense of the graph. -/
def Involves (g : Graph) : Phase → Prop
  | .paying a | .attempting a => a ∈ g.attacks
  | .resetting d => d ∈ g.defenses
  | .deciding | .waiting => True

theorem Step.involves {phase phase' : Phase} {c c' : Configuration}
    (h : g.Step phase c phase' c') : g.Involves phase' := by
  cases h with
  | pay ha => exact (List.mem_filter.1 ha).1
  | attempt ha _ => exact ha
  | strike hd => exact (List.mem_filter.1 hd).1
  | _ => trivial

/-- From a canonical configuration, a move to a phase about a node leaves the node there. -/
theorem Step.admits {phase phase' : Phase} {c c' : Configuration} (hc : g.normalize c = c)
    (h : g.Step phase c phase' c') : g.Admits phase' (g.normalize c') := by
  cases h with
  | pay ha =>
    rw [hc]
    exact (List.mem_filter.1 ha).2
  | attempt _ ha =>
    rw [hc]
    exact ha
  | strike hd =>
    rw [hc]
    exact hd
  | _ => trivial

/-! ## Successors -/

/-- A target is what is made of an entry of the table. -/
inductive Made (g : Graph) : Target × Move → Move × Option (Phase × Configuration) → Prop
  | itself (m : Move) : Made g (.itself, m) (m, none)
  | state {s : State} {phase : Phase} {c : Configuration} (m : Move) :
    g.makeState phase c = .ok s → Made g (.state s, m) (m, some (phase, c))

theorem moveTo_eq_ok {m : Move} {phase : Phase} {c : Configuration} {t : Target × Move} :
    g.moveTo m phase c = .ok t ↔ g.Made t (m, some (phase, c)) := by
  unfold moveTo
  rw [map_eq_ok]
  constructor
  · rintro ⟨s, hs, rfl⟩
    exact .state m hs
  · rintro ⟨⟩
    exact ⟨_, ‹_›, rfl⟩

theorem expectAttack_eq {a : NodeId} (h : g.tree.isAttack a) :
    ∃ attack, g.tree.expectAttack a = .ok attack ∧ g.tree.attack? a = some attack ∧
      g.successOf a = attack.successProbability := by
  obtain ⟨attack, ha⟩ := isAttack_iff.1 h
  have ha' := attack?_eq_some.2 ha
  refine ⟨attack, ?_, ha', ?_⟩
  · unfold expectAttack
    rw [ha']
  · unfold successOf
    rw [ha]

theorem expectDefense_eq {d : NodeId} (h : g.tree.isDefense d) :
    ∃ defense, g.tree.expectDefense d = .ok defense ∧
      g.successOf d = defense.successProbability := by
  obtain ⟨defense, hd⟩ := isDefense_iff.1 h
  refine ⟨defense, ?_, ?_⟩
  · unfold expectDefense
    rw [defense?_eq_some.2 hd]
  · unfold successOf
    rw [hd]

/-- Only `one` itself is certain. -/
theorem Sound.belowOne_successOf (hg : g.Sound) (id : NodeId) :
    (g.successOf id).BelowOne ↔ g.successOf id ≠ .one := by
  unfold successOf
  split
  · next a ha => exact Binary64.belowOne_iff (hg.tree.fits id _ ha).1
  · next d hd => exact Binary64.belowOne_iff (hg.tree.fits id _ hd).1
  · exact Binary64.belowOne_iff (by decide)

theorem startAttack_eq_ok {c : Configuration} {a : NodeId} (ha : g.tree.isAttack a)
    {t : Target × Move} : g.startAttack c a = .ok t ↔ g.Made t (g.startMove c a) := by
  obtain ⟨attack, hexpect, hattack, _⟩ := expectAttack_eq ha
  unfold startAttack startMove
  rw [hexpect, hattack]
  show (if attack.hasActivationCost then _ else _) = _ ↔
    g.Made t (if attack.hasActivationCost then _ else _)
  split <;> exact moveTo_eq_ok

theorem Sound.finishAttack_eq_ok (hg : g.Sound) {c : Configuration} {a : NodeId}
    (ha : g.tree.isAttack a) {t : Target × Move} :
    g.finishAttack c a = .ok t ↔ g.Made t (g.finishMove c a) := by
  obtain ⟨attack, hexpect, _, hsuccess⟩ := expectAttack_eq ha
  unfold finishAttack finishMove
  simp only [hg.belowOne_successOf]
  rw [hexpect, hsuccess]
  show (if attack.successProbability ≠ .one then _ else _) = _ ↔ _
  split <;> exact moveTo_eq_ok

theorem Sound.strikeDefense_eq_ok (hg : g.Sound) {c : Configuration} {d : NodeId}
    (hd : g.tree.isDefense d) {t : Target × Move} :
    g.strikeDefense c (g.activeDefenses c) d = .ok t ↔ g.Made t (g.strikeMove c d) := by
  obtain ⟨defense, hexpect, hsuccess⟩ := expectDefense_eq hd
  unfold strikeDefense strikeMove
  by_cases hscope : d ∈ g.activeDefenses c
  · rw [if_neg (not_not_intro hscope), if_pos hscope]
    simp only [hg.belowOne_successOf]
    rw [hexpect, hsuccess]
    show (if defense.successProbability ≠ .one then _ else _) = _ ↔ _
    split <;> exact moveTo_eq_ok
  · rw [if_pos hscope, if_neg hscope]
    show Except.ok (Target.itself, Move.idle d) = .ok t ↔ _
    constructor
    · rintro ⟨⟩
      exact .itself _
    · rintro ⟨⟩
      rfl

/-- A list of computations that each give what is made of an entry. -/
theorem mapM_eq_ok_iff_made {l : List NodeId} {f : NodeId → Except Fault (Target × Move)}
    {row : NodeId → Move × Option (Phase × Configuration)}
    (h : ∀ a ∈ l, ∀ t, f a = .ok t ↔ g.Made t (row a)) {ts : List (Target × Move)} :
    l.mapM f = .ok ts ↔ List.Forall₂ g.Made ts (l.map row) := by
  rw [mapM_eq_ok, List.forall₂_map_right_iff]
  induction l generalizing ts with
  | nil => rw [List.forall₂_nil_left_iff, List.forall₂_nil_right_iff]
  | cons a l ih =>
    simp only [List.forall₂_cons_left_iff, List.forall₂_cons_right_iff, h a List.mem_cons_self,
      ih fun b hb => h b (List.mem_cons_of_mem _ hb)]

theorem forall₂_made_append {ts : List (Target × Move)}
    {l m : List (Move × Option (Phase × Configuration))} :
    List.Forall₂ g.Made ts (l ++ m) ↔
      ∃ us vs, List.Forall₂ g.Made us l ∧ List.Forall₂ g.Made vs m ∧ us ++ vs = ts := by
  constructor
  · intro h
    exact ⟨_, _, List.forall₂_take_append _ _ _ h, List.forall₂_drop_append _ _ _ h,
      List.take_append_drop _ _⟩
  · rintro ⟨us, vs, hu, hv, rfl⟩
    exact List.rel_append hu hv

theorem forall₂_made_singleton {ts : List (Target × Move)}
    {e : Move × Option (Phase × Configuration)} :
    List.Forall₂ g.Made ts [e] ↔ ∃ t, g.Made t e ∧ [t] = ts := by
  simp [List.forall₂_cons_right_iff, eq_comm]

/-- Two moves of which each leads to one state. -/
theorem moveTo_moveTo_eq_ok {m m' : Move} {phase phase' : Phase} {c c' : Configuration}
    {ts : List (Target × Move)} :
    (do return [← g.moveTo m phase c, ← g.moveTo m' phase' c']) = Except.ok ts ↔
      List.Forall₂ g.Made ts [(m, some (phase, c)), (m', some (phase', c'))] := by
  simp only [bind_eq_ok, moveTo_eq_ok, List.forall₂_cons_right_iff, List.forall₂_nil_right_iff]
  constructor
  · rintro ⟨t, ht, u, hu, ⟨⟩⟩
    exact ⟨t, _, ht, ⟨u, _, hu, rfl, rfl⟩, rfl⟩
  · rintro ⟨t, _, ht, ⟨u, _, hu, rfl, rfl⟩, rfl⟩
    exact ⟨t, ht, u, hu, rfl⟩

/-- **Successors.**  They are what is made of the entries of the table, in its order. -/
theorem Sound.successors_eq_ok (hg : g.Sound) {s : State} (hphase : g.Involves s.phase)
    (hactive : s.activeDefenses = g.activeDefenses s.configuration) {ts : List (Target × Move)} :
    g.successors s = .ok ts ↔ List.Forall₂ g.Made ts (g.moves s.phase s.configuration) := by
  unfold successors moves
  dsimp only
  rw [hactive]
  generalize s.configuration = c
  cases hs : s.phase with
  | deciding =>
    have hstarts : ∀ us, (g.availableAttacks c).mapM (g.startAttack c) = .ok us ↔
        List.Forall₂ g.Made us ((g.availableAttacks c).map (g.startMove c)) := fun us =>
      mapM_eq_ok_iff_made fun a ha t =>
        startAttack_eq_ok (hg.mem_attacks.1 (List.mem_filter.1 ha).1).2
    by_cases hquiet : c.activated.isEmpty ∧ g.activeDefenses c = []
    · simp [hquiet, ← hstarts]
    · rw [if_neg hquiet, forall₂_made_append]
      have hquiet' : ¬ (c.activated.isEmpty && (g.activeDefenses c).isEmpty) = true := by
        simpa using hquiet
      simp only [bind_eq_ok, if_neg hquiet', moveTo_eq_ok, hstarts, forall₂_made_singleton]
      constructor
      · rintro ⟨us, hu, t, ht, ⟨⟩⟩
        exact ⟨us, _, hu, ⟨t, ht, rfl⟩, rfl⟩
      · rintro ⟨us, _, hu, ⟨t, ht, rfl⟩, rfl⟩
        exact ⟨us, hu, t, ht, rfl⟩
  | paying a =>
    rw [forall₂_made_singleton]
    simp only [bind_eq_ok, moveTo_eq_ok]
    constructor
    · rintro ⟨t, ht, ⟨⟩⟩
      exact ⟨t, ht, rfl⟩
    · rintro ⟨t, ht, rfl⟩
      exact ⟨t, ht, rfl⟩
  | waiting =>
    have hfinishes : ∀ us, (g.attacks.filter (· ∈ c.activated)).mapM (g.finishAttack c) = .ok us ↔
        List.Forall₂ g.Made us ((g.attacks.filter (· ∈ c.activated)).map (g.finishMove c)) :=
      fun us => mapM_eq_ok_iff_made fun a ha t =>
        hg.finishAttack_eq_ok (hg.mem_attacks.1 (List.mem_filter.1 ha).1).2
    have hstrikes : ∀ us, g.defenses.mapM (g.strikeDefense c (g.activeDefenses c)) = .ok us ↔
        List.Forall₂ g.Made us (g.defenses.map (g.strikeMove c)) :=
      fun us => mapM_eq_ok_iff_made fun d hd t => hg.strikeDefense_eq_ok (hg.isDefense_of_mem_defenses hd)
    rw [forall₂_made_append]
    simp only [bind_eq_ok, hfinishes, hstrikes]
    constructor
    · rintro ⟨us, hu, vs, hv, ⟨⟩⟩
      exact ⟨us, vs, hu, hv, rfl⟩
    · rintro ⟨us, vs, hu, hv, rfl⟩
      exact ⟨us, hu, vs, hv, rfl⟩
  | attempting a =>
    rw [hs] at hphase
    obtain ⟨attack, hexpect, _, hsuccess⟩ := expectAttack_eq (hg.mem_attacks.1 hphase).2
    dsimp only
    rw [hsuccess, ← moveTo_moveTo_eq_ok, hexpect]
    rfl
  | resetting d =>
    rw [hs] at hphase
    obtain ⟨defense, hexpect, hsuccess⟩ := expectDefense_eq (hg.isDefense_of_mem_defenses hphase)
    dsimp only
    rw [hsuccess, ← moveTo_moveTo_eq_ok, hexpect]
    rfl

end Graph

end AttackDefense
