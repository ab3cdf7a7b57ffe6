import AttackDefense.Proofs.Automaton.Configurations
import AttackDefense.Proofs.Automaton.Limits
import AttackDefense.Proofs.Graph.TwinProgress

/-!
# Automata do not depend on numbers

Keys of two graphs are twins if their phases are about twins and their configurations are twins.
Twins have one name (`KeyTwins.keyName_eq`), and the moves that leave them match: they are the same
by name and lead to twins (`matched_moves`).  So each reachable key has its twin, and only one:

    g.ReachableKey k → ∃ k', g'.ReachableKey k' ∧ KeyTwins g g' k k'        (exists_keyTwin)

and the automata have the same states and edges by name (`automaton_depends_on_names_only`).
-/

namespace AttackDefense

open AttackDefense.Tree Decimal

variable {g g' : Graph} {c c' : Configuration}

namespace Graph

/-! ## Keys -/

/-- Phases that are about twins. -/
inductive PhaseTwins (g g' : Graph) : Phase → Phase → Prop
  | deciding : PhaseTwins g g' .deciding .deciding
  | paying {a a' : NodeId} : Twins g g' a a' → PhaseTwins g g' (.paying a) (.paying a')
  | waiting : PhaseTwins g g' .waiting .waiting
  | attempting {a a' : NodeId} : Twins g g' a a' →
    PhaseTwins g g' (.attempting a) (.attempting a')
  | resetting {d d' : NodeId} : Twins g g' d d' → PhaseTwins g g' (.resetting d) (.resetting d')

theorem PhaseTwins.symm {phase phase' : Phase} (h : PhaseTwins g g' phase phase') :
    PhaseTwins g' g phase' phase := by
  cases h with
  | deciding => exact .deciding
  | paying ht => exact .paying ht.symm
  | waiting => exact .waiting
  | attempting ht => exact .attempting ht.symm
  | resetting ht => exact .resetting ht.symm

/-- Keys about twins and the same progress up to twins. -/
structure KeyTwins (g g' : Graph) (k k' : StateKey) : Prop where
  phase : PhaseTwins g g' k.phase k'.phase
  configuration : ConfigurationTwins g g' k.configuration k'.configuration

theorem KeyTwins.symm {k k' : StateKey} (h : KeyTwins g g' k k') : KeyTwins g' g k' k :=
  ⟨h.phase.symm, h.configuration.symm⟩

theorem keyTwins_keyOf {phase phase' : Phase} (hphase : PhaseTwins g g' phase phase')
    (hc : ConfigurationTwins g g' c c') : KeyTwins g g' (g.keyOf phase c) (g'.keyOf phase' c') :=
  ⟨hphase, by rwa [configuration_keyOf, configuration_keyOf]⟩

theorem PhaseTwins.eq (hg' : g'.Sound) {phase phase₁ phase₂ : Phase}
    (h₁ : PhaseTwins g g' phase phase₁) (h₂ : PhaseTwins g g' phase phase₂) : phase₁ = phase₂ := by
  cases h₁ with
  | deciding => cases h₂; rfl
  | paying ht₁ => cases h₂ with | paying ht₂ => rw [ht₁.eq hg' ht₂]
  | waiting => cases h₂; rfl
  | attempting ht₁ => cases h₂ with | attempting ht₂ => rw [ht₁.eq hg' ht₂]
  | resetting ht₁ => cases h₂ with | resetting ht₂ => rw [ht₁.eq hg' ht₂]

/-- A reachable key is the only reachable one that is the twin of its twin. -/
theorem KeyTwins.eq (h : Alike g g') {k k₁ k₂ : StateKey} (hk₁ : g'.ReachableKey k₁)
    (hk₂ : g'.ReachableKey k₂) (ht₁ : KeyTwins g g' k k₁) (ht₂ : KeyTwins g g' k k₂) : k₁ = k₂ := by
  rw [hk₁.eq_keyOf h.sound', hk₂.eq_keyOf h.sound', ht₁.phase.eq h.sound' ht₂.phase,
    ht₁.configuration.eq h ht₂.configuration]

/-- Names are listed in their order, so twins are shown alike. -/
theorem SetTwins.map_name_sortedByName (h : Alike g g') {s s' : NodeSet}
    (hs : SetTwins g g' s s') :
    (g.sortedByName s.toList).map g.name = (g'.sortedByName s'.toList).map g'.name := by
  have hsorted : ∀ {g : Graph}, g.Sound → ∀ {s : NodeSet}, (∀ x ∈ s, g.Reachable x) →
      ((g.sortedByName s.toList).map g.name).Pairwise (· < ·) := fun hg _ hs =>
    List.pairwise_map.2 (hg.pairwise_sortedByName fun x hx => hg.isSome_of_member (.inl (hs x hx)))
  refine (hsorted h.sound fun x hx => (hs.left x hx).1).eq_of_mem_iff
    (hsorted h.sound' fun x' hx' => (hs.right x' hx').1) fun n => ?_
  simp only [List.mem_map, mem_sortedByName]
  constructor
  · rintro ⟨x, hx, rfl⟩
    obtain ⟨_, x', hx', ht⟩ := hs.left x hx
    exact ⟨x', hx', ht.name_eq.symm⟩
  · rintro ⟨x', hx', rfl⟩
    obtain ⟨_, x, hx, ht⟩ := hs.right x' hx'
    exact ⟨x, hx, ht.name_eq⟩

theorem KeyTwins.keyName_eq (h : Alike g g') {k k' : StateKey} (hk : g.ReachableKey k)
    (hk' : g'.ReachableKey k') (ht : KeyTwins g g' k k') : g.keyName k = g'.keyName k' := by
  have hactivated := ht.configuration.activated.map_name_sortedByName h
  have hcompleted := ht.configuration.completed.map_name_sortedByName h
  have hphase := ht.phase
  rw [hk.eq_keyOf h.sound, hk'.eq_keyOf h.sound']
  unfold keyName keyOf
  dsimp only
  rw [hactivated, hcompleted]
  generalize k.phase = phase, k'.phase = phase' at hphase
  cases hphase with
  | deciding => rfl
  | paying hta => simp [Phase.tag, Phase.node?, hta.name_eq]
  | waiting => rfl
  | attempting hta => simp [Phase.tag, Phase.node?, hta.name_eq]
  | resetting htd => simp [Phase.tag, Phase.node?, htd.name_eq]

/-! ## Moves -/

/-- A move with the names of its nodes. -/
structure NamedMove where
  tag : String
  attack : Option String
  defense : Option String
  success : Option Bool
  probability : Option Binary64
deriving DecidableEq

def namedMove (g : Graph) (m : Move) : NamedMove :=
  ⟨m.tag, m.attack?.map g.name, m.defense?.map g.name, m.success?, m.probability?⟩

/-- The same move, about twins. -/
inductive MoveTwins (g g' : Graph) : Move → Move → Prop
  | start {a a' : NodeId} : Twins g g' a a' → MoveTwins g g' (.start a) (.start a')
  | pay {a a' : NodeId} : Twins g g' a a' → MoveTwins g g' (.pay a) (.pay a')
  | wait : MoveTwins g g' .wait .wait
  | finish {a a' : NodeId} : Twins g g' a a' → MoveTwins g g' (.finish a) (.finish a')
  | attackOutcome {a a' : NodeId} (success : Bool) {p p' : Binary64} : Twins g g' a a' → p = p' →
    MoveTwins g g' (.attackOutcome a success p) (.attackOutcome a' success p')
  | strike {d d' : NodeId} : Twins g g' d d' → MoveTwins g g' (.strike d) (.strike d')
  | defenseOutcome {d d' : NodeId} (success : Bool) {p p' : Binary64} : Twins g g' d d' → p = p' →
    MoveTwins g g' (.defenseOutcome d success p) (.defenseOutcome d' success p')
  | idle {d d' : NodeId} : Twins g g' d d' → MoveTwins g g' (.idle d) (.idle d')

theorem MoveTwins.namedMove_eq {m m' : Move} (h : MoveTwins g g' m m') :
    g.namedMove m = g'.namedMove m' := by
  cases h with
  | wait => rfl
  | attackOutcome _ ht hp => simp [namedMove, Move.attack?, Move.defense?, Move.tag, Move.success?,
      Move.probability?, ht.name_eq, hp]
  | defenseOutcome _ ht hp => simp [namedMove, Move.attack?, Move.defense?, Move.tag,
      Move.success?, Move.probability?, ht.name_eq, hp]
  | _ ht => simp [namedMove, Move.attack?, Move.defense?, Move.tag, Move.success?,
      Move.probability?, ht.name_eq]

/-- Where entries of the tables of moves lead, before anything is normalized. -/
def TargetTwins (g g' : Graph) : Option (Phase × Configuration) →
    Option (Phase × Configuration) → Prop :=
  Option.Rel fun p p' => PhaseTwins g g' p.1 p'.1 ∧ ConfigurationTwins g g' p.2 p'.2

/-- The same move to the same place, up to twins. -/
structure EntryTwins (g g' : Graph) (e e' : Move × Option (Phase × Configuration)) : Prop where
  move : MoveTwins g g' e.1 e'.1
  target : TargetTwins g g' e.2 e'.2

theorem successOf_eq_getD (g : Graph) (x : NodeId) :
    g.successOf x = ((g.tree.attack? x).map Attack.successProbability).getD
      (((g.tree.defense? x).map Defense.successProbability).getD .one) := by
  unfold successOf attack? defense?
  rcases g.tree.node? x with _ | _ | _ | _ <;> rfl

section

variable (h : Alike g g')

include h

theorem Alike.successOf_eq {x x' : NodeId} (ht : Twins g g' x x') :
    g.successOf x = g'.successOf x' := by
  rw [successOf_eq_getD, successOf_eq_getD]
  exact h.node_congr (fun n => ((n.bind Node.asAttack?).map Attack.successProbability).getD
    (((n.bind Node.asDefense?).map Defense.successProbability).getD .one))
    (by rintro (_ | _ | _ | _) <;> rfl) ht

variable (hc : ConfigurationTwins g g' c c')

include hc

theorem Quiet.twin (hq : g.Quiet c) : g'.Quiet c' := by
  refine ⟨NodeSet.isEmpty_iff.2 (hc.activated.eq_empty (NodeSet.isEmpty_iff.1 hq.1)), ?_⟩
  refine List.eq_nil_iff_forall_not_mem.2 fun d' hd' => ?_
  obtain ⟨d, _, ht⟩ := h.symm.exists_twin_defense (List.mem_filter.1 hd').1
  have hd := (hc.mem_activeDefenses_iff h ht.symm).2 hd'
  rw [hq.2] at hd
  cases hd

theorem quiet_iff : g.Quiet c ↔ g'.Quiet c' := ⟨.twin h hc, .twin h.symm hc.symm⟩

variable {x x' : NodeId} (ht : Twins g g' x x')

include ht

theorem entryTwins_startMove (hx : g.Reachable x) :
    EntryTwins g g' (g.startMove c x) (g'.startMove c' x') := by
  unfold startMove
  rw [h.hasActivationCost_eq ht]
  split
  · exact ⟨.pay ht, .some ⟨.paying ht, hc⟩⟩
  · exact ⟨.start ht, .some ⟨.deciding, hc.activate h ht hx⟩⟩

theorem entryTwins_finishMove (hx : g.Reachable x) :
    EntryTwins g g' (g.finishMove c x) (g'.finishMove c' x') := by
  unfold finishMove
  rw [h.successOf_eq ht]
  split
  · exact ⟨.finish ht, .some ⟨.attempting ht, hc⟩⟩
  · exact ⟨.finish ht, .some ⟨.deciding, hc.complete h ht hx⟩⟩

theorem entryTwins_strikeMove : EntryTwins g g' (g.strikeMove c x) (g'.strikeMove c' x') := by
  unfold strikeMove
  rw [h.successOf_eq ht]
  simp only [hc.mem_activeDefenses_iff h ht]
  split
  · split
    · exact ⟨.strike ht, .some ⟨.resetting ht, hc⟩⟩
    · exact ⟨.strike ht, .some ⟨.deciding, hc.applyDefense h ht⟩⟩
  · exact ⟨.idle ht, .none⟩

omit ht in
/-- **Moves.**  The moves that leave twins are the same by name, and they lead to twins. -/
theorem matched_moves {phase phase' : Phase} (hphase : PhaseTwins g g' phase phase')
    (hinvolves : g.Involves phase) :
    Matched (EntryTwins g g') (g.moves phase c) (g'.moves phase' c') := by
  have hreach : ∀ a ∈ g.attacks, g.Reachable a := fun a ha => (h.sound.mem_attacks.1 ha).1
  cases hphase with
  | deciding =>
    have havailable : Matched (Twins g g') (g.availableAttacks c) (g'.availableAttacks c') :=
      h.matched_attacks.filter fun a ha _ _ hta => hc.isAvailable_eq h hta (hreach a ha)
    refine (havailable.map fun a ha _ _ hta => ?_).append ?_
    · exact entryTwins_startMove h hc hta (hreach a (List.mem_filter.1 ha).1)
    · have hquiet : (c.activated.isEmpty ∧ g.activeDefenses c = []) ↔
        (c'.activated.isEmpty ∧ g'.activeDefenses c' = []) := quiet_iff h hc
      simp only [hquiet]
      split
      · exact matched_nil
      · exact matched_nil.cons ⟨.wait, .some ⟨.waiting, hc⟩⟩
  | paying hta =>
    exact matched_nil.cons ⟨.start hta, .some ⟨.deciding, hc.activate h hta (hreach _ hinvolves)⟩⟩
  | waiting =>
    have hunderway : Matched (Twins g g') (g.attacks.filter (· ∈ c.activated))
        (g'.attacks.filter (· ∈ c'.activated)) :=
      h.matched_attacks.filter fun _ _ _ _ hta => decide_eq_decide.2 (hc.activated.mem_iff h hta)
    refine (hunderway.map fun a ha _ _ hta => ?_).append
      (h.matched_defenses.map fun _ _ _ _ htd => ?_)
    · exact entryTwins_finishMove h hc hta (hreach a (List.mem_filter.1 ha).1)
    · exact entryTwins_strikeMove h hc htd
  | attempting hta =>
    have hsuccess := h.successOf_eq hta
    exact (matched_nil.cons
      ⟨.attackOutcome false hta (by rw [hsuccess]), .some ⟨.deciding, hc.deactivate h hta⟩⟩).cons
      ⟨.attackOutcome true hta hsuccess,
        .some ⟨.deciding, hc.complete h hta (hreach _ hinvolves)⟩⟩
  | resetting htd =>
    have hsuccess := h.successOf_eq htd
    exact (matched_nil.cons
      ⟨.defenseOutcome false htd (by rw [hsuccess]), .some ⟨.deciding, hc⟩⟩).cons
      ⟨.defenseOutcome true htd hsuccess, .some ⟨.deciding, hc.applyDefense h htd⟩⟩

end

/-! ## Reachable keys -/

section

variable (h : Alike g g')

include h

theorem exists_keyTwin {k : StateKey} (hk : g.ReachableKey k) :
    ∃ k', g'.ReachableKey k' ∧ KeyTwins g g' k k' := by
  induction hk with
  | initial => exact ⟨_, .initial, .deciding, configurationTwins_empty g g'⟩
  | @step k m phase c hk hmem ih =>
    obtain ⟨k', hk', ht⟩ := ih
    obtain ⟨⟨m', target⟩, hmem', he⟩ :=
      (matched_moves h ht.configuration ht.phase (hk.regular h.sound).involves).exists_left hmem
    cases he.target with
    | some htarget =>
      exact ⟨_, hk'.step hmem', keyTwins_keyOf htarget.1 (htarget.2.normalize h)⟩

/-- Lists of all reachable keys match. -/
theorem matched_keys {l l' : List StateKey} (hl : l.Nodup) (hl' : l'.Nodup)
    (hmem : ∀ k, k ∈ l ↔ g.ReachableKey k) (hmem' : ∀ k, k ∈ l' ↔ g'.ReachableKey k) :
    Matched (KeyTwins g g') l l' := by
  apply matched_of_nodup hl hl'
  · intro k hk
    obtain ⟨k', hk', ht⟩ := exists_keyTwin h ((hmem k).1 hk)
    exact ⟨k', (hmem' k').2 hk', ht⟩
  · intro k' hk'
    obtain ⟨k, hk, ht⟩ := exists_keyTwin h.symm ((hmem' k').1 hk')
    exact ⟨k, (hmem k).2 hk, ht.symm⟩
  · exact fun _ _ k₁ hk₁ k₂ hk₂ ht₁ ht₂ => ht₁.eq h ((hmem' k₁).1 hk₁) ((hmem' k₂).1 hk₂) ht₂
  · exact fun k₁ hk₁ k₂ hk₂ _ _ ht₁ ht₂ =>
      ht₁.symm.eq h.symm ((hmem k₁).1 hk₁) ((hmem k₂).1 hk₂) ht₂.symm

theorem matched_reachableKeys :
    Matched (KeyTwins g g') h.sound.finite_reachableKey.toFinset.toList
      h.sound'.finite_reachableKey.toFinset.toList :=
  matched_keys h (Finset.nodup_toList _) (Finset.nodup_toList _) (by simp) (by simp)

theorem stateCount_eq : g.stateCount = g'.stateCount := by
  rw [stateCount_eq_card h.sound, stateCount_eq_card h.sound', ← Finset.length_toList,
    ← Finset.length_toList]
  exact (matched_reachableKeys h).length_eq

theorem edgeCount_eq : g.edgeCount = g'.edgeCount := by
  rw [edgeCount_eq_sum h.sound, edgeCount_eq_sum h.sound', ← Finset.sum_map_toList,
    ← Finset.sum_map_toList]
  refine (matched_reachableKeys h).sum_eq fun k hk k' _ ht => ?_
  have hk : g.ReachableKey k := by simpa using hk
  exact (matched_moves h ht.configuration ht.phase (hk.regular h.sound).involves).length_eq

end

/-! ## Rows -/

/-- The key that an entry of the table of moves leads to from a key. -/
def targetKey (g : Graph) (k : StateKey) : Option (Phase × Configuration) → StateKey
  | none => k
  | some (phase, c) => g.keyOf phase (g.normalize c)

/-- An edge with the names of its states. -/
def namedEntry (g : Graph) (k : StateKey) (e : Move × Option (Phase × Configuration)) :
    Option String × NamedMove × Option String :=
  (some (g.keyName k), g.namedMove e.1, some (g.keyName (g.targetKey k e.2)))

/-- The edges that leave a key, with names. -/
def namedRow (g : Graph) (k : StateKey) : List (Option String × NamedMove × Option String) :=
  (g.moves k.phase k.configuration).map (g.namedEntry k)

theorem ReachableKey.targetKey {k : StateKey} (hk : g.ReachableKey k) {m : Move}
    {target : Option (Phase × Configuration)}
    (hmem : (m, target) ∈ g.moves k.phase k.configuration) :
    g.ReachableKey (g.targetKey k target) := by
  cases target with
  | none => exact hk
  | some => exact hk.step hmem

theorem KeyTwins.targetKey (h : Alike g g') {k k' : StateKey} (hk : KeyTwins g g' k k')
    {target target' : Option (Phase × Configuration)} (ht : TargetTwins g g' target target') :
    KeyTwins g g' (g.targetKey k target) (g'.targetKey k' target') := by
  cases ht with
  | none => exact hk
  | some ht => exact keyTwins_keyOf ht.1 (ht.2.normalize h)

theorem KeyTwins.namedRow (h : Alike g g') {k k' : StateKey} (hk : g.ReachableKey k)
    (hk' : g'.ReachableKey k') (ht : KeyTwins g g' k k') :
    (g.namedRow k).Perm (g'.namedRow k') := by
  have hmoves := matched_moves h ht.configuration ht.phase (hk.regular h.sound).involves
  refine matched_map_iff.1 (hmoves.mono fun e he e' he' hee => ?_)
  have htarget := (ht.targetKey h hee.target).keyName_eq h (hk.targetKey he) (hk'.targetKey he')
  unfold namedEntry
  rw [ht.keyName_eq h hk hk', hee.move.namedMove_eq, htarget]

end Graph

/-! ## Automata -/

namespace Automaton

open AttackDefense.Graph

variable {m m' : Automaton}

/-- An edge with the names of its states and of the nodes of its move. -/
def namedEdge (m : Automaton) (e : Edge) : Option String × NamedMove × Option String :=
  (m.stateName? e.source, m.graph.namedMove e.move, m.stateName? e.destination)

theorem Unfolds.mem_keys_iff (h : m.Unfolds g) {k : StateKey} :
    k ∈ keys m.table ↔ g.ReachableKey k :=
  ⟨h.reached.reachable_of_mem k, h.mem_keys⟩

theorem Unfolds.stateName?_eq (h : m.Unfolds g) {i : StateId} {k : StateKey}
    (hk : m.find? k = some i) : m.stateName? i = some (g.keyName k) := by
  obtain ⟨s, hs, rfl⟩ := (h.indexed k i).1 hk
  unfold stateName?
  rw [state?, hs, h.graph]
  rfl

theorem Unfolds.map_namedEdge_edgesOf (h : m.Unfolds g) {i : StateId} {s : State}
    (hs : m.state? i = some s) : (m.edgesOf i).map m.namedEdge = g.namedRow s.key := by
  have hsource : m.find? s.key = some i := (h.indexed _ _).2 ⟨s, hs, rfl⟩
  rw [namedRow, ← List.forall₂_eq_eq_eq, List.forall₂_map_left_iff, List.forall₂_map_right_iff]
  refine (h.rows i s hs).imp ?_
  rintro e ⟨move, target⟩ ⟨rfl, rfl, hdest⟩
  unfold namedEdge namedEntry
  have hdestination : m.find? (g.targetKey s.key target) = some e.destination := by
    cases target with
    | none => exact hdest ▸ hsource
    | some => exact hdest
  rw [h.stateName?_eq hsource, h.stateName?_eq hdestination, h.graph]

theorem Unfolds.map_namedEdge (h : m.Unfolds g) :
    m.edges.toList.map m.namedEdge = (keys m.table).flatMap g.namedRow := by
  rw [← h.edges, List.map_flatMap, List.flatMap_def, List.flatMap_def,
    map_range_size fun i s hs => h.map_namedEdge_edgesOf hs]

theorem Unfolds.exists_stateName_iff (h : m.Unfolds g) {n : String} :
    (∃ i, m.stateName? i = some n) ↔ ∃ k, g.ReachableKey k ∧ g.keyName k = n := by
  constructor
  · rintro ⟨i, hi⟩
    obtain ⟨s, hs, rfl⟩ := Option.map_eq_some_iff.1 hi
    exact ⟨s.key, (h.states i s hs).2, by rw [h.graph]⟩
  · rintro ⟨k, hk, rfl⟩
    obtain ⟨i, s, hs, rfl⟩ := h.exists_state_iff.2 hk
    exact ⟨i, h.stateName?_eq ((h.indexed _ _).2 ⟨s, hs, rfl⟩)⟩

section

variable (h : Alike g g')

include h

theorem exists_stateName_of_exists (hm : m.Unfolds g) (hm' : m'.Unfolds g') {n : String}
    (hn : ∃ i, m.stateName? i = some n) : ∃ i, m'.stateName? i = some n := by
  obtain ⟨k, hk, rfl⟩ := hm.exists_stateName_iff.1 hn
  obtain ⟨k', hk', ht⟩ := exists_keyTwin h hk
  exact hm'.exists_stateName_iff.2 ⟨k', hk', (ht.keyName_eq h hk hk').symm⟩

theorem perm_map_namedEdge (hm : m.Unfolds g) (hm' : m'.Unfolds g') :
    (m.edges.toList.map m.namedEdge).Perm (m'.edges.toList.map m'.namedEdge) := by
  have hkeys := matched_keys h hm.indexed.nodup_keys hm'.indexed.nodup_keys
    (fun _ => hm.mem_keys_iff) (fun _ => hm'.mem_keys_iff)
  rw [hm.map_namedEdge, hm'.map_namedEdge, ← matched_eq_iff]
  refine hkeys.flatMap fun k hk k' hk' ht => matched_eq_iff.2 ?_
  exact ht.namedRow h (hm.mem_keys_iff.1 hk) (hm'.mem_keys_iff.1 hk')

end

/-- **Only names count.**  Take two graphs that are the same by name below their roots: whatever the
numbers of their nodes, the orders of children, defenses and insertion, and the nodes that are apart
from the roots.  If the edges fit, building under one bound on the states succeeds for both or
reports the bound for both; and two automata that are built have the same names of states and, each
as often, the same edges by name. -/
theorem automaton_depends_on_names_only (hg : g.Built) (hg' : g'.Built) (hsame : SameNamed g g')
    (hedges : g.edgeCount ≤ maxWord) (maxStates : Nat) :
    ((∃ m m', build g maxStates = .ok m ∧ build g' maxStates = .ok m') ∨
      (build g maxStates = .error (.stateLimit (limitOf maxStates)) ∧
        build g' maxStates = .error (.stateLimit (limitOf maxStates)))) ∧
    ∀ m m', build g maxStates = .ok m → build g' maxStates = .ok m' →
      (∀ n, (∃ i, m.stateName? i = some n) ↔ ∃ i, m'.stateName? i = some n) ∧
      (m.edges.toList.map m.namedEdge).Perm (m'.edges.toList.map m'.namedEdge) := by
  have h : Alike g g' := ⟨hg.sound, hg'.sound, hsame⟩
  have hstates := stateCount_eq h
  have hedges' : g'.edgeCount ≤ maxWord := edgeCount_eq h ▸ hedges
  constructor
  · rcases build_outcome h.sound maxStates with ⟨m, hm, _, hle, _⟩ | ⟨hm, hfull⟩ | ⟨_, hfull⟩
    · obtain ⟨m', hm'⟩ := exists_build h.sound' (hstates ▸ hle) hedges'
      exact .inl ⟨m, m', hm, hm'⟩
    · rcases build_outcome h.sound' maxStates with ⟨_, _, _, hle, _⟩ | ⟨hm', _⟩ | ⟨_, hfull'⟩
      · exact absurd (hstates ▸ hle) (Nat.not_le.2 hfull)
      · exact .inr ⟨hm, hm'⟩
      · exact absurd hedges' (Nat.not_le.2 hfull')
    · exact absurd hedges (Nat.not_le.2 hfull)
  · intro m m' hm hm'
    have hm := unfolds_of_build h.sound hm
    have hm' := unfolds_of_build h.sound' hm'
    exact ⟨fun n => ⟨exists_stateName_of_exists h hm hm', exists_stateName_of_exists h.symm hm' hm⟩,
      perm_map_namedEdge h hm hm'⟩

/-- The two offices have the same automaton by name. -/
theorem automaton_depends_on_names_only_office : ∃ m m', build office 15 = .ok m ∧
    build branch 15 = .ok m' ∧
    (∀ n, (∃ i, m.stateName? i = some n) ↔ ∃ i, m'.stateName? i = some n) ∧
    (m.edges.toList.map m.namedEdge).Perm (m'.edges.toList.map m'.namedEdge) := by
  obtain ⟨hbuilds, hnames⟩ := automaton_depends_on_names_only built_office built_branch
    sameNamed_branch edgeCount_office_le 15
  rcases hbuilds with ⟨m, m', hm, hm'⟩ | ⟨hfull, _⟩
  · exact ⟨m, m', hm, hm', hnames m m' hm hm'⟩
  · obtain ⟨m, hm⟩ := exists_build_office
    rw [hm] at hfull
    cases hfull

end Automaton

end AttackDefense
