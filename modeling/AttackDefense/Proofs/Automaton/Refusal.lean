import AttackDefense.Proofs.Automaton.Keys
import AttackDefense.Proofs.Graph.Followers

/-!
# Why building is refused

No step of the builder is refused for another reason than its two bounds.  A move leads to a phase
that its configuration admits (`Step.admits`), and a state is determined by its key
(`IsState.eq_of_key`), so that no known key is met with another state.  The states of the table have
different keys, all of them reachable, and its edges are moves that leave such keys.  So a bound is
met only when the reachable keys, or the moves that leave them, are too many:

    build g maxStates = .error f → Refused g (limitOf maxStates) f           (refused_of_build)
    g.stateCount ≤ limitOf maxStates → g.edgeCount ≤ maxWord →
      ∃ m, build g maxStates = .ok m                                         (exists_build)
-/

namespace AttackDefense

open AttackDefense.Graph

variable {g : Graph}

/-! ## Steps that are not refused -/

theorem Graph.IsState.exists_successors (hg : g.Sound) {s : State} (hs : g.IsState s) :
    ∃ ts, g.successors s = .ok ts := by
  have hmade : ∀ e ∈ g.moves s.phase s.configuration, ∃ t, g.Made t e := by
    rintro ⟨m, _ | ⟨phase, c⟩⟩ hmem
    · exact ⟨_, .itself m⟩
    · have hadmits := (step_of_mem_moves hmem).admits hs.canonical
      exact ⟨_, .state m ((makeState_eq_ok hg).2 ⟨hadmits, rfl⟩)⟩
  obtain ⟨ts, hts⟩ := exists_forall₂ hmade
  exact ⟨ts, (hs.successors_eq_ok hg).2 hts⟩

/-- A state is determined by its key. -/
theorem Graph.IsState.eq_of_key {s u : State} (hs : g.IsState s) (hu : g.IsState u)
    (h : s.key = u.key) : s = u := by
  rw [hs.eq_stateOf, hu.eq_stateOf, State.phase, State.phase, State.configuration,
    State.configuration, h]

namespace Automaton

/-- The reasons to refuse an automaton. -/
inductive Refused (g : Graph) (limit : Nat) : Fault → Prop
  | states : limit < g.stateCount → Refused g limit (.stateLimit limit)
  | edges : maxWord < g.edgeCount → Refused g limit (.edgeLimit maxWord)

/-! ## Tables -/

/-- The states of the table are states of the graph and have reachable keys. -/
structure Reached (g : Graph) (t : StateTable) : Prop where
  indexed : t.Indexed
  states : ∀ i s, t.get? i = some s → g.IsState s ∧ g.ReachableKey s.key

/-- The keys of the states, in their order. -/
def keys (t : StateTable) : List StateKey := t.states.toList.map State.key

variable {t : StateTable}

theorem length_keys (t : StateTable) : (keys t).length = t.size := by
  rw [keys, List.length_map, Array.length_toList, StateTable.size]

theorem getElem?_keys (t : StateTable) (i : StateId) :
    (keys t)[i]? = (t.get? i).map State.key := by
  rw [keys, List.getElem?_map, Array.getElem?_toList, StateTable.get?]

theorem Reached.reachable_of_mem (h : Reached g t) : ∀ k ∈ keys t, g.ReachableKey k := by
  intro k hk
  obtain ⟨i, hi⟩ := List.mem_iff_getElem?.1 hk
  rw [getElem?_keys] at hi
  obtain ⟨s, hs, rfl⟩ := Option.map_eq_some_iff.1 hi
  exact (h.states i s hs).2

theorem Reached.size_le (hg : g.Sound) (h : Reached g t) : t.size ≤ g.stateCount := by
  rw [← length_keys]
  exact length_le_stateCount hg h.indexed.nodup_keys h.reachable_of_mem

/-- A state of the graph never collides with one of the table. -/
theorem Reached.intern (h : Reached g t) {s : State} (hs : g.IsState s)
    (hkey : g.ReachableKey s.key) :
    ∃ t' id isNew, t.intern s = .ok (t', id, isNew) ∧ Reached g t' := by
  have hok : ∃ t' id isNew, t.intern s = .ok (t', id, isNew) := by
    cases hfind : t.find? s.key with
    | none => exact ⟨_, _, _, StateTable.intern_eq_ok.2 (.inl ⟨hfind, rfl, rfl, rfl⟩)⟩
    | some id =>
      obtain ⟨old, hold, hsame⟩ := (h.indexed _ _).1 hfind
      obtain rfl := (h.states id old hold).1.eq_of_key hs hsame
      refine ⟨t, id, false, StateTable.intern_eq_ok.2 (.inr ⟨hfind, ?_, rfl, rfl⟩)⟩
      simp [hold, State.agrees]
  obtain ⟨t', id, isNew, ht⟩ := hok
  obtain ⟨hindexed, _, _, horigin⟩ := h.indexed.intern ht
  refine ⟨t', id, isNew, ht, hindexed, fun j u hj => ?_⟩
  rcases horigin j u hj with hj | rfl
  · exact h.states j u hj
  · exact ⟨hs, hkey⟩

namespace Draft

variable {limit : Nat} {d : Draft limit} {f : Fault}

/-! ## One step -/

/-- A state of the graph is refused only when the table is full. -/
theorem refused_of_intern (hg : g.Sound) (h : Reached g d.table) {s : State} (hs : g.IsState s)
    (hkey : g.ReachableKey s.key) (herror : d.intern g s = .error f) : Refused g limit f := by
  obtain ⟨t, id, isNew, ht, hreached⟩ := h.intern hs hkey
  have hfull : ¬ t.size ≤ limit := by
    intro hle
    rw [intern_eq_ok.2 ⟨t, isNew, hle, ht, rfl⟩] at herror
    cases herror
  obtain ⟨table, edges, offsets, accepting, hsize⟩ := d
  unfold intern at herror
  dsimp only at ht herror
  rw [ht] at herror
  dsimp only at herror
  rw [dif_neg hfull] at herror
  cases herror
  exact .states (Nat.lt_of_lt_of_le (Nat.not_le.1 hfull) (hreached.size_le hg))

theorem reached_of_intern (h : Reached g d.table) {s : State} (hs : g.IsState s)
    (hkey : g.ReachableKey s.key) {d' : Draft limit} {id : StateId}
    (hok : d.intern g s = .ok (d', id)) : Reached g d'.table := by
  obtain ⟨t, isNew, _, ht, rfl⟩ := intern_eq_ok.1 hok
  obtain ⟨t', id', isNew', ht', hreached⟩ := h.intern hs hkey
  rw [ht] at ht'
  cases ht'
  exact hreached

theorem refused_of_addEdges (hg : g.Sound) (source : StateId) {ts : List (Target × Move)}
    (hts : ∀ s m, (.state s, m) ∈ ts → g.IsState s ∧ g.ReachableKey s.key)
    (h : Reached g d.table) (herror : d.addEdges g source ts = .error f) : Refused g limit f := by
  induction ts generalizing d with
  | nil => cases herror
  | cons t ts ih =>
    have ih : ∀ d : Draft limit, Reached g d.table → d.addEdges g source ts = .error f →
        Refused g limit f :=
      fun d h => ih (fun s m hmem => hts s m (List.mem_cons_of_mem _ hmem)) h
    obtain ⟨target, m⟩ := t
    cases target with
    | itself => exact ih (d.addEdge ⟨source, source, m⟩) h herror
    | state s =>
      obtain ⟨hs, hkey⟩ := hts s m List.mem_cons_self
      rcases bind_eq_error.1 herror with herror | ⟨⟨d₁, id⟩, hintern, herror⟩
      · exact refused_of_intern hg h hs hkey herror
      · have h₁ := reached_of_intern h hs hkey hintern
        exact ih (d₁.addEdge ⟨source, id, m⟩) h₁ herror

/-! ## Rows -/

theorem Expanded.reached {rows : List (List Edge)} (h : d.Expanded g rows) : Reached g d.table :=
  ⟨h.indexed, h.states⟩

/-- The edges of a draft are the moves that leave its expanded states. -/
theorem Expanded.edges_size_eq {rows : List (List Edge)} (h : d.Expanded g rows) :
    d.edges.size = (((keys d.table).take rows.length).map g.moveCount).sum := by
  have hlengths : rows.map List.length = ((keys d.table).take rows.length).map g.moveCount := by
    apply List.ext_getElem?
    intro i
    by_cases hi : i < rows.length
    · obtain ⟨s, hs, hleads⟩ := h.rows i _ (List.getElem?_eq_getElem hi)
      rw [List.getElem?_map, List.getElem?_map, List.getElem?_take_of_lt hi, getElem?_keys, hs,
        List.getElem?_eq_getElem hi]
      exact congrArg some hleads.length_eq
    · have hge := Nat.not_lt.1 hi
      rw [List.getElem?_eq_none (by simpa using hge), List.getElem?_eq_none]
      rw [List.length_map, List.length_take]
      exact Nat.le_trans (Nat.min_le_left _ _) hge
  rw [← Array.length_toList, h.edges, List.length_flatten, hlengths]

theorem Expanded.edges_size_le (hg : g.Sound) {rows : List (List Edge)} (h : d.Expanded g rows) :
    d.edges.size ≤ g.edgeCount := by
  rw [h.edges_size_eq]
  have hsub := List.take_sublist rows.length (keys d.table)
  apply sum_moveCount_le_edgeCount hg (h.indexed.nodup_keys.sublist hsub)
  exact fun k hk => h.reached.reachable_of_mem k (hsub.subset hk)

theorem refused_of_mark (hg : g.Sound) {rows : List (List Edge)} (h : d.Expanded g rows)
    (herror : d.mark = .error f) : Refused g limit f := by
  unfold mark at herror
  split at herror
  · cases herror
  · next hfull =>
    cases herror
    exact .edges (Nat.lt_of_lt_of_le (Nat.not_le.1 hfull) (h.edges_size_le hg))

/-- The targets of a state that is expanded are states of the graph. -/
theorem Expanded.isState_of_mem_successors (hg : g.Sound) {rows : List (List Edge)}
    (h : d.Expanded g rows) {i : StateId} {s : State} (hs : d.table.get? i = some s)
    {ts : List (Target × Move)} (hts : g.successors s = .ok ts) :
    ∀ u m, (.state u, m) ∈ ts → g.IsState u ∧ g.ReachableKey u.key := by
  intro u m hmem
  obtain ⟨hstate, hkey⟩ := h.states i s hs
  obtain ⟨_, he, hmade⟩ := exists_of_mem_left ((hstate.successors_eq_ok hg).1 hts) hmem
  cases hmade with
  | state _ hu => exact hg.reachable_of_makeState hkey he hu

theorem Expanded.refused_of_expand (hg : g.Sound) {rows : List (List Edge)} (h : d.Expanded g rows)
    (herror : d.expand g rows.length = .error f) : Refused g limit f := by
  generalize hnext : rows.length = next at herror
  fun_induction Draft.expand g d next generalizing rows with
  | case1 d next hlt ih =>
    subst hnext
    have hs : d.table.get? rows.length = some d.table.states[rows.length] :=
      Array.getElem?_eq_getElem hlt
    obtain ⟨ts, hts⟩ := (h.states _ _ hs).1.exists_successors hg
    have htargets := h.isState_of_mem_successors hg hs hts
    rw [hts] at herror
    rcases bind_eq_error.1 herror with herror | ⟨_, hok, herror⟩
    · cases herror
    cases hok
    rcases bind_eq_error.1 herror with herror | ⟨d₁, hmark, herror⟩
    · exact refused_of_mark hg h herror
    rcases bind_eq_error.1 herror with herror | ⟨d₂, hadd, herror⟩
    · exact refused_of_addEdges hg rows.length htargets ((of_mark hmark).1 ▸ h.reached) herror
    obtain ⟨row, hrow⟩ := h.expand_one hg hs hts hmark hadd
    exact ih d₂ hrow List.length_append herror
  | case2 d next _ => exact refused_of_mark hg h herror

end Draft

/-! ## The whole automaton -/

theorem reached_empty (g : Graph) : Reached g .empty where
  indexed := StateTable.indexed_empty
  states := fun _ _ hu => absurd (StateTable.lt_size_of_get? hu) (Nat.not_lt_zero _)

/-- **Refusal.**  Building is refused only for one of the two reasons. -/
theorem refused_of_build (hg : g.Sound) {maxStates : Nat} {f : Fault}
    (h : build g maxStates = .error f) : Refused g (limitOf maxStates) f := by
  have hs : g.makeState .deciding .empty = .ok (g.stateOf .deciding (g.normalize .empty)) :=
    (makeState_eq_ok hg).2 ⟨trivial, rfl⟩
  have hstate := hg.isState_of_makeState (show g.Involves .deciding from trivial) hs
  have hkey : g.ReachableKey (g.stateOf .deciding (g.normalize .empty)).key := by
    rw [stateOf, hg.keyOf_normalize_empty]
    exact .initial
  unfold build at h
  rw [hs] at h
  rcases bind_eq_error.1 h with h | ⟨_, hok, h⟩
  · cases h
  cases hok
  rcases bind_eq_error.1 h with h | ⟨⟨d, id⟩, hintern, h⟩
  · exact Draft.refused_of_intern hg (reached_empty g) hstate hkey h
  rcases bind_eq_error.1 h with h | ⟨d', _, h⟩
  · exact (Draft.expanded_intern hg hs hintern).refused_of_expand hg h
  · cases h

/-- **Success.**  A graph whose reachable keys and their moves are within the bounds has an
automaton. -/
theorem exists_build (hg : g.Sound) {maxStates : Nat} (hstates : g.stateCount ≤ limitOf maxStates)
    (hedges : g.edgeCount ≤ maxWord) : ∃ m, build g maxStates = .ok m := by
  cases h : build g maxStates with
  | ok m => exact ⟨m, rfl⟩
  | error f =>
    cases refused_of_build hg h with
    | states hfull => exact absurd hstates (Nat.not_le.2 hfull)
    | edges hfull => exact absurd hedges (Nat.not_le.2 hfull)

end Automaton

namespace Graph

/-! ## The small graph -/

/-- Keys that the moves do not lead out of hold every reachable key. -/
theorem ReachableKey.mem_of_closed {keys : List StateKey}
    (hinitial : ⟨.deciding, [], []⟩ ∈ keys)
    (hclosed : ∀ k ∈ keys, ∀ m phase c, (m, some (phase, c)) ∈ g.moves k.phase k.configuration →
      g.keyOf phase (g.normalize c) ∈ keys) {k : StateKey} (hk : g.ReachableKey k) : k ∈ keys := by
  induction hk with
  | initial => exact hinitial
  | step _ hmem ih => exact hclosed _ ih _ _ _ hmem

/-- An attack that costs something and may fail, under an alarm. -/
def vaultKeys : List StateKey := [
  ⟨.deciding, [], []⟩, ⟨.paying 1, [], []⟩, ⟨.deciding, [1], []⟩, ⟨.waiting, [1], []⟩,
  ⟨.attempting 1, [1], []⟩, ⟨.deciding, [], [3]⟩, ⟨.resetting 0, [1], []⟩]

theorem owners_vault : vault.owners 0 = [2] :=
  getD_ofList_map (List.pairwise_singleton _ 0) (fun _ => [2]) 0

theorem applyDefense_vault : vault.applyDefense 0 ⟨.ofList [1], .ofList []⟩ = .empty := by
  unfold applyDefense
  rw [owners_vault]
  decide +kernel

theorem closed_vaultKeys : ∀ k ∈ vaultKeys, ∀ e ∈ vault.moves k.phase k.configuration,
    e.2.all fun t => vault.keyOf t.1 (vault.normalize t.2) ∈ vaultKeys := by
  -- the table of owners does not compute, so the alarm that succeeds stands apart
  have hreset : ∀ e ∈ [
      (Move.defenseOutcome 0 true (vault.successOf 0),
        some (Phase.deciding, vault.applyDefense 0 ⟨.ofList [1], .ofList []⟩)),
      (.defenseOutcome 0 false (vault.successOf 0).complement,
        some (.deciding, ⟨.ofList [1], .ofList []⟩))],
      e.2.all fun t => vault.keyOf t.1 (vault.normalize t.2) ∈ vaultKeys := by
    rw [applyDefense_vault]
    decide +kernel
  have hothers : ∀ k ∈ vaultKeys.take 6, ∀ e ∈ vault.moves k.phase k.configuration,
      e.2.all fun t => vault.keyOf t.1 (vault.normalize t.2) ∈ vaultKeys := by
    decide +kernel
  intro k hk
  rcases List.mem_append.1 (show k ∈ vaultKeys.take 6 ++ [_] from hk) with hk | hk
  · exact hothers k hk
  · obtain rfl := List.mem_singleton.1 hk
    exact hreset

theorem mem_vaultKeys {k : StateKey} (hk : vault.ReachableKey k) : k ∈ vaultKeys :=
  hk.mem_of_closed (by decide) fun k hk m phase c hmem => by
    simpa using closed_vaultKeys k hk _ hmem

theorem edgeCount_vault_le : vault.edgeCount ≤ Automaton.maxWord := by
  refine le_trans (edgeCount_le_sum_moveCount built_vault.sound ?_ fun _ => mem_vaultKeys) ?_
  · decide
  · decide +kernel

/-- One move further, with the key that it leads to written out. -/
theorem ReachableKey.next {k k' : StateKey} (hk : g.ReachableKey k) (m : Move) (c : Configuration)
    (hmem : (m, some (k'.phase, c)) ∈ g.moves k.phase k.configuration)
    (hkey : g.keyOf k'.phase (g.normalize c) = k') : g.ReachableKey k' :=
  hkey ▸ hk.step hmem

/-- Every key of the list is reached. -/
theorem reachableKey_of_mem_vaultKeys : ∀ k ∈ vaultKeys, vault.ReachableKey k := by
  have hpaying : vault.ReachableKey ⟨.paying 1, [], []⟩ :=
    ReachableKey.initial.next (.pay 1) .empty (by decide +kernel) (by decide +kernel)
  have hunderway : vault.ReachableKey ⟨.deciding, [1], []⟩ :=
    hpaying.next (.start 1) ⟨.ofList [1], .empty⟩ (by decide +kernel) (by decide +kernel)
  have hwaiting : vault.ReachableKey ⟨.waiting, [1], []⟩ :=
    hunderway.next .wait ⟨.ofList [1], .empty⟩ (by decide +kernel) (by decide +kernel)
  have hattempting : vault.ReachableKey ⟨.attempting 1, [1], []⟩ :=
    hwaiting.next (.finish 1) ⟨.ofList [1], .empty⟩ (by decide +kernel) (by decide +kernel)
  have hreached : vault.ReachableKey ⟨.deciding, [], [3]⟩ :=
    hattempting.next (.attackOutcome 1 true (vault.successOf 1)) ⟨.ofList [1], .ofList [1]⟩
      (by decide +kernel) (by decide +kernel)
  have hresetting : vault.ReachableKey ⟨.resetting 0, [1], []⟩ :=
    hwaiting.next (.strike 0) ⟨.ofList [1], .empty⟩ (by decide +kernel) (by decide +kernel)
  simp only [vaultKeys, List.forall_mem_cons]
  exact ⟨.initial, hpaying, hunderway, hwaiting, hattempting, hreached, hresetting, by simp⟩

/-- The attack may be underway, and the goal may be reached. -/
theorem reachableKey_vault :
    vault.ReachableKey ⟨.waiting, [1], []⟩ ∧ vault.ReachableKey ⟨.deciding, [], [3]⟩ :=
  ⟨reachableKey_of_mem_vaultKeys _ (by decide), reachableKey_of_mem_vaultKeys _ (by decide)⟩

theorem stateCount_vault : vault.stateCount = 7 := by
  apply Nat.le_antisymm
  · exact stateCount_le_length built_vault.sound fun _ => mem_vaultKeys
  · exact length_le_stateCount built_vault.sound (by decide) reachableKey_of_mem_vaultKeys

theorem exists_build_vault : ∃ m, Automaton.build vault 7 = .ok m :=
  Automaton.exists_build built_vault.sound (by rw [stateCount_vault]; decide) edgeCount_vault_le

/-! ## The office -/

/-- Nothing costs anything and nothing can fail, so in all states the attacker decides or waits. -/
def officeStates : List (Phase × Configuration) :=
  let idle : List Configuration := [
    ⟨.ofList [], .ofList []⟩, ⟨.ofList [], .ofList [2]⟩, ⟨.ofList [], .ofList [4]⟩]
  let busy : List Configuration := [
    ⟨.ofList [2], .ofList []⟩, ⟨.ofList [3], .ofList []⟩, ⟨.ofList [2, 3], .ofList []⟩,
    ⟨.ofList [3], .ofList [2]⟩, ⟨.ofList [], .ofList [3]⟩, ⟨.ofList [2], .ofList [3]⟩]
  (idle ++ busy).map (.deciding, ·) ++ busy.map (.waiting, ·)

/-- A reset of the theft, without the table of owners. -/
theorem applyDefense_office {d : NodeId} (hd : d ∈ office.defenses) (c : Configuration) :
    office.applyDefense d c =
      ([3].filter fun o => !office.behindCheckpoint c.completed o).foldl office.resetOwner c := by
  rw [applyDefense, owners_office d hd]

theorem closed_officeStates {phase phase' : Phase} {c c' : Configuration} {m : Move}
    (hstate : (phase, c) ∈ officeStates) (h : (m, some (phase', c')) ∈ office.moves phase c) :
    (phase', office.normalize c') ∈ officeStates := by
  have hdecide : ∀ p ∈ officeStates, ∀ e ∈ office.moves .deciding p.2,
      e.2.all fun t => (t.1, office.normalize t.2) ∈ officeStates := by
    decide +kernel
  have hfinish : ∀ p ∈ officeStates, ∀ a ∈ office.attacks, a ∈ p.2.activated →
      (office.finishMove p.2 a).2.all fun t => (t.1, office.normalize t.2) ∈ officeStates := by
    decide +kernel
  have hreset : ∀ d ∈ office.defenses, ∀ p ∈ officeStates,
      (.deciding, office.normalize (office.applyDefense d p.2)) ∈ officeStates := by
    intro d hd
    simp only [applyDefense_office hd]
    decide +kernel
  have hcertain : ∀ d ∈ office.defenses, ¬ (office.successOf d).BelowOne := by decide +kernel
  have hphase : ∀ p ∈ officeStates, p.1 = .deciding ∨ p.1 = .waiting := by decide
  rcases hphase _ hstate with rfl | rfl
  · simpa using hdecide _ hstate _ h
  · rcases mem_moves_waiting.1 h with ⟨a, ha, hunderway, he⟩ | ⟨d, hd, he⟩
    · have hentry := hfinish _ hstate a ha hunderway
      rw [he] at hentry
      simpa using hentry
    · rcases strikeMove_eq_some he with ⟨_, hbelow, _⟩ | ⟨rfl, _, rfl⟩
      · exact absurd hbelow (hcertain d hd)
      · exact hreset d hd (.waiting, c) hstate

/-- The keys of the states of the office. -/
def officeKeys : List StateKey := officeStates.map fun p => office.keyOf p.1 p.2

theorem mem_officeKeys {k : StateKey} (hk : office.ReachableKey k) : k ∈ officeKeys := by
  refine hk.mem_of_closed ?_ fun k hk m phase c hmem => ?_
  · have hinitial := built_office.sound.keyOf_normalize_empty
    rw [built_office.sound.normalize_empty] at hinitial
    exact List.mem_map.2 ⟨(.deciding, .empty), by decide, hinitial⟩
  · obtain ⟨⟨_, _⟩, hp, rfl⟩ := List.mem_map.1 hk
    rw [configuration_keyOf] at hmem
    exact List.mem_map.2 ⟨_, closed_officeStates hp hmem, rfl⟩

theorem edgeCount_office_le : office.edgeCount ≤ Automaton.maxWord := by
  have hnodup : officeKeys.Nodup := by
    refine List.Nodup.map (fun p q h => ?_) (by decide)
    exact Prod.ext_iff.2 (keyOf_inj.1 h)
  refine le_trans (edgeCount_le_sum_moveCount built_office.sound hnodup fun _ => mem_officeKeys) ?_
  simp only [officeKeys, List.map_map, Function.comp_def, moveCount_keyOf]
  decide +kernel

theorem exists_build_office : ∃ m, Automaton.build office 15 = .ok m := by
  have hstates : office.stateCount ≤ Automaton.limitOf 15 :=
    stateCount_le_length built_office.sound fun _ => mem_officeKeys
  exact Automaton.exists_build built_office.sound hstates edgeCount_office_le

/-- While the theft is underway behind the bribe, the alarm and the patrol may go off. -/
theorem reachableKey_office : office.ReachableKey ⟨.waiting, [3], [2]⟩ := by
  have hbribing : office.ReachableKey ⟨.deciding, [2], []⟩ :=
    ReachableKey.initial.next (.start 2) ⟨.ofList [2], .empty⟩ (by decide +kernel)
      (by decide +kernel)
  have hwaiting : office.ReachableKey ⟨.waiting, [2], []⟩ :=
    hbribing.next .wait ⟨.ofList [2], .empty⟩ (by decide +kernel) (by decide +kernel)
  have hbribed : office.ReachableKey ⟨.deciding, [], [2]⟩ :=
    hwaiting.next (.finish 2) ⟨.ofList [2], .ofList [2]⟩ (by decide +kernel) (by decide +kernel)
  have hstealing : office.ReachableKey ⟨.deciding, [3], [2]⟩ :=
    hbribed.next (.start 3) ⟨.ofList [3], .ofList [2]⟩ (by decide +kernel) (by decide +kernel)
  exact hstealing.next .wait ⟨.ofList [3], .ofList [2]⟩ (by decide +kernel) (by decide +kernel)

end Graph

end AttackDefense
