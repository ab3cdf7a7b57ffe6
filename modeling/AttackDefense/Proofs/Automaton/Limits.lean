import AttackDefense.Proofs.Automaton.Reachable

/-!
# The bounds of building are exact

An automaton has as many states as there are reachable keys and as many edges as moves that leave
them, so together with `refused_of_build` the outcome of building is decided by these two numbers
(`build_outcome`).  A larger bound on the states gives the same automaton:

    build g maxStates = .ok m → limitOf maxStates ≤ limitOf maxStates' →
      build g maxStates' = .ok { m with maxStates := maxStates' }                 (build_of_le)

Two main results follow: building never reports a defect of its own (`build_reports_no_defect`), and
it is refused for its states exactly when the reachable keys exceed the bound
(`state_limit_is_exact`).
-/

namespace AttackDefense.Automaton

open AttackDefense.Graph

variable {g : Graph} {m : Automaton} {maxStates : Nat}

/-! ## A larger bound -/

namespace Draft

variable {limit limit' : Nat} {d d' : Draft limit}

/-- The draft under a larger bound. -/
def relax (d : Draft limit) (h : limit ≤ limit') : Draft limit' :=
  ⟨d.table, d.edges, d.offsets, d.accepting, Nat.le_trans d.size_le h⟩

variable (h : limit ≤ limit')

theorem intern_relax {s : State} {id : StateId} (hok : d.intern g s = .ok (d', id)) :
    (d.relax h).intern g s = .ok (d'.relax h, id) := by
  obtain ⟨t, isNew, hsize, ht, rfl⟩ := intern_eq_ok.1 hok
  exact intern_eq_ok.2 ⟨t, isNew, Nat.le_trans hsize h, ht, rfl⟩

theorem mark_relax (hok : d.mark = .ok d') : (d.relax h).mark = .ok (d'.relax h) := by
  unfold mark at hok ⊢
  split at hok
  · next hsize =>
    cases hok
    exact if_pos hsize
  · cases hok

theorem addEdges_relax {source : StateId} {ts : List (Target × Move)}
    (hok : d.addEdges g source ts = .ok d') :
    (d.relax h).addEdges g source ts = .ok (d'.relax h) := by
  induction ts generalizing d with
  | nil =>
    cases hok
    rfl
  | cons t ts ih =>
    obtain ⟨target, m⟩ := t
    cases target with
    | itself => exact ih (d := d.addEdge ⟨source, source, m⟩) hok
    | state s =>
      obtain ⟨⟨d₁, id⟩, hintern, hok⟩ := bind_eq_ok.1 hok
      exact bind_eq_ok.2 ⟨_, intern_relax h hintern, ih (d := d₁.addEdge ⟨source, id, m⟩) hok⟩

theorem expand_relax {next : StateId} (hok : d.expand g next = .ok d') :
    (d.relax h).expand g next = .ok (d'.relax h) := by
  fun_induction Draft.expand g d next with
  | case1 d next hlt ih =>
    obtain ⟨ts, hts, hok⟩ := bind_eq_ok.1 hok
    obtain ⟨d₁, hmark, hok⟩ := bind_eq_ok.1 hok
    obtain ⟨d₂, hadd, hok⟩ := bind_eq_ok.1 hok
    rw [Draft.expand, dif_pos (show next < (d.relax h).table.states.size from hlt)]
    exact bind_eq_ok.2 ⟨ts, hts, bind_eq_ok.2 ⟨_, mark_relax h hmark,
      bind_eq_ok.2 ⟨_, addEdges_relax h hadd, ih d₂ hok⟩⟩⟩
  | case2 d next hge =>
    rw [Draft.expand, dif_neg (show ¬ next < (d.relax h).table.states.size from hge)]
    exact mark_relax h hok

end Draft

/-- A larger bound gives the same automaton. -/
theorem build_of_le {maxStates' : Nat} (h : build g maxStates = .ok m)
    (hle : limitOf maxStates ≤ limitOf maxStates') :
    build g maxStates' = .ok { m with maxStates := maxStates' } := by
  obtain ⟨initial, hinitial, h⟩ := bind_eq_ok.1 h
  obtain ⟨⟨d, id⟩, hintern, h⟩ := bind_eq_ok.1 h
  obtain ⟨d', hexpand, h⟩ := bind_eq_ok.1 h
  obtain rfl := Except.ok.inj h
  exact bind_eq_ok.2 ⟨initial, hinitial, bind_eq_ok.2 ⟨_, Draft.intern_relax hle hintern,
    bind_eq_ok.2 ⟨_, Draft.expand_relax hle hexpand, rfl⟩⟩⟩

/-! ## The size of an automaton -/

theorem Unfolds.reached (h : m.Unfolds g) : Reached g m.table := ⟨h.indexed, h.states⟩

theorem Unfolds.mem_keys (h : m.Unfolds g) {k : StateKey} (hk : g.ReachableKey k) :
    k ∈ keys m.table := by
  obtain ⟨i, s, hs, rfl⟩ := h.exists_state_iff.2 hk
  refine List.mem_iff_getElem?.2 ⟨i, ?_⟩
  rw [getElem?_keys]
  exact congrArg (Option.map State.key) hs

theorem Unfolds.size_eq (hg : g.Sound) (h : m.Unfolds g) : m.size = g.stateCount := by
  apply Nat.le_antisymm (h.reached.size_le hg)
  calc g.stateCount
    _ ≤ (keys m.table).length := stateCount_le_length hg fun _ => h.mem_keys
    _ = m.size := length_keys m.table

/-- What is said of each number in terms of the key at it. -/
theorem map_range_size {β : Type} {f : StateId → β} {f' : StateKey → β}
    (h : ∀ i s, m.state? i = some s → f i = f' s.key) :
    (List.range m.size).map f = (keys m.table).map f' := by
  apply List.ext_getElem?
  intro i
  rw [List.getElem?_map, List.getElem?_map, getElem?_keys]
  cases hs : m.table.get? i with
  | none =>
    have hge : m.size ≤ i := Array.getElem?_eq_none_iff.1 hs
    rw [List.getElem?_eq_none (by simpa using hge)]
    rfl
  | some s =>
    have hlt : i < m.size := StateTable.lt_size_of_get? hs
    rw [List.getElem?_range hlt]
    exact congrArg some (h i s hs)

theorem Unfolds.edges_size_eq (hg : g.Sound) (h : m.Unfolds g) : m.edges.size = g.edgeCount := by
  have hlengths : (List.range m.size).map (fun i => (m.edgesOf i).length) =
      (keys m.table).map g.moveCount :=
    map_range_size fun i s hs => (h.rows i s hs).length_eq
  have hsum : m.edges.size = ((keys m.table).map g.moveCount).sum := by
    rw [← hlengths, ← Array.length_toList, ← h.edges, List.length_flatMap]
  rw [hsum]
  apply Nat.le_antisymm
  · exact sum_moveCount_le_edgeCount hg h.indexed.nodup_keys h.reached.reachable_of_mem
  · exact edgeCount_le_sum_moveCount hg h.indexed.nodup_keys fun _ => h.mem_keys

/-- What is built is within the bounds. -/
theorem size_le_of_build (hg : g.Sound) (h : build g maxStates = .ok m) :
    m.size ≤ limitOf maxStates ∧ m.edges.size ≤ maxWord := by
  obtain ⟨initial, hinitial, h⟩ := bind_eq_ok.1 h
  obtain ⟨⟨d, id⟩, hintern, h⟩ := bind_eq_ok.1 h
  obtain ⟨d', hexpand, h⟩ := bind_eq_ok.1 h
  obtain ⟨_, d₁, _, _, hmark⟩ := (Draft.expanded_intern hg hinitial hintern).expand hg hexpand
  obtain rfl := Except.ok.inj h
  refine ⟨d'.size_le, ?_⟩
  show d'.edges.size ≤ maxWord
  rw [(Draft.of_mark hmark).2.1]
  unfold Draft.mark at hmark
  split at hmark
  · assumption
  · cases hmark

/-- **Outcome.**  An automaton with all reachable keys and their moves, or the reason why there is
none within the bounds. -/
theorem build_outcome (hg : g.Sound) (maxStates : Nat) :
    (∃ m, build g maxStates = .ok m ∧ m.size = g.stateCount ∧ g.stateCount ≤ limitOf maxStates ∧
      g.edgeCount ≤ maxWord) ∨
    (build g maxStates = .error (.stateLimit (limitOf maxStates)) ∧
      limitOf maxStates < g.stateCount) ∨
    (build g maxStates = .error (.edgeLimit maxWord) ∧ maxWord < g.edgeCount) := by
  cases h : build g maxStates with
  | ok m =>
    have hm := unfolds_of_build hg h
    obtain ⟨hsize, hedges⟩ := size_le_of_build hg h
    exact .inl ⟨m, rfl, hm.size_eq hg, hm.size_eq hg ▸ hsize, hm.edges_size_eq hg ▸ hedges⟩
  | error f =>
    cases refused_of_build hg h with
    | states hfull => exact .inr (.inl ⟨rfl, hfull⟩)
    | edges hfull => exact .inr (.inr ⟨rfl, hfull⟩)

/-! ## Defects -/

/-- **No defect.**  Building is refused only for too many states or edges.  Every state of an
automaton, and every state that a move from a reachable key asks for, has the attack available that
it pays for, has the attack underway that it is about, or has the defense in scope that it is about;
and states that have one key are the same. -/
theorem build_reports_no_defect (hg : g.Built) (maxStates : Nat) :
    (∀ f, build g maxStates = .error f →
      f = .stateLimit (limitOf maxStates) ∨ f = .edgeLimit maxWord) ∧
    (∀ m i s, build g maxStates = .ok m → m.state? i = some s →
      g.Admits s.phase s.configuration) ∧
    (∀ k, g.ReachableKey k →
      ∀ move phase c, (move, some (phase, c)) ∈ g.moves k.phase k.configuration →
      ∃ s, g.makeState phase c = .ok s ∧ g.Admits s.phase s.configuration) ∧
    (∀ phase c s phase' c' s', g.makeState phase c = .ok s → g.makeState phase' c' = .ok s' →
      s.key = s'.key → s = s') := by
  have hg := hg.sound
  refine ⟨fun f h => ?_, fun m i s h hs => ?_, fun k hk move phase c hmem => ?_, ?_⟩
  · cases refused_of_build hg h with
    | states _ => exact .inl rfl
    | edges _ => exact .inr rfl
  · exact ((unfolds_of_build hg h).states i s hs).1.admits
  · have hregular := (hk.regular hg).step hg hmem
    refine ⟨_, (makeState_eq_ok hg).2 ⟨hregular.admits, rfl⟩, ?_⟩
    rw [configuration_stateOf]
    exact hregular.admits
  · intro phase c s phase' c' s' hs hs' hkey
    rw [((makeState_eq_ok hg).1 hs).2, ((makeState_eq_ok hg).1 hs').2] at hkey ⊢
    obtain rfl : phase = phase' := congrArg StateKey.phase hkey
    have hconfiguration := congrArg StateKey.configuration hkey
    simp only [stateOf, configuration_keyOf] at hconfiguration
    rw [hconfiguration]

/-- The vault has its states of both kinds, and a bound that is too small is no defect. -/
theorem build_reports_no_defect_vault :
    (∃ m i s, build vault 7 = .ok m ∧ m.state? i = some s ∧ s.phase = .attempting 1 ∧
      1 ∈ s.configuration.activated) ∧
    (∀ f, build vault 6 = .error f → f = .stateLimit 6 ∨ f = .edgeLimit maxWord) := by
  obtain ⟨m, hm⟩ := exists_build_vault
  obtain ⟨i, s, hs, hkey⟩ := (unfolds_of_build built_vault.sound hm).exists_state_iff.2
    (reachableKey_of_mem_vaultKeys ⟨.attempting 1, [1], []⟩ (by decide))
  have hphase : s.phase = .attempting 1 := congrArg StateKey.phase hkey
  have hadmits := (build_reports_no_defect built_vault 7).2.1 m i s hm hs
  rw [hphase] at hadmits
  exact ⟨⟨m, i, s, hm, hs, hphase, hadmits⟩, (build_reports_no_defect built_vault 6).1⟩

/-! ## The state limit -/

/-- A number that is given out while building is within the bound. -/
theorem Draft.id_le {limit : Nat} (d : Draft limit) {s : State} {t : StateTable} {id : StateId}
    {isNew : Bool} (h : d.table.intern s = .ok (t, id, isNew)) : id ≤ limit := by
  rcases StateTable.intern_eq_ok.1 h with ⟨_, _, rfl, _⟩ | ⟨_, hany, _, _⟩
  · exact d.size_le
  · obtain ⟨old, hold, _⟩ := (Option.any_eq_true _ _).1 hany
    exact Nat.le_trans (Nat.le_of_lt (StateTable.lt_size_of_get? hold)) d.size_le

theorem toNat_ofNat_of_le {id : Nat} (h : id ≤ limitOf maxStates) :
    (UInt32.ofNat id).toNat = id := by
  have hword : id ≤ maxWord := Nat.le_trans h (Nat.min_le_right _ _)
  exact UInt32.toNat_ofNat_of_lt (Nat.lt_of_le_of_lt hword (by decide))

/-- **The state limit is exact.**  There are finitely many reachable keys.  With `limit` states
allowed: if the edges fit, building gives an automaton with all of them if they are at most `limit`,
and reports the limit if they are more; if the edges do not fit, the edge limit may be reported
instead.  An automaton does not depend on the bound it was built with.  Every state is found under
the number at which it stands, and every number that is given out while building fits into 32
bits, also if the limit is then reported. -/
theorem state_limit_is_exact (hg : g.Built) (maxStates : Nat) :
    {k | g.ReachableKey k}.Finite ∧
    (g.edgeCount ≤ maxWord → g.stateCount ≤ limitOf maxStates →
      ∃ m, build g maxStates = .ok m ∧ m.size = g.stateCount) ∧
    (g.edgeCount ≤ maxWord → limitOf maxStates < g.stateCount →
      build g maxStates = .error (.stateLimit (limitOf maxStates))) ∧
    (maxWord < g.edgeCount → build g maxStates = .error (.edgeLimit maxWord) ∨
      build g maxStates = .error (.stateLimit (limitOf maxStates)) ∧
        limitOf maxStates < g.stateCount) ∧
    (∀ maxStates' m m', build g maxStates = .ok m → build g maxStates' = .ok m' →
      m'.table = m.table ∧ m'.edges = m.edges ∧ m'.offsets = m.offsets ∧
        m'.accepting = m.accepting) ∧
    (∀ m i s, build g maxStates = .ok m → m.state? i = some s →
      m.find? s.key = some i ∧ (UInt32.ofNat i).toNat = i) ∧
    (∀ (d : Draft (limitOf maxStates)) s t id isNew, d.table.intern s = .ok (t, id, isNew) →
      (UInt32.ofNat id).toNat = id) := by
  have hg := hg.sound
  refine ⟨hg.finite_reachableKey, fun hedges hstates => ?_, fun hedges hstates => ?_,
    fun hedges => ?_, fun maxStates' m m' hm hm' => ?_, fun m i s hm hs => ⟨?_, ?_⟩,
    fun d s t id isNew h => ?_⟩
  · obtain ⟨m, hm⟩ := exists_build hg hstates hedges
    exact ⟨m, hm, (unfolds_of_build hg hm).size_eq hg⟩
  · rcases build_outcome hg maxStates with ⟨_, _, _, hle, _⟩ | ⟨h, _⟩ | ⟨_, hfull⟩
    · exact absurd hstates (Nat.not_lt.2 hle)
    · exact h
    · exact absurd hedges (Nat.not_le.2 hfull)
  · rcases build_outcome hg maxStates with ⟨_, _, _, _, hle⟩ | h | ⟨h, _⟩
    · exact absurd hedges (Nat.not_lt.2 hle)
    · exact .inr h
    · exact .inl h
  · rcases Nat.le_total (limitOf maxStates) (limitOf maxStates') with hle | hle
    · obtain rfl := Except.ok.inj (hm'.symm.trans (build_of_le hm hle))
      exact ⟨rfl, rfl, rfl, rfl⟩
    · obtain rfl := Except.ok.inj (hm.symm.trans (build_of_le hm' hle))
      exact ⟨rfl, rfl, rfl, rfl⟩
  · exact ((unfolds_of_build hg hm).indexed _ _).2 ⟨s, hs, rfl⟩
  · have hlt : i < m.size := StateTable.lt_size_of_get? hs
    exact toNat_ofNat_of_le (Nat.le_trans (Nat.le_of_lt hlt) (size_le_of_build hg hm).1)
  · exact toNat_ofNat_of_le (d.id_le h)

/-- The vault has seven states, so it fits into seven and does not fit into six. -/
theorem state_limit_is_exact_vault :
    (∃ m, build vault 7 = .ok m ∧ m.size = 7) ∧ build vault 6 = .error (.stateLimit 6) := by
  obtain ⟨_, hfits, _⟩ := state_limit_is_exact built_vault 7
  obtain ⟨_, _, hfull, _⟩ := state_limit_is_exact built_vault 6
  rw [stateCount_vault] at hfits hfull
  exact ⟨hfits edgeCount_vault_le (by decide), hfull edgeCount_vault_le (by decide)⟩

end AttackDefense.Automaton
