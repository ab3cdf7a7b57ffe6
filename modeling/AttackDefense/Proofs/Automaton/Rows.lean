import AttackDefense.Automaton.Build
import AttackDefense.Proofs.Automaton.Moves
import AttackDefense.Proofs.Automaton.StateTable

/-!
# States are expanded row by row

`g.ReachableKey k` says that the moves of the table lead from the initial key to `k`.  The builder
keeps an invariant, `Draft.Expanded g rows d`: the first states of the draft have their rows, whose
edges fit the table of moves entry by entry, the edges of the draft are these rows one behind the
other, and every state of the draft has a reachable key.

    d.Expanded rows → (one more state is expanded, d₂) → ∃ row, d₂.Expanded (rows ++ [row])
                                                                    (Expanded.expand_one)
    d.Expanded rows → d.expand g rows.length = .ok d' → all states of d' have rows
                                                                    (Expanded.expand)
-/

namespace AttackDefense

open AttackDefense.Tree

variable {g : Graph}

namespace Graph

/-! ## Reachable keys -/

/-- The keys that the moves lead to, each followed by making the configuration canonical. -/
inductive ReachableKey (g : Graph) : StateKey → Prop
  | initial : ReachableKey g ⟨.deciding, [], []⟩
  | step {k : StateKey} {m : Move} {phase : Phase} {c : Configuration} : ReachableKey g k →
    (m, some (phase, c)) ∈ g.moves k.phase k.configuration →
    ReachableKey g (g.keyOf phase (g.normalize c))

/-- What holds of the states of a graph: the configuration is canonical and has the node that the
phase is about, and the other fields follow from these two. -/
structure IsState (g : Graph) (s : State) : Prop where
  involves : g.Involves s.phase
  admits : g.Admits s.phase s.configuration
  canonical : g.normalize s.configuration = s.configuration
  eq_stateOf : s = g.stateOf s.phase s.configuration

theorem Sound.isState_of_makeState (hg : g.Sound) {phase : Phase} {c : Configuration} {s : State}
    (hphase : g.Involves phase) (h : g.makeState phase c = .ok s) : g.IsState s := by
  obtain ⟨hadmits, rfl⟩ := (makeState_eq_ok hg).1 h
  constructor
  · exact hphase
  · rwa [configuration_stateOf]
  · rw [configuration_stateOf, hg.normalize_normalize_eq]
  · rw [configuration_stateOf]
    rfl

theorem IsState.successors_eq_ok (hg : g.Sound) {s : State} (hs : g.IsState s)
    {ts : List (Target × Move)} :
    g.successors s = .ok ts ↔ List.Forall₂ g.Made ts (g.moves s.phase s.configuration) :=
  hg.successors_eq_ok hs.involves (congrArg State.activeDefenses hs.eq_stateOf)

theorem Sound.reachable_of_makeState (hg : g.Sound) {s u : State} (hs : g.ReachableKey s.key)
    {m : Move} {phase : Phase} {c : Configuration}
    (hmem : (m, some (phase, c)) ∈ g.moves s.phase s.configuration)
    (hu : g.makeState phase c = .ok u) : g.IsState u ∧ g.ReachableKey u.key := by
  refine ⟨hg.isState_of_makeState (step_of_mem_moves hmem).involves hu, ?_⟩
  rw [((makeState_eq_ok hg).1 hu).2]
  exact .step hs hmem

/-- Nothing follows from nothing. -/
theorem Sound.canonical_empty (hg : g.Sound) : g.Canonical .empty where
  kept := by simp [Configuration.empty]
  underway := by simp [Configuration.empty]
  closed := by
    intro x _ hsup
    obtain ⟨c, _, hc⟩ := hsup.exists_child hg.tree
    simp [Configuration.empty] at hc

theorem Sound.normalize_empty (hg : g.Sound) : g.normalize .empty = .empty :=
  hg.normalize_eq_self_iff.2 hg.canonical_empty

theorem Sound.keyOf_normalize_empty (hg : g.Sound) :
    g.keyOf .deciding (g.normalize .empty) = ⟨.deciding, [], []⟩ := by
  rw [hg.normalize_empty]
  simp [keyOf, sortedByName, Configuration.empty, NodeSet.empty]

end Graph

namespace Automaton

open AttackDefense.Graph

/-! ## Rows -/

/-- The edge of a state for an entry of the table of moves. -/
def Leads (g : Graph) (t : StateTable) (source : StateId) (e : Edge)
    (entry : Move × Option (Phase × Configuration)) : Prop :=
  e.source = source ∧ e.move = entry.1 ∧
    match entry.2 with
    | none => e.destination = source
    | some (phase, c) => t.find? (g.keyOf phase (g.normalize c)) = some e.destination

theorem Leads.extends {t t' : StateTable} (ht : t.Indexed) (ht' : t'.Indexed) (hext : t.Extends t')
    {source : StateId} {e : Edge} {entry : Move × Option (Phase × Configuration)}
    (h : Leads g t source e entry) : Leads g t' source e entry := by
  obtain ⟨hsource, hmove, h⟩ := h
  refine ⟨hsource, hmove, ?_⟩
  split at h
  · exact h
  · obtain ⟨s, hs, hkey⟩ := (ht _ _).1 h
    exact (ht' _ _).2 ⟨s, hext _ _ hs, hkey⟩

namespace Draft

variable {limit : Nat} {d d' : Draft limit}

theorem intern_eq_ok {s : State} {id : StateId} :
    d.intern g s = .ok (d', id) ↔ ∃ t isNew, ∃ h : t.size ≤ limit,
      d.table.intern s = .ok (t, id, isNew) ∧
      d' = ⟨t, d.edges, d.offsets,
        if isNew && s.accepting && d.accepting.isNone then some id else d.accepting, h⟩ := by
  obtain ⟨table, edges, offsets, accepting, hsize⟩ := d
  unfold intern
  dsimp only
  cases table.intern s with
  | error e => simp
  | ok r =>
    obtain ⟨t, id', isNew⟩ := r
    dsimp only
    by_cases h : t.size ≤ limit
    · rw [dif_pos h]
      constructor
      · rintro ⟨⟩
        exact ⟨t, isNew, h, rfl, rfl⟩
      · rintro ⟨_, _, _, ⟨⟩, rfl⟩
        rfl
    · rw [dif_neg h]
      constructor
      · rintro ⟨⟩
      · rintro ⟨_, _, h', ⟨⟩, _⟩
        exact absurd h' h

/-- What is known of a draft after a state has been interned. -/
theorem of_intern (hd : d.table.Indexed) {s : State} {id : StateId}
    (h : d.intern g s = .ok (d', id)) :
    d'.edges = d.edges ∧ d'.offsets = d.offsets ∧ d'.table.Indexed ∧ d.table.Extends d'.table ∧
      d'.table.get? id = some s ∧
      ∀ j u, d'.table.get? j = some u → d.table.get? j = some u ∨ u = s := by
  obtain ⟨t, isNew, hlimit, ht, rfl⟩ := intern_eq_ok.1 h
  exact ⟨rfl, rfl, hd.intern ht⟩

theorem of_mark (h : d.mark = .ok d') :
    d'.table = d.table ∧ d'.edges = d.edges ∧ d'.offsets = d.offsets.push d.edges.size := by
  unfold mark at h
  split at h
  · cases h
    exact ⟨rfl, rfl, rfl⟩
  · cases h

/-- What is known of a draft after the edges of a state have been added to it. -/
structure RowAdded (g : Graph) (source : StateId)
    (entries : List (Move × Option (Phase × Configuration))) (row : List Edge)
    (d d' : Draft limit) : Prop where
  edges : d'.edges.toList = d.edges.toList ++ row
  offsets : d'.offsets = d.offsets
  indexed : d'.table.Indexed
  keeps : d.table.Extends d'.table
  leads : List.Forall₂ (Leads g d'.table source) row entries
  origin : ∀ j u, d'.table.get? j = some u → d.table.get? j = some u ∨
    ∃ m phase c, (m, some (phase, c)) ∈ entries ∧ g.makeState phase c = .ok u

/-- An edge in front of a row. -/
theorem RowAdded.cons {source : StateId} {entries : List (Move × Option (Phase × Configuration))}
    {entry : Move × Option (Phase × Configuration)} {row : List Edge} {e : Edge} {d₁ : Draft limit}
    (h : RowAdded g source entries row (d₁.addEdge e) d') (hedges : d₁.edges = d.edges)
    (hoffsets : d₁.offsets = d.offsets) (hindexed : d₁.table.Indexed)
    (hkeeps : d.table.Extends d₁.table) (hleads : Leads g d₁.table source e entry)
    (horigin : ∀ j u, d₁.table.get? j = some u → d.table.get? j = some u ∨
      ∃ m phase c, (m, some (phase, c)) = entry ∧ g.makeState phase c = .ok u) :
    RowAdded g source (entry :: entries) (e :: row) d d' where
  edges := by simp [h.edges, addEdge, hedges]
  offsets := h.offsets.trans hoffsets
  indexed := h.indexed
  keeps := hkeeps.trans h.keeps
  leads := .cons (hleads.extends hindexed h.indexed h.keeps) h.leads
  origin := by
    intro j u hj
    rcases h.origin j u hj with hj | ⟨m, phase, c, hmem, hu⟩
    · rcases horigin j u hj with hj | ⟨m, phase, c, rfl, hu⟩
      · exact .inl hj
      · exact .inr ⟨m, phase, c, List.mem_cons_self, hu⟩
    · exact .inr ⟨m, phase, c, List.mem_cons_of_mem _ hmem, hu⟩

/-- What is made of the entries of a table becomes a row that fits the entries. -/
theorem rowAdded_addEdges (hg : g.Sound) {source : StateId} {ts : List (Target × Move)}
    {entries : List (Move × Option (Phase × Configuration))} (hmade : List.Forall₂ g.Made ts entries)
    (hd : d.table.Indexed) (h : d.addEdges g source ts = .ok d') :
    ∃ row, RowAdded g source entries row d d' := by
  induction hmade generalizing d with
  | nil =>
    obtain rfl : d = d' := Except.ok.inj h
    refine ⟨[], ?_⟩
    constructor
    · simp
    · rfl
    · exact hd
    · exact .refl _
    · exact .nil
    · exact fun j u hj => .inl hj
  | @cons t entry ts entries hhead _ ih =>
    cases hhead with
    | itself m =>
      obtain ⟨row, hrow⟩ := ih (d := d.addEdge ⟨source, source, m⟩) hd h
      exact ⟨_, hrow.cons rfl rfl hd (.refl _) ⟨rfl, rfl, rfl⟩ fun j u hj => .inl hj⟩
    | @state s phase c m hs =>
      obtain ⟨⟨d₁, id⟩, hintern, h⟩ := bind_eq_ok.1 h
      obtain ⟨hedges, hoffsets, hindexed, hkeeps, hid, horigin⟩ := of_intern hd hintern
      obtain ⟨row, hrow⟩ := ih (d := d₁.addEdge ⟨source, id, m⟩) hindexed h
      have hkey : s.key = g.keyOf phase (g.normalize c) := by
        rw [((makeState_eq_ok hg).1 hs).2]
        rfl
      refine ⟨_, hrow.cons hedges hoffsets hindexed hkeeps ⟨rfl, rfl, ?_⟩ fun j u hj => ?_⟩
      · exact (hindexed _ _).2 ⟨s, hid, hkey⟩
      · rcases horigin j u hj with hj | rfl
        · exact .inl hj
        · exact .inr ⟨m, phase, c, rfl, hs⟩

/-! ## Expansion -/

/-- Where each row starts when rows lie one behind the other. -/
def rowStarts (rows : List (List Edge)) : List Nat :=
  (List.range rows.length).map fun i => (rows.take i).flatten.length

theorem rowStarts_append (rows : List (List Edge)) (row : List Edge) :
    rowStarts (rows ++ [row]) = rowStarts rows ++ [rows.flatten.length] := by
  unfold rowStarts
  rw [List.length_append, List.length_singleton, List.range_succ, List.map_append]
  congr 1
  · apply List.map_congr_left
    intro i hi
    rw [List.take_append_of_le_length (Nat.le_of_lt (List.mem_range.1 hi))]
  · simp

/-- The first states of the draft are expanded, and every state is reachable. -/
structure Expanded (g : Graph) (rows : List (List Edge)) (d : Draft limit) : Prop where
  indexed : d.table.Indexed
  initial : ∃ s, d.table.get? 0 = some s ∧ s.key = ⟨.deciding, [], []⟩
  states : ∀ i s, d.table.get? i = some s → g.IsState s ∧ g.ReachableKey s.key
  edges : d.edges.toList = rows.flatten
  offsets : d.offsets.toList = rowStarts rows
  rows : ∀ i row, rows[i]? = some row → ∃ s, d.table.get? i = some s ∧
    List.Forall₂ (Leads g d.table i) row (g.moves s.phase s.configuration)

theorem Expanded.length_le {rows : List (List Edge)} (h : d.Expanded g rows) :
    rows.length ≤ d.table.size := by
  by_contra hlt
  rw [Nat.not_le] at hlt
  obtain ⟨s, hs, _⟩ := h.rows d.table.size _ (List.getElem?_eq_getElem hlt)
  exact absurd (StateTable.lt_size_of_get? hs) (Nat.lt_irrefl _)

/-- A draft that holds the initial state and has no rows yet. -/
theorem expanded_intern (hg : g.Sound) {s : State} {id : StateId}
    (hs : g.makeState .deciding .empty = .ok s) (h : (empty : Draft limit).intern g s = .ok (d, id)) :
    d.Expanded g [] := by
  obtain ⟨hedges, hoffsets, hindexed, _, hid, horigin⟩ := of_intern StateTable.indexed_empty h
  have hkey : s.key = ⟨.deciding, [], []⟩ := by
    rw [((makeState_eq_ok hg).1 hs).2, ← hg.keyOf_normalize_empty]
    rfl
  have honly : ∀ j u, d.table.get? j = some u → u = s := by
    intro j u hj
    rcases horigin j u hj with hj | hu
    · exact absurd (StateTable.lt_size_of_get? hj) (Nat.not_lt_zero _)
    · exact hu
  have hreach : g.ReachableKey s.key := hkey ▸ .initial
  constructor
  · exact hindexed
  · have hlt : 0 < d.table.size := Nat.zero_lt_of_lt (StateTable.lt_size_of_get? hid)
    exact ⟨_, Array.getElem?_eq_getElem hlt, (honly 0 _ (Array.getElem?_eq_getElem hlt)) ▸ hkey⟩
  · intro i u hu
    obtain rfl := honly i u hu
    exact ⟨hg.isState_of_makeState (show g.Involves .deciding from trivial) hs, hreach⟩
  · rw [hedges]
    rfl
  · rw [hoffsets]
    rfl
  · rintro i row ⟨⟩

theorem Expanded.expand_one (hg : g.Sound) {rows : List (List Edge)} (h : d.Expanded g rows)
    {s : State} (hs : d.table.get? rows.length = some s) {ts : List (Target × Move)}
    (hts : g.successors s = .ok ts) {d₁ d₂ : Draft limit} (hmark : d.mark = .ok d₁)
    (hadd : d₁.addEdges g rows.length ts = .ok d₂) : ∃ row, d₂.Expanded g (rows ++ [row]) := by
  obtain ⟨hstate, hkey⟩ := h.states _ _ hs
  obtain ⟨htable, hedges, hoffsets⟩ := of_mark hmark
  obtain ⟨row, hrow⟩ :=
    rowAdded_addEdges hg ((hstate.successors_eq_ok hg).1 hts) (htable ▸ h.indexed) hadd
  have hkeeps : d.table.Extends d₂.table := htable ▸ hrow.keeps
  refine ⟨row, ?_⟩
  constructor
  · exact hrow.indexed
  · obtain ⟨s₀, h₀, hkey₀⟩ := h.initial
    exact ⟨s₀, hkeeps _ _ h₀, hkey₀⟩
  · intro j u hj
    rcases hrow.origin j u hj with hj | ⟨m, phase, c, hmem, hu⟩
    · exact h.states j u (htable ▸ hj)
    · exact hg.reachable_of_makeState hkey hmem hu
  · rw [hrow.edges, hedges, h.edges, List.flatten_append, List.flatten_singleton]
  · rw [hrow.offsets, hoffsets, Array.toList_push, rowStarts_append, h.offsets, ← h.edges,
      Array.length_toList]
  · intro i r hr
    rw [List.getElem?_append] at hr
    split at hr
    · obtain ⟨u, hu, hleads⟩ := h.rows i r hr
      exact ⟨u, hkeeps _ _ hu, hleads.imp fun _ _ => Leads.extends h.indexed hrow.indexed hkeeps⟩
    · next hi =>
      obtain ⟨hlt, rfl⟩ := List.getElem?_eq_some_iff.1 hr
      obtain rfl : i = rows.length :=
        Nat.le_antisymm (Nat.le_of_sub_eq_zero (Nat.lt_one_iff.1 hlt)) (Nat.not_lt.1 hi)
      rw [List.getElem_singleton]
      exact ⟨s, hkeeps _ _ hs, hrow.leads⟩

/-- **Expansion.**  The rows that are there stay, and in the end every state has its row. -/
theorem Expanded.expand (hg : g.Sound) {rows : List (List Edge)} (h : d.Expanded g rows)
    (hok : d.expand g rows.length = .ok d') :
    ∃ rows' d₁, Expanded g rows' d₁ ∧ rows'.length = d₁.table.size ∧ d₁.mark = .ok d' := by
  induction hn : limit - rows.length using Nat.strongRecOn generalizing d rows with
  | _ n ih =>
    rw [Draft.expand] at hok
    split at hok
    · next hlt =>
      obtain ⟨ts, hts, hok⟩ := bind_eq_ok.1 hok
      obtain ⟨d₁, hmark, hok⟩ := bind_eq_ok.1 hok
      obtain ⟨d₂, hadd, hok⟩ := bind_eq_ok.1 hok
      obtain ⟨row, hrow⟩ := h.expand_one hg (Array.getElem?_eq_getElem hlt) hts hmark hadd
      have hlength : (rows ++ [row]).length = rows.length + 1 := List.length_append
      rw [← hlength] at hok
      refine ih _ ?_ hrow hok rfl
      rw [← hn, hlength]
      exact Nat.sub_lt_sub_left (Nat.lt_of_lt_of_le hlt d.size_le) (Nat.lt_succ_self _)
    · next hge => exact ⟨rows, d, h, Nat.le_antisymm h.length_le (Nat.not_lt.1 hge), hok⟩

end Draft

end Automaton

end AttackDefense
