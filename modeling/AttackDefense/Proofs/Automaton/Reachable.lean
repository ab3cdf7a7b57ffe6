import AttackDefense.Proofs.Automaton.Refusal

/-!
# The builder computes the reachable automaton

`m.Unfolds g` collects what is known of an automaton that was built from `g`.  Its states are the
reachable keys, each at one number, and row by row its edges are the entries of the table of moves:

    g.Sound → build g maxStates = .ok m → m.Unfolds g              (Sound.unfolds)
    m.Unfolds g → ((∃ i s, m.state? i = some s ∧ s.key = k) ↔ g.ReachableKey k)
                                                                    (Unfolds.exists_state_iff)
-/

namespace AttackDefense.Automaton

open AttackDefense.Graph Draft

variable {g : Graph} {m : Automaton}

/-! ## Cutting out a row -/

theorem getElem?_rowStarts {rows : List (List Edge)} {i : Nat} (h : i ≤ rows.length) :
    (rowStarts rows ++ [rows.flatten.length])[i]? = some (rows.take i).flatten.length := by
  have hlength : (rowStarts rows).length = rows.length := by simp [rowStarts]
  rcases Nat.lt_or_eq_of_le h with h | rfl
  · rw [List.getElem?_append_left (by rwa [hlength])]
    simp [rowStarts, h]
  · rw [List.getElem?_append_right (Nat.le_of_eq hlength), hlength, List.take_length]
    simp

/-- A row lies behind the rows before it. -/
theorem flatten_take_succ {rows : List (List Edge)} {i : Nat} (h : i < rows.length) :
    (rows.take (i + 1)).flatten = (rows.take i).flatten ++ rows[i] := by
  rw [List.take_succ_eq_append_getElem h, List.flatten_append, List.flatten_singleton]

theorem edgesOf_eq_row {rows : List (List Edge)} (hedges : m.edges.toList = rows.flatten)
    (hoffsets : m.offsets.toList = rowStarts rows ++ [rows.flatten.length]) {i : Nat}
    (h : i < rows.length) : m.edgesOf i = rows[i] := by
  have hfirst : m.offsets[i]? = some (rows.take i).flatten.length := by
    rw [← Array.getElem?_toList, hoffsets, getElem?_rowStarts (Nat.le_of_lt h)]
  have hlast : m.offsets[i + 1]? = some (rows.take (i + 1)).flatten.length := by
    rw [← Array.getElem?_toList, hoffsets, getElem?_rowStarts h]
  have hsplit : rows.flatten = (rows.take i).flatten ++ (rows[i] ++ (rows.drop (i + 1)).flatten) := by
    rw [← List.append_assoc, ← flatten_take_succ h, ← List.flatten_append, List.take_append_drop]
  unfold edgesOf
  rw [hfirst, hlast]
  dsimp only
  rw [Array.toList_extract, hedges, flatten_take_succ h, hsplit]
  simp [List.extract]

/-! ## Built automata -/

/-- What is known of an automaton that was built from the graph. -/
structure Unfolds (g : Graph) (m : Automaton) : Prop where
  graph : m.graph = g
  indexed : m.table.Indexed
  initial : ∃ s, m.state? m.initial = some s ∧ s.key = ⟨.deciding, [], []⟩
  states : ∀ i s, m.state? i = some s → g.IsState s ∧ g.ReachableKey s.key
  rows : ∀ i s, m.state? i = some s →
    List.Forall₂ (Leads g m.table i) (m.edgesOf i) (g.moves s.phase s.configuration)
  edges : (List.range m.size).flatMap m.edgesOf = m.edges.toList

theorem unfolds_of_build (hg : g.Sound) {maxStates : Nat} (h : build g maxStates = .ok m) :
    m.Unfolds g := by
  obtain ⟨initial, hinitial, h⟩ := bind_eq_ok.1 h
  obtain ⟨⟨d, id⟩, hintern, h⟩ := bind_eq_ok.1 h
  obtain ⟨d', hexpand, h⟩ := bind_eq_ok.1 h
  obtain ⟨rows, d₁, hrows, hlength, hmark⟩ := (expanded_intern hg hinitial hintern).expand hg hexpand
  obtain ⟨htable, hedges, hoffsets⟩ := of_mark hmark
  obtain rfl := Except.ok.inj h
  have hrow : ∀ i (hi : i < rows.length), edgesOf
      ⟨g, d'.table, d'.edges, d'.offsets, d'.accepting, maxStates⟩ i = rows[i] := by
    intro i hi
    apply edgesOf_eq_row _ _ hi
    · rw [hedges, hrows.edges]
    · rw [hoffsets, Array.toList_push, hrows.offsets, ← hrows.edges, Array.length_toList]
  constructor
  · rfl
  · exact htable ▸ hrows.indexed
  · exact htable ▸ hrows.initial
  · exact htable ▸ hrows.states
  · intro i s hs
    have hs' : d₁.table.get? i = some s := htable ▸ hs
    have hi : i < rows.length := hlength ▸ StateTable.lt_size_of_get? hs'
    obtain ⟨u, hu, hleads⟩ := hrows.rows i _ (List.getElem?_eq_getElem hi)
    obtain rfl : u = s := Option.some.inj (hu.symm.trans hs')
    rw [hrow i hi]
    exact htable ▸ hleads
  · have hmap : (List.range d'.table.size).map
        (edgesOf ⟨g, d'.table, d'.edges, d'.offsets, d'.accepting, maxStates⟩) = rows := by
      apply List.ext_getElem
      · rw [List.length_map, List.length_range, htable, hlength]
      · intro i _ hi
        rw [List.getElem_map, List.getElem_range, hrow i hi]
    show (List.range d'.table.size).flatMap _ = _
    rw [List.flatMap_def, hmap, hedges, hrows.edges]

theorem Unfolds.exists_state_iff (h : m.Unfolds g) {k : StateKey} :
    (∃ i s, m.state? i = some s ∧ s.key = k) ↔ g.ReachableKey k := by
  constructor
  · rintro ⟨i, s, hs, rfl⟩
    exact (h.states i s hs).2
  · intro hk
    induction hk with
    | initial =>
      obtain ⟨s, hs, hkey⟩ := h.initial
      exact ⟨_, s, hs, hkey⟩
    | @step k move phase c _ hmem ih =>
      obtain ⟨i, s, hs, rfl⟩ := ih
      obtain ⟨e, _, _, _, hdest⟩ := exists_of_mem_right (h.rows i s hs) hmem
      obtain ⟨u, hu, hkey⟩ := (h.indexed _ _).1 hdest
      exact ⟨_, u, hu, hkey⟩

/-- **The builder computes the reachable automaton.**  The first state is the initial one, the
states have different keys and are found by them, the edges of each state are the entries of the
table of moves in their order, each leading to the one state with the key of its target, these rows
make up all edges, and a key belongs to a state if and only if the moves lead to it. -/
theorem build_computes_reachable (hg : g.Built) {maxStates : Nat} (h : build g maxStates = .ok m) :
    (∃ s, m.state? 0 = some s ∧ s.key = ⟨.deciding, [], []⟩) ∧
    (∀ i j s u, m.state? i = some s → m.state? j = some u → s.key = u.key → i = j) ∧
    (∀ k i, m.find? k = some i ↔ ∃ s, m.state? i = some s ∧ s.key = k) ∧
    (∀ i s, m.state? i = some s →
      List.Forall₂ (Leads g m.table i) (m.edgesOf i) (g.moves s.phase s.configuration)) ∧
    (List.range m.size).flatMap m.edgesOf = m.edges.toList ∧
    (∀ k, (∃ i s, m.state? i = some s ∧ s.key = k) ↔ g.ReachableKey k) := by
  have hm := unfolds_of_build hg.sound h
  refine ⟨hm.initial, ?_, hm.indexed, hm.rows, hm.edges, fun k => hm.exists_state_iff⟩
  exact fun i j s u hi hj hkey => hm.indexed.key_inj hi hj hkey

/-- The automaton of the small graph has a state in which its goal is reached. -/
theorem build_computes_reachable_vault : ∃ m, build vault 7 = .ok m ∧
    (∃ s, m.state? 0 = some s ∧ s.key = ⟨.deciding, [], []⟩) ∧
    (∃ i s, m.state? i = some s ∧ s.key = ⟨.deciding, [], [3]⟩) ∧
    (List.range m.size).flatMap m.edgesOf = m.edges.toList := by
  obtain ⟨m, hm⟩ := exists_build_vault
  obtain ⟨hinitial, _, _, _, hedges, hkeys⟩ := build_computes_reachable built_vault hm
  exact ⟨m, hm, hinitial, (hkeys _).2 reachableKey_vault.2, hedges⟩

end AttackDefense.Automaton
