import AttackDefense.Proofs.Automaton.Reachable

/-!
# States and the edges between them

Every edge of an automaton lies between two of its states and follows a move that leaves the first
of them (`Unfolds.exists_move`).  The edges that leave a state are its row:

    m.edges.toList.filter (·.source = i) = m.edgesOf i                      (Unfolds.filter_source)

Chance picks at branch points and nowhere else: two moves leave a branch point, both to a decision
(`Unfolds.two_edges`, `Unfolds.deciding_of_branchPoint`), so no edge leads from one branch point to
another.  Since every state is reached, some edge leads to every branch point
(`Unfolds.exists_edge_to`).

A move is about an attack or a defense of the graph (`node_of_mem_moves`), and an attack is paid for
only if that costs anything (`hasActivationCost_of_mem_moves`).
-/

namespace AttackDefense

/-- Of a list in which nothing repeats one member is picked out. -/
theorem flatMap_ite_eq {α β : Type} [DecidableEq α] {l : List α} (hl : l.Nodup) {a : α} (ha : a ∈ l)
    (f : α → List β) : (l.flatMap fun b => if b = a then f b else []) = f a := by
  have hothers : ∀ l : List α, a ∉ l → (l.flatMap fun b => if b = a then f b else []) = [] := by
    intro l hl
    rw [List.flatMap_eq_nil_iff]
    intro b hb
    rw [if_neg]
    rintro rfl
    exact hl hb
  obtain ⟨before, later, rfl⟩ := List.append_of_mem ha
  rw [List.nodup_middle, List.nodup_cons, List.mem_append, not_or] at hl
  rw [List.flatMap_append, List.flatMap_cons, hothers before hl.1.1, hothers later hl.1.2,
    if_pos rfl, List.nil_append, List.append_nil]

/-- The attack or the defense that a move is about. -/
def Move.node? (move : Move) : Option NodeId := move.attack?.or move.defense?

variable {g : Graph}

namespace Graph

variable {c : Configuration} {phase : Phase} {move : Move} {target : Option (Phase × Configuration)}

/-! ## Moves of branch points -/

/-- Moves that chance picks leave branch points, and all moves of a branch point are such. -/
theorem isSome_probability?_iff (h : (move, target) ∈ g.moves phase c) :
    move.probability?.isSome ↔ phase.isBranchPoint := by
  cases phase with
  | deciding =>
    rcases List.mem_append.1 h with h | h
    · obtain ⟨a, _, he⟩ := List.mem_map.1 h
      unfold startMove at he
      split at he <;> cases he <;> simp [Move.probability?, Phase.isBranchPoint]
    · split at h
      · cases h
      · cases List.mem_singleton.1 h
        simp [Move.probability?, Phase.isBranchPoint]
  | paying a =>
    cases List.mem_singleton.1 h
    simp [Move.probability?, Phase.isBranchPoint]
  | waiting =>
    rcases mem_moves_waiting.1 h with ⟨a, _, _, he⟩ | ⟨d, _, he⟩
    · cases he
      simp [Move.probability?, Phase.isBranchPoint]
    · unfold strikeMove at he
      split at he <;> cases he <;> simp [Move.probability?, Phase.isBranchPoint]
  | attempting a =>
    simp only [moves, List.mem_cons, List.not_mem_nil, or_false] at h
    rcases h with h | h <;> cases h <;> simp [Move.probability?, Phase.isBranchPoint]
  | resetting d =>
    simp only [moves, List.mem_cons, List.not_mem_nil, or_false] at h
    rcases h with h | h <;> cases h <;> simp [Move.probability?, Phase.isBranchPoint]

theorem length_moves_of_branchPoint (hphase : phase.isBranchPoint) :
    (g.moves phase c).length = 2 := by
  cases phase with
  | deciding | paying _ | waiting => cases hphase
  | attempting _ | resetting _ => rfl

theorem deciding_of_branchPoint (hphase : phase.isBranchPoint)
    (h : (move, target) ∈ g.moves phase c) : ∃ c', target = some (.deciding, c') := by
  cases phase with
  | deciding | paying _ | waiting => cases hphase
  | attempting _ | resetting _ =>
    simp only [moves, List.mem_cons, List.not_mem_nil, or_false] at h
    rcases h with h | h <;> cases h <;> exact ⟨_, rfl⟩

/-! ## What moves are about -/

theorem node?_startMove (a : NodeId) : (g.startMove c a).1.node? = some a := by
  unfold startMove
  split <;> rfl

theorem node?_strikeMove (d : NodeId) : (g.strikeMove c d).1.node? = some d := by
  unfold strikeMove
  split <;> rfl

/-- Moves are about attacks and defenses of the graph. -/
theorem node_of_mem_moves (hphase : g.Involves phase)
    (h : (move, target) ∈ g.moves phase c) {id : NodeId} (hid : move.node? = some id) :
    id ∈ g.attacks ++ g.defenses := by
  rw [List.mem_append]
  cases phase with
  | deciding =>
    rcases List.mem_append.1 h with h | h
    · obtain ⟨a, ha, he⟩ := List.mem_map.1 h
      have hnode := node?_startMove (g := g) (c := c) a
      rw [he, hid] at hnode
      exact .inl (Option.some.inj hnode ▸ (List.mem_filter.1 ha).1)
    · split at h
      · cases h
      · cases List.mem_singleton.1 h
        cases hid
  | paying a =>
    cases List.mem_singleton.1 h
    exact .inl (Option.some.inj hid ▸ hphase)
  | waiting =>
    rcases mem_moves_waiting.1 h with ⟨a, ha, _, he⟩ | ⟨d, hd, he⟩
    · cases he
      exact .inl (Option.some.inj hid ▸ ha)
    · have hnode := node?_strikeMove (g := g) (c := c) d
      rw [he, hid] at hnode
      exact .inr (Option.some.inj hnode ▸ hd)
  | attempting a =>
    simp only [moves, List.mem_cons, List.not_mem_nil, or_false] at h
    rcases h with h | h
    all_goals
      cases h
      exact .inl (Option.some.inj hid ▸ hphase)
  | resetting d =>
    simp only [moves, List.mem_cons, List.not_mem_nil, or_false] at h
    rcases h with h | h
    all_goals
      cases h
      exact .inr (Option.some.inj hid ▸ hphase)

/-- Whoever pays for the start of an attack has something to pay. -/
theorem hasActivationCost_of_mem_moves {c' : Configuration} {a : NodeId}
    (h : (move, some (.paying a, c')) ∈ g.moves phase c) :
    (g.tree.attack? a).any Attack.hasActivationCost := by
  cases step_of_mem_moves h with
  | pay _ =>
    rcases List.mem_append.1 h with h | h
    · obtain ⟨b, _, he⟩ := List.mem_map.1 h
      unfold startMove at he
      split at he
      · cases he
        assumption
      · cases he
    · split at h
      · cases h
      · cases List.mem_singleton.1 h

theorem hasActivationCost_of_paying {k : StateKey} {a : NodeId} (hk : g.ReachableKey k)
    (hphase : k.phase = .paying a) : (g.tree.attack? a).any Attack.hasActivationCost := by
  cases hk with
  | initial => cases hphase
  | @step k move phase c _ hmem =>
    obtain rfl : phase = .paying a := hphase
    exact hasActivationCost_of_mem_moves hmem

end Graph

namespace Automaton

open AttackDefense.Graph

variable {m : Automaton} {i : StateId} {s : State} {e : Edge}

/-! ## Where edges lie -/

theorem Unfolds.source_eq (h : m.Unfolds g) (hs : m.state? i = some s) (he : e ∈ m.edgesOf i) :
    e.source = i := by
  obtain ⟨_, _, hsource, _⟩ := exists_of_mem_left (h.rows i s hs) he
  exact hsource

theorem exists_state_of_lt (h : i < m.size) : ∃ s, m.state? i = some s :=
  ⟨_, Array.getElem?_eq_getElem h⟩

theorem Unfolds.mem_edges_iff (h : m.Unfolds g) :
    e ∈ m.edges.toList ↔ ∃ s, m.state? e.source = some s ∧ e ∈ m.edgesOf e.source := by
  rw [← h.edges, List.mem_flatMap]
  constructor
  · rintro ⟨i, hi, he⟩
    obtain ⟨s, hs⟩ := exists_state_of_lt (List.mem_range.1 hi)
    obtain rfl := h.source_eq hs he
    exact ⟨s, hs, he⟩
  · rintro ⟨s, hs, he⟩
    exact ⟨_, List.mem_range.2 (StateTable.lt_size_of_get? hs), he⟩

/-- The edges that leave a state are its row. -/
theorem Unfolds.filter_source (h : m.Unfolds g) (hs : m.state? i = some s) :
    m.edges.toList.filter (·.source = i) = m.edgesOf i := by
  have hi : i < m.size := StateTable.lt_size_of_get? hs
  have hrow : ∀ j ∈ List.range m.size,
      (m.edgesOf j).filter (·.source = i) = if j = i then m.edgesOf j else [] := by
    intro j hj
    obtain ⟨u, hu⟩ := exists_state_of_lt (List.mem_range.1 hj)
    split
    · next hji =>
      subst hji
      rw [List.filter_eq_self]
      exact fun e he => decide_eq_true (h.source_eq hs he)
    · next hji =>
      rw [List.filter_eq_nil_iff]
      intro e he
      rw [h.source_eq hu he]
      simpa using hji
  rw [← h.edges, List.filter_flatMap, List.flatMap_congr hrow]
  exact flatMap_ite_eq List.nodup_range (List.mem_range.2 hi) m.edgesOf

/-- An edge lies between two states and follows a move that leaves the first. -/
theorem Unfolds.exists_move (h : m.Unfolds g) (he : e ∈ m.edges.toList) :
    ∃ s u target, m.state? e.source = some s ∧ m.state? e.destination = some u ∧
      (e.move, target) ∈ g.moves s.phase s.configuration ∧
      u.phase = (target.map Prod.fst).getD s.phase := by
  obtain ⟨s, hs, he⟩ := h.mem_edges_iff.1 he
  obtain ⟨⟨move, target⟩, hmem, _, rfl, hdest⟩ := exists_of_mem_left (h.rows _ s hs) he
  cases target with
  | none => exact ⟨s, s, none, hs, hdest ▸ hs, hmem, rfl⟩
  | some target =>
    obtain ⟨phase, c⟩ := target
    obtain ⟨u, hu, hkey⟩ := (h.indexed _ _).1 hdest
    exact ⟨s, u, some (phase, c), hs, hu, hmem, congrArg StateKey.phase hkey⟩

/-! ## Branch points -/

/-- An edge that chance picks leaves a branch point, and all edges of a branch point are such. -/
theorem Unfolds.isSome_probability?_iff (h : m.Unfolds g) (he : e ∈ m.edges.toList)
    (hs : m.state? e.source = some s) : e.move.probability?.isSome ↔ s.phase.isBranchPoint := by
  obtain ⟨s', _, _, hs', _, hmem, _⟩ := h.exists_move he
  obtain rfl := Option.some.inj (hs'.symm.trans hs)
  exact Graph.isSome_probability?_iff hmem

theorem Unfolds.two_edges (h : m.Unfolds g) (hs : m.state? i = some s)
    (hbranch : s.phase.isBranchPoint) : (m.edges.toList.filter (·.source = i)).length = 2 := by
  rw [h.filter_source hs, (h.rows i s hs).length_eq]
  exact length_moves_of_branchPoint hbranch

/-- After a branch point comes a decision. -/
theorem Unfolds.deciding_of_branchPoint (h : m.Unfolds g) (he : e ∈ m.edges.toList)
    (hs : m.state? e.source = some s) (hbranch : s.phase.isBranchPoint) :
    ∃ u, m.state? e.destination = some u ∧ u.phase = .deciding := by
  obtain ⟨s', u, target, hs', hu, hmem, hphase⟩ := h.exists_move he
  obtain rfl := Option.some.inj (hs'.symm.trans hs)
  obtain ⟨c, rfl⟩ := Graph.deciding_of_branchPoint hbranch hmem
  exact ⟨u, hu, hphase⟩

/-- Some edge leads to every state but the initial one. -/
theorem Unfolds.exists_edge_to (h : m.Unfolds g) (hs : m.state? i = some s)
    (hinitial : s.key ≠ ⟨.deciding, [], []⟩) : ∃ e ∈ m.edges.toList, e.destination = i := by
  obtain ⟨_, hreach⟩ := h.states i s hs
  generalize hk : s.key = k at hreach
  cases hreach with
  | initial => exact absurd hk hinitial
  | @step k move phase c hreach hmem =>
    obtain ⟨j, u, hu, rfl⟩ := h.exists_state_iff.2 hreach
    obtain ⟨e, he, _, _, hdest⟩ := exists_of_mem_right (h.rows j u hu) hmem
    have hfound := (h.indexed _ _).2 ⟨s, hs, hk⟩
    refine ⟨e, h.mem_edges_iff.2 ⟨u, ?_⟩, Option.some.inj (hdest.symm.trans hfound)⟩
    rw [h.source_eq hu he]
    exact ⟨hu, he⟩

end Automaton

end AttackDefense
