import AttackDefense.Proofs.Automaton.Cycles
import AttackDefense.Proofs.Automaton.Limits
import Mathlib.Order.Bounds.Basic

/-!
# States are discovered breadth first

`Scan es n` says that the edges `es`, read from the first one on, meet the states below `n`: an
edge leaves a state that is known, the states left never get smaller, and a state that is met for
the first time has the next number.  The builder keeps this while it writes rows, since a state is
interned right before its edge is written:

    build g maxStates = .ok m → Scan m.edges.toList m.size                  (scan_of_build)

A scan is a breadth-first search.  The first edge to a state fixes its depth, one more than that of
the state the edge leaves; depths never fall from one state to the next, and no edge leads more than
one level down (`Levels`).  So the depth of a state is the least number of edges that lead to it:

    Levels m.edges.toList n depth → j < n → m.Distance j (depth j)          (Levels.distance)
-/

namespace AttackDefense.Automaton

open AttackDefense.Graph

variable {g : Graph} {m : Automaton} {es : List Edge} {n : Nat}

/-! ## Scans -/

/-- Reading the edges in order, the states below a number are met, each new one with the next
number. -/
inductive Scan : List Edge → Nat → Prop
  | start : Scan [] 1
  | known {es : List Edge} {n : Nat} {e : Edge} : Scan es n → (∀ f ∈ es, f.source ≤ e.source) →
    e.source < n → e.destination < n → Scan (es ++ [e]) n
  | discover {es : List Edge} {n : Nat} {e : Edge} : Scan es n → (∀ f ∈ es, f.source ≤ e.source) →
    e.source < n → e.destination = n → Scan (es ++ [e]) (n + 1)

theorem Scan.pos (h : Scan es n) : 0 < n := by
  induction h with
  | start => exact Nat.one_pos
  | known _ _ _ _ ih => exact ih
  | discover _ _ _ _ _ => exact Nat.succ_pos _

/-- The states that are met for the first time, other than the initial one. -/
def discovered (es : List Edge) : List StateId :=
  ((es.map Edge.destination).filter (· ≠ 0)).eraseDups

theorem mem_discovered {j : StateId} :
    j ∈ discovered es ↔ (∃ e ∈ es, e.destination = j) ∧ j ≠ 0 := by
  simp [discovered, List.mem_eraseDups]

theorem discovered_append (es : List Edge) (e : Edge) :
    discovered (es ++ [e]) = discovered es ++ (([e.destination].filter (· ≠ 0)).removeAll
      ((es.map Edge.destination).filter (· ≠ 0))).eraseDups := by
  simp [discovered, List.eraseDups_append]

theorem discovered_append_of_met {e : Edge}
    (h : e.destination = 0 ∨ e.destination ∈ discovered es) :
    discovered (es ++ [e]) = discovered es := by
  rw [discovered_append]
  rcases h with hzero | hmet
  · simp [hzero, List.removeAll]
  · obtain ⟨hedge, hzero⟩ := mem_discovered.1 hmet
    simp [hzero, hedge, List.removeAll]

theorem discovered_append_of_new {e : Edge} (hzero : e.destination ≠ 0)
    (hnew : e.destination ∉ discovered es) :
    discovered (es ++ [e]) = discovered es ++ [e.destination] := by
  have hedge : ¬ ∃ f ∈ es, f.destination = e.destination :=
    fun h => hnew (mem_discovered.2 ⟨h, hzero⟩)
  rw [discovered_append]
  simp [hzero, hedge, List.removeAll, List.eraseDups_cons]

theorem mem_range'_pred {j : Nat} (hn : 0 < n) : j ∈ List.range' 1 (n - 1) ↔ 0 < j ∧ j < n := by
  rw [List.mem_range'_1]
  omega

/-- The first meetings are those with the states 1, 2, 3 and so on. -/
theorem Scan.discovered_eq (h : Scan es n) : discovered es = List.range' 1 (n - 1) := by
  induction h with
  | start => rfl
  | @known es n e h _ _ hdest ih =>
    rw [discovered_append_of_met, ih]
    rw [ih, mem_range'_pred h.pos]
    exact (Nat.eq_zero_or_pos _).imp_right fun hpos => ⟨hpos, hdest⟩
  | @discover es n e h _ _ hdest ih =>
    have hnew : e.destination ∉ discovered es := by
      rw [ih, mem_range'_pred h.pos, hdest]
      exact fun hlt => Nat.lt_irrefl n hlt.2
    have hlast : List.range' 1 (n + 1 - 1) = List.range' 1 (n - 1) ++ [n] := by
      have hpred : n + 1 - 1 = n - 1 + 1 := by have := h.pos; omega
      rw [hpred, List.range'_1_concat, Nat.add_comm, Nat.sub_add_cancel h.pos]
    rw [discovered_append_of_new (hdest ▸ Nat.ne_of_gt h.pos) hnew, ih, hdest, hlast]

/-! ## The scan of a builder -/

namespace Draft

variable {limit : Nat} {d d' : Draft limit} {source : StateId}

/-- The edges written so far scan the table, and none leaves a later state than the one at hand. -/
structure Scanned (source : StateId) (d : Draft limit) : Prop where
  scan : Scan d.edges.toList d.table.size
  le_source : ∀ e ∈ d.edges.toList, e.source ≤ source

theorem Scanned.mark (hd : d.Scanned source) (h : d.mark = .ok d') : d'.Scanned source := by
  obtain ⟨htable, hedges, _⟩ := of_mark h
  constructor
  · rw [htable, hedges]
    exact hd.scan
  · rw [hedges]
    exact hd.le_source

theorem toList_addEdge {e : Edge} (hedges : d'.edges = d.edges) :
    (d'.addEdge e).edges.toList = d.edges.toList ++ [e] := by
  simp [Draft.addEdge, hedges]

/-- One more edge from the state at hand, to a state that is known or has just been added. -/
theorem Scanned.addEdge (hd : d.Scanned source) {e : Edge} (hedges : d'.edges = d.edges)
    (hsource : e.source = source) (hscan : (∀ f ∈ d.edges.toList, f.source ≤ e.source) →
      Scan (d.edges.toList ++ [e]) d'.table.size) : (d'.addEdge e).Scanned source where
  scan := by
    rw [toList_addEdge hedges]
    exact hscan (hsource ▸ hd.le_source)
  le_source f hf := by
    rw [toList_addEdge hedges] at hf
    rcases List.mem_append.1 hf with hf | hf
    · exact hd.le_source f hf
    · obtain rfl := List.mem_singleton.1 hf
      exact Nat.le_of_eq hsource

/-- **Step.**  The edge to a state that is interned meets a known state, or the one that is new. -/
theorem Scanned.intern (hd : d.Scanned source) (hsource : source < d.table.size) {s : State}
    {id : StateId} (h : d.intern g s = .ok (d', id)) (move : Move) :
    (d'.addEdge ⟨source, id, move⟩).Scanned source ∧ source < d'.table.size := by
  obtain ⟨t, isNew, hlimit, ht, rfl⟩ := intern_eq_ok.1 h
  rcases StateTable.intern_eq_ok.1 ht with ⟨_, rfl, rfl, _⟩ | ⟨_, hany, rfl, _⟩
  · have hsize := StateTable.size_push (t := d.table) s
    refine ⟨hd.addEdge rfl rfl fun hle => ?_, hsize ▸ Nat.lt_succ_of_lt hsource⟩
    exact hsize ▸ .discover hd.scan hle hsource rfl
  · obtain ⟨old, hold, _⟩ := (Option.any_eq_true _ _).1 hany
    refine ⟨hd.addEdge rfl rfl fun hle => ?_, hsource⟩
    exact .known hd.scan hle hsource (StateTable.lt_size_of_get? hold)

/-- **Row.**  Writing the edges of a state goes on with the scan. -/
theorem Scanned.addEdges (hd : d.Scanned source) (hsource : source < d.table.size)
    {ts : List (Target × Move)} (h : d.addEdges g source ts = .ok d') : d'.Scanned source := by
  induction ts generalizing d with
  | nil =>
    cases h
    exact hd
  | cons t ts ih =>
    obtain ⟨target, move⟩ := t
    cases target with
    | itself =>
      have hloop : (d.addEdge ⟨source, source, move⟩).Scanned source :=
        hd.addEdge rfl rfl fun hle => .known hd.scan hle hsource hsource
      exact ih hloop hsource h
    | state s =>
      obtain ⟨⟨d₁, id⟩, hintern, h⟩ := bind_eq_ok.1 h
      obtain ⟨hd₁, hsource₁⟩ := hd.intern hsource hintern move
      exact ih hd₁ hsource₁ h

/-- **Run.**  So does expanding one state after the other. -/
theorem Scanned.expand {next : StateId} (hd : d.Scanned next) (h : d.expand g next = .ok d') :
    ∃ last, d'.Scanned last := by
  fun_induction Draft.expand g d next with
  | case1 d next hlt ih =>
    obtain ⟨ts, _, h⟩ := bind_eq_ok.1 h
    obtain ⟨d₁, hmark, h⟩ := bind_eq_ok.1 h
    obtain ⟨d₂, hadd, h⟩ := bind_eq_ok.1 h
    have hsource : next < d₁.table.size := (of_mark hmark).1 ▸ hlt
    have hd₂ := (hd.mark hmark).addEdges hsource hadd
    exact ih d₂ ⟨hd₂.scan, fun e he => Nat.le_succ_of_le (hd₂.le_source e he)⟩ h
  | case2 d next _ => exact ⟨next, hd.mark h⟩

end Draft

/-- The edges of an automaton scan its states. -/
theorem scan_of_build {maxStates : Nat} (h : build g maxStates = .ok m) :
    Scan m.edges.toList m.size := by
  obtain ⟨initial, _, h⟩ := bind_eq_ok.1 h
  obtain ⟨⟨d, id⟩, hintern, h⟩ := bind_eq_ok.1 h
  obtain ⟨d', hexpand, h⟩ := bind_eq_ok.1 h
  obtain rfl := Except.ok.inj h
  have hstart : d.Scanned 0 := by
    obtain ⟨t, isNew, _, ht, rfl⟩ := Draft.intern_eq_ok.1 hintern
    rcases StateTable.intern_eq_ok.1 ht with ⟨_, rfl, _, _⟩ | ⟨hold, _⟩
    · exact ⟨.start, by simp [Draft.empty]⟩
    · rw [show Draft.empty.table = StateTable.empty from rfl, StateTable.find?_empty] at hold
      cases hold
  obtain ⟨_, hd'⟩ := hstart.expand hexpand
  exact hd'.scan

/-! ## Levels -/

/-- A depth for each state, by levels: the first state has depth 0, no later state is less deep, an
edge leads at most one level down, and every other state has an edge from the level above. -/
structure Levels (es : List Edge) (n : Nat) (depth : StateId → Nat) : Prop where
  start : depth 0 = 0
  mono : ∀ i j, i ≤ j → j < n → depth i ≤ depth j
  bounded : ∀ e ∈ es, e.source < n ∧ e.destination < n
  edge : ∀ e ∈ es, depth e.destination ≤ depth e.source + 1
  met : ∀ j, 0 < j → j < n → ∃ e ∈ es, e.destination = j ∧ depth j = depth e.source + 1

variable {depth : StateId → Nat}

/-- Whoever is met by an edge so far is at most one level below every state that is left later. -/
theorem Levels.depth_le (h : Levels es n depth) {e : Edge} (hle : ∀ f ∈ es, f.source ≤ e.source)
    (hsource : e.source < n) {j : StateId} (hj : j < n) : depth j ≤ depth e.source + 1 := by
  rcases Nat.eq_zero_or_pos j with rfl | hpos
  · rw [h.start]
    exact Nat.zero_le _
  · obtain ⟨f, hf, _, hdepth⟩ := h.met j hpos hj
    rw [hdepth]
    exact Nat.succ_le_succ (h.mono _ _ (hle f hf) hsource)

theorem Levels.known (h : Levels es n depth) {e : Edge} (hle : ∀ f ∈ es, f.source ≤ e.source)
    (hsource : e.source < n) (hdest : e.destination < n) : Levels (es ++ [e]) n depth where
  start := h.start
  mono := h.mono
  bounded f hf := by
    rcases List.mem_append.1 hf with hf | hf
    · exact h.bounded f hf
    · obtain rfl := List.mem_singleton.1 hf
      exact ⟨hsource, hdest⟩
  edge f hf := by
    rcases List.mem_append.1 hf with hf | hf
    · exact h.edge f hf
    · obtain rfl := List.mem_singleton.1 hf
      exact h.depth_le hle hsource hdest
  met j hpos hj := by
    obtain ⟨f, hf, hmet⟩ := h.met j hpos hj
    exact ⟨f, List.mem_append_left _ hf, hmet⟩

/-- A new state goes one level below the state from which it is met. -/
theorem Levels.discover (h : Levels es n depth) {e : Edge} (hn : 0 < n)
    (hle : ∀ f ∈ es, f.source ≤ e.source) (hsource : e.source < n) (hdest : e.destination = n) :
    Levels (es ++ [e]) (n + 1) (Function.update depth n (depth e.source + 1)) := by
  have hnew : Function.update depth n (depth e.source + 1) n = depth e.source + 1 :=
    Function.update_self ..
  have hold : ∀ j, j < n → Function.update depth n (depth e.source + 1) j = depth j :=
    fun j hj => Function.update_of_ne (Nat.ne_of_lt hj) _ _
  constructor
  · rw [hold 0 hn, h.start]
  · intro i j hij hj
    rcases Nat.lt_succ_iff_lt_or_eq.1 hj with hj | rfl
    · rw [hold j hj, hold i (Nat.lt_of_le_of_lt hij hj)]
      exact h.mono i j hij hj
    · rw [hnew]
      rcases Nat.lt_or_eq_of_le hij with hi | rfl
      · rw [hold i hi]
        exact h.depth_le hle hsource hi
      · rw [hnew]
  · intro f hf
    rcases List.mem_append.1 hf with hf | hf
    · exact (h.bounded f hf).imp Nat.lt_succ_of_lt Nat.lt_succ_of_lt
    · obtain rfl := List.mem_singleton.1 hf
      exact ⟨Nat.lt_succ_of_lt hsource, hdest ▸ Nat.lt_succ_self _⟩
  · intro f hf
    rcases List.mem_append.1 hf with hf | hf
    · obtain ⟨hs, hd⟩ := h.bounded f hf
      rw [hold _ hs, hold _ hd]
      exact h.edge f hf
    · obtain rfl := List.mem_singleton.1 hf
      rw [hdest, hnew, hold _ hsource]
  · intro j hpos hj
    rcases Nat.lt_succ_iff_lt_or_eq.1 hj with hj | rfl
    · obtain ⟨f, hf, hmet, hdepth⟩ := h.met j hpos hj
      refine ⟨f, List.mem_append_left _ hf, hmet, ?_⟩
      rw [hold j hj, hold _ (h.bounded f hf).1, hdepth]
    · refine ⟨e, List.mem_append_right _ List.mem_cons_self, hdest, ?_⟩
      rw [hnew, hold _ hsource]

/-- **Levels.**  A scan meets the states level by level. -/
theorem Scan.exists_levels (h : Scan es n) : ∃ depth, Levels es n depth := by
  induction h with
  | start =>
    refine ⟨fun _ => 0, rfl, fun _ _ _ _ => Nat.le_refl 0, by simp, by simp, fun j hpos hj => ?_⟩
    exact absurd hpos (Nat.not_lt.2 (Nat.le_of_lt_succ hj))
  | known _ hle hsource hdest ih =>
    obtain ⟨depth, hlevels⟩ := ih
    exact ⟨depth, hlevels.known hle hsource hdest⟩
  | discover h hle hsource hdest ih =>
    obtain ⟨depth, hlevels⟩ := ih
    exact ⟨_, hlevels.discover h.pos hle hsource hdest⟩

/-! ## Distances -/

theorem Walk.concat {es : List Edge} {i : StateId} {e : Edge} (h : m.Walk i es e.source)
    (he : e ∈ m.edges.toList) : m.Walk i (es ++ [e]) e.destination := by
  induction es generalizing i with
  | nil =>
    obtain rfl : i = e.source := h
    exact ⟨he, rfl, rfl⟩
  | cons f rest ih =>
    obtain ⟨hf, hsource, hrest⟩ := h
    exact ⟨hf, hsource, ih hrest⟩

/-- The least number of edges of a walk from the initial state. -/
def Distance (m : Automaton) (j : StateId) (k : Nat) : Prop :=
  IsLeast {n | ∃ es, m.Walk m.initial es j ∧ es.length = n} k

/-- No walk goes down faster than by one level with each edge. -/
theorem Levels.depth_le_of_walk (h : Levels m.edges.toList n depth) {es : List Edge} {i j : StateId}
    (hwalk : m.Walk i es j) : depth j ≤ depth i + es.length := by
  induction es generalizing i with
  | nil =>
    obtain rfl : i = j := hwalk
    exact Nat.le_refl _
  | cons e rest ih =>
    obtain ⟨he, rfl, hrest⟩ := hwalk
    have hedge := h.edge e he
    have hrest := ih hrest
    rw [List.length_cons]
    omega

/-- Going back from level to level, a state is reached by as many edges as it is deep. -/
theorem Levels.exists_walk (h : Levels m.edges.toList n depth) {j : StateId} (hj : j < n) :
    ∃ es, m.Walk m.initial es j ∧ es.length = depth j := by
  induction hk : depth j generalizing j with
  | zero =>
    rcases Nat.eq_zero_or_pos j with rfl | hpos
    · exact ⟨[], rfl, rfl⟩
    · obtain ⟨e, _, _, hdepth⟩ := h.met j hpos hj
      rw [hk] at hdepth
      cases hdepth
  | succ k ih =>
    have hpos : 0 < j := by
      rcases Nat.eq_zero_or_pos j with rfl | hpos
      · rw [h.start] at hk
        cases hk
      · exact hpos
    obtain ⟨e, he, rfl, hdepth⟩ := h.met j hpos hj
    obtain ⟨es, hwalk, hlength⟩ := ih (h.bounded e he).1 (Nat.succ.inj (hdepth.symm.trans hk))
    exact ⟨es ++ [e], hwalk.concat he, by rw [List.length_append, hlength, List.length_singleton]⟩

/-- The depth of a state is its distance. -/
theorem Levels.distance (h : Levels m.edges.toList n depth) {j : StateId} (hj : j < n) :
    m.Distance j (depth j) := by
  refine ⟨h.exists_walk hj, ?_⟩
  rintro _ ⟨es, hwalk, rfl⟩
  have hstart : depth m.initial = 0 := h.start
  have hle := h.depth_le_of_walk hwalk
  rwa [hstart, Nat.zero_add] at hle

/-- No state is nearer than one with a smaller number. -/
theorem distance_le_of_le {maxStates : Nat} (hm : build g maxStates = .ok m) {i j : StateId}
    (hij : i ≤ j) (hj : j < m.size) {a b : Nat} (ha : m.Distance i a) (hb : m.Distance j b) :
    a ≤ b := by
  obtain ⟨depth, hlevels⟩ := (scan_of_build hm).exists_levels
  obtain rfl := ha.unique (hlevels.distance (Nat.lt_of_le_of_lt hij hj))
  obtain rfl := hb.unique (hlevels.distance hj)
  exact hlevels.mono i j hij hj

/-- **Discovery is breadth first.**  In every automaton that is built, each state has a distance
from the initial state, the least number of edges that lead to it, and no state is nearer than one
with a smaller number.  Reading the edges in order, the states that are met for the first time,
other than the initial one, are 1, 2, 3 and so on up to the last.  The accepting state that the
automaton knows is the accepting state with the smallest number, and no accepting state is nearer. -/
theorem discovery_is_breadth_first (hg : g.Built) {maxStates : Nat}
    (h : build g maxStates = .ok m) :
    (∀ j, j < m.size → ∃ k, m.Distance j k) ∧
    (∀ i j, i < j → j < m.size → ∀ a b, m.Distance i a → m.Distance j b → a ≤ b) ∧
    ((m.edges.toList.map Edge.destination).filter (· ≠ 0)).eraseDups =
      List.range' 1 (m.size - 1) ∧
    ∃ first s, m.accepting = some first ∧ m.state? first = some s ∧ s.accepting ∧
      ∀ j u, m.state? j = some u → u.accepting →
        first ≤ j ∧ ∀ a b, m.Distance first a → m.Distance j b → a ≤ b := by
  have hscan := scan_of_build h
  obtain ⟨depth, hlevels⟩ := hscan.exists_levels
  have hunfolds := unfolds_of_build hg.sound h
  refine ⟨fun j hj => ⟨depth j, hlevels.distance hj⟩,
    fun i j hij hj a b => distance_le_of_le h (Nat.le_of_lt hij) hj, hscan.discovered_eq, ?_⟩
  obtain ⟨s₀, hs₀, _⟩ := hunfolds.initial
  obtain ⟨_, _, hu, hreached, _⟩ := hunfolds.exists_accepting hg.sound hs₀
  obtain ⟨first, s, hfirst, hs, haccepting⟩ := exists_accepting_of_build h hu hreached
  refine ⟨first, s, hfirst, hs, haccepting, fun j u hj hju => ?_⟩
  have hle : first ≤ j := by
    rw [accepting_of_build h] at hfirst
    obtain ⟨_, _, hbefore⟩ := Array.findIdx?_eq_some_iff_getElem.1 hfirst
    by_contra hlt
    obtain ⟨hsize, rfl⟩ := Array.getElem?_eq_some_iff.1 hj
    exact hbefore j (Nat.not_le.1 hlt) hju
  exact ⟨hle, fun a b => distance_le_of_le h hle (StateTable.lt_size_of_get? hj)⟩

/-- The small graph has six states to discover, and knows one in which its goal is reached. -/
theorem discovery_is_breadth_first_vault : ∃ m, build vault 7 = .ok m ∧ m.size = 7 ∧
    ((m.edges.toList.map Edge.destination).filter (· ≠ 0)).eraseDups = [1, 2, 3, 4, 5, 6] ∧
    (∃ a b, m.Distance 5 a ∧ m.Distance 6 b ∧ a ≤ b) ∧ ∃ first, m.accepting = some first := by
  obtain ⟨m, hm⟩ := exists_build_vault
  have hsize : m.size = 7 :=
    ((unfolds_of_build built_vault.sound hm).size_eq built_vault.sound).trans stateCount_vault
  obtain ⟨hreached, hmono, hdiscovered, first, _, hfirst, _⟩ :=
    discovery_is_breadth_first built_vault hm
  rw [hsize] at hreached hmono hdiscovered
  obtain ⟨a, ha⟩ := hreached 5 (by decide)
  obtain ⟨b, hb⟩ := hreached 6 (by decide)
  exact ⟨m, hm, hsize, hdiscovered, ⟨a, b, ha, hb, hmono 5 6 (by decide) (by decide) a b ha hb⟩,
    first, hfirst⟩

end AttackDefense.Automaton
