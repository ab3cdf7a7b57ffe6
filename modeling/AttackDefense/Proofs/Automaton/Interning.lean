import AttackDefense.Proofs.Automaton.StateTable
import Mathlib.Data.Finset.Card

/-!
# Tables after any sequence of calls

`t.enter s` is the table after a state was entered, together with the answer, and `t.enterAll ss` the
table after many were: new ones, known ones and refused ones in any order.  A call adds its state or
leaves the table as it is (`enter_cases`), so what a table knows of a key is the first state that
came with it:

    t.Indexed → (t.enterAll ss).lookup? k = (t.lookup? k).or (ss.find? (·.key = k))
                                                                    (Indexed.lookup?_enterAll)

So a table holds as many states as there are keys (`size_enterAll`), and while these can be counted
in 32 bits, all its numbers fit into 32 bits.
-/

namespace AttackDefense.StateTable

variable {t : StateTable} {s u : State} {id : StateId}

/-- The table after a call, as the call leaves it whether the state is accepted or not, and the
answer: the number of the state and whether it is new, or the number of the state that has its key
but is different. -/
def enter (t : StateTable) (s : State) : StateTable × Except StateId (StateId × Bool) :=
  (internCall s).answer t

/-- The table after some calls, refused or not. -/
def enterAll (t : StateTable) (ss : List State) : StateTable := ss.foldl (fun t s => (t.enter s).1) t

/-- The state that has a key. -/
def lookup? (t : StateTable) (k : StateKey) : Option State := (t.find? k).bind t.get?

theorem lookup?_empty (k : StateKey) : empty.lookup? k = none := by
  rw [lookup?, find?_empty]
  rfl

theorem Indexed.lookup?_eq_some (ht : t.Indexed) {k : StateKey} :
    t.lookup? k = some s ↔ ∃ id, t.get? id = some s ∧ s.key = k := by
  rw [lookup?, Option.bind_eq_some_iff]
  constructor
  · rintro ⟨id, hfind, hs⟩
    obtain ⟨old, hold, hkey⟩ := (ht k id).1 hfind
    obtain rfl : old = s := Option.some.inj (hold.symm.trans hs)
    exact ⟨id, hs, hkey⟩
  · rintro ⟨id, hs, hkey⟩
    exact ⟨id, (ht k id).2 ⟨s, hs, hkey⟩, hs⟩

theorem Indexed.lookup?_eq_none (ht : t.Indexed) {k : StateKey} :
    t.lookup? k = none ↔ t.find? k = none := by
  rw [lookup?, Option.bind_eq_none_iff]
  refine ⟨fun h => Option.eq_none_iff_forall_ne_some.2 fun id hfind => ?_, fun h id hfind => ?_⟩
  · obtain ⟨s, hs, _⟩ := (ht k id).1 hfind
    exact absurd (hs.symm.trans (h id hfind)) (Option.some_ne_none s)
  · exact absurd (hfind.symm.trans h) (Option.some_ne_none id)

theorem Indexed.mem_keys_iff (ht : t.Indexed) {k : StateKey} :
    k ∈ t.states.toList.map State.key ↔ ∃ s, t.lookup? k = some s := by
  simp only [List.mem_map, Array.mem_toList_iff, Array.mem_iff_getElem?, ht.lookup?_eq_some]
  constructor
  · rintro ⟨s, ⟨id, hs⟩, hkey⟩
    exact ⟨s, id, hs, hkey⟩
  · rintro ⟨s, id, hs, hkey⟩
    exact ⟨s, ⟨id, hs⟩, hkey⟩

/-! ## One call -/

theorem enter_of_new (h : t.find? s.key = none) : t.enter s = (t.push s, .ok (t.size, true)) :=
  answer_internCall_of_new h

/-- With a known key only the state that has it is accepted. -/
theorem enter_of_known (ht : t.Indexed) (h : t.get? id = some u) (hkey : u.key = s.key) :
    t.enter s = (t, if u = s then .ok (id, false) else .error id) := by
  have hfind : t.find? s.key = some id := (ht _ _).2 ⟨u, h, hkey⟩
  have hagrees : s.agrees u ↔ u = s := by
    refine ⟨eq_of_agrees hkey, ?_⟩
    rintro rfl
    simp [State.agrees]
  rw [enter, answer_internCall_of_known hfind, h, Option.any_some]
  simp only [hagrees]

/-- What a call can do to a table. -/
theorem enter_cases (ht : t.Indexed) (s : State) :
    (t.find? s.key = none ∧ (t.enter s).1 = t.push s) ∨
      (∃ u, t.lookup? s.key = some u) ∧ (t.enter s).1 = t := by
  cases hfind : t.find? s.key with
  | none => exact .inl ⟨rfl, congrArg Prod.fst (enter_of_new hfind)⟩
  | some id =>
    obtain ⟨u, hu, hkey⟩ := (ht s.key id).1 hfind
    refine .inr ⟨⟨u, ht.lookup?_eq_some.2 ⟨id, hu, hkey⟩⟩, ?_⟩
    exact congrArg Prod.fst (enter_of_known ht hu hkey)

theorem Indexed.enter (ht : t.Indexed) (s : State) : (t.enter s).1.Indexed := by
  rcases enter_cases ht s with ⟨hnew, h⟩ | ⟨_, h⟩
  · exact h ▸ ht.push hnew
  · exact h.symm ▸ ht

theorem Indexed.extends_enter (ht : t.Indexed) (s : State) : t.Extends (t.enter s).1 := by
  rcases enter_cases ht s with ⟨_, h⟩ | ⟨_, h⟩
  · exact h ▸ extends_push s
  · exact h.symm ▸ .refl t

theorem Indexed.lookup?_push (ht : t.Indexed) (hnew : t.find? s.key = none) (k : StateKey) :
    (t.push s).lookup? k = if s.key = k then some s else t.lookup? k := by
  by_cases hk : s.key = k
  · rw [if_pos hk, (ht.push hnew).lookup?_eq_some]
    exact ⟨t.size, by rw [get?_push, if_pos rfl], hk⟩
  · -- another key has the number it had, and there the state has not moved
    rw [if_neg hk, lookup?, lookup?, find?_push, if_neg hk]
    cases hfind : t.find? k with
    | none => rfl
    | some id =>
      obtain ⟨old, hold, _⟩ := (ht k id).1 hfind
      exact (extends_push s id old hold).trans hold.symm

theorem Indexed.lookup?_enter (ht : t.Indexed) (s : State) (k : StateKey) :
    (t.enter s).1.lookup? k = (t.lookup? k).or (if s.key = k then some s else none) := by
  rcases enter_cases ht s with ⟨hnew, h⟩ | ⟨⟨u, hu⟩, h⟩
  · rw [h, ht.lookup?_push hnew]
    by_cases hk : s.key = k
    · rw [if_pos hk, if_pos hk, ← hk, ht.lookup?_eq_none.2 hnew, Option.none_or]
    · rw [if_neg hk, if_neg hk, Option.or_none]
  · rw [h]
    by_cases hk : s.key = k
    · rw [← hk, hu, Option.some_or]
    · rw [if_neg hk, Option.or_none]

/-! ## All calls -/

theorem Indexed.enterAll (ht : t.Indexed) (ss : List State) : (t.enterAll ss).Indexed := by
  induction ss generalizing t with
  | nil => exact ht
  | cons s ss ih => exact ih (ht.enter s)

theorem Indexed.extends_enterAll (ht : t.Indexed) (ss : List State) : t.Extends (t.enterAll ss) := by
  induction ss generalizing t with
  | nil => exact .refl t
  | cons s ss ih => exact (ht.extends_enter s).trans (ih (ht.enter s))

/-- Of the states with one key only the first one is kept. -/
theorem Indexed.lookup?_enterAll (ht : t.Indexed) (ss : List State) (k : StateKey) :
    (t.enterAll ss).lookup? k = (t.lookup? k).or (ss.find? (·.key = k)) := by
  induction ss generalizing t with
  | nil => exact (Option.or_none).symm
  | cons s ss ih =>
    -- what the table has wins over the first state, and that one over the later ones
    have hfirst : (s :: ss).find? (·.key = k) =
        (if s.key = k then some s else none).or (ss.find? (·.key = k)) := by
      by_cases hk : s.key = k <;> simp [hk]
    rw [hfirst, ← Option.or_assoc, ← ht.lookup?_enter]
    exact ih (ht.enter s)

/-- Under each key stands the state that came with it first. -/
theorem lookup?_enterAll_empty (ss : List State) (k : StateKey) :
    (empty.enterAll ss).lookup? k = ss.find? (·.key = k) := by
  rw [indexed_empty.lookup?_enterAll, lookup?_empty, Option.none_or]

/-- A key that came with no call has no number. -/
theorem find?_enterAll_eq_none {ss : List State} {k : StateKey} (hk : ∀ u ∈ ss, u.key ≠ k) :
    (empty.enterAll ss).find? k = none := by
  rw [← (indexed_empty.enterAll ss).lookup?_eq_none, lookup?_enterAll_empty, List.find?_eq_none]
  exact fun u hu h => hk u hu (of_decide_eq_true h)

/-- There are as many states as keys. -/
theorem size_enterAll (ss : List State) :
    (empty.enterAll ss).size = (ss.map State.key).toFinset.card := by
  have ht := indexed_empty.enterAll ss
  have hkeys : (ss.map State.key).toFinset =
      ((empty.enterAll ss).states.toList.map State.key).toFinset := by
    ext k
    rw [List.mem_toFinset, List.mem_toFinset, ht.mem_keys_iff, lookup?_enterAll_empty,
      ← Option.isSome_iff_exists, List.find?_isSome, List.mem_map]
    simp only [decide_eq_true_eq]
  rw [hkeys, List.toFinset_card_of_nodup ht.nodup_keys, List.length_map, Array.length_toList]
  rfl

/-- **Table invariant.**  Let any states be entered into an empty table, also some that are refused,
with fewer different keys than 32 bits can count.  The index then holds exactly the keys of the
states, each with its number, no two states have one key, and under each key stands the state that
came with it first.  There is one state for each key, and all numbers, also the next one, fit into 32
bits.  Further calls change, remove or move no state.  A state with a new key is added at the next
number, which is returned as new.  A state that is there already gets its number; a state that has a
known key but differs in another field is refused with the number of that key; neither changes the
table. -/
theorem each_key_has_one_number (ss : List State)
    (hkeys : (ss.map State.key).toFinset.card < UInt32.size) :
    let t := empty.enterAll ss
    (∀ k id, t.find? k = some id ↔ ∃ s, t.get? id = some s ∧ s.key = k) ∧
    (∀ i j s u, t.get? i = some s → t.get? j = some u → s.key = u.key → i = j) ∧
    (∀ k, (t.find? k).bind t.get? = ss.find? (·.key = k)) ∧
    t.size = (ss.map State.key).toFinset.card ∧
    (∀ id ≤ t.size, (UInt32.ofNat id).toNat = id) ∧
    (∀ more, t.Extends (empty.enterAll (ss ++ more))) ∧
    (∀ s, (∀ u ∈ ss, u.key ≠ s.key) →
      (t.enter s).2 = .ok (t.size, true) ∧ (t.enter s).1.states = t.states.push s ∧
      ∀ k, (t.enter s).1.find? k = if s.key = k then some t.size else t.find? k) ∧
    (∀ id s, t.get? id = some s → t.enter s = (t, .ok (id, false))) ∧
    (∀ id u s, t.get? id = some u → u.key = s.key → u ≠ s → t.enter s = (t, .error id)) := by
  intro t
  have ht : t.Indexed := indexed_empty.enterAll ss
  have hsize : t.size = (ss.map State.key).toFinset.card := size_enterAll ss
  refine ⟨ht, fun i j s u hi hj => ht.key_inj hi hj, fun k => ?_, hsize, fun id hid => ?_,
    fun more => ?_, fun s hs => ?_, fun id s h => ?_, fun id u s h hkey hne => ?_⟩
  · exact lookup?_enterAll_empty ss k
  · exact UInt32.toNat_ofNat_of_lt (Nat.lt_of_le_of_lt hid (hsize ▸ hkeys))
  · show t.Extends ((ss ++ more).foldl _ empty)
    rw [List.foldl_append]
    exact ht.extends_enterAll more
  · rw [enter_of_new (find?_enterAll_eq_none hs)]
    exact ⟨rfl, rfl, find?_push s⟩
  · rw [enter_of_known ht h rfl, if_pos rfl]
  · rw [enter_of_known ht h hkey, if_neg hne]

/-- A state in which nothing is underway. -/
def decision (completed : List NodeId) (accepting : Bool) : State :=
  ⟨⟨.deciding, [], completed⟩, accepting, false, []⟩

/-- Two states are entered, the first comes again, and the second comes with another content. -/
theorem each_key_has_one_number_decision :
    let t := empty.enterAll
      [decision [] false, decision [3] true, decision [] false, decision [3] false]
    t.size = 2 ∧
    t.enter (decision [] false) = (t, .ok (0, false)) ∧
    t.enter (decision [3] false) = (t, .error 1) ∧
    (t.enter (decision [4] true)).2 = .ok (2, true) := by
  intro t
  obtain ⟨_, _, _, _, _, _, hfirst, _⟩ := each_key_has_one_number [] (by decide)
  obtain ⟨_, _, _, _, _, _, hsecond, _⟩ := each_key_has_one_number [decision [] false] (by decide)
  obtain ⟨_, _, _, _, _, hkeep, _⟩ :=
    each_key_has_one_number [decision [] false, decision [3] true] (by decide)
  obtain ⟨_, _, _, hsize, _, _, hnew, hagain, hother⟩ := each_key_has_one_number
    [decision [] false, decision [3] true, decision [] false, decision [3] false] (by decide)
  have hone : (empty.enterAll [decision [] false]).states = #[decision [] false] :=
    (hfirst _ (by decide)).2.1
  have htwo : (empty.enterAll [decision [] false, decision [3] true]).states =
      #[decision [] false, decision [3] true] :=
    (hsecond (decision [3] true) (by decide)).2.1.trans (congrArg (Array.push · _) hone)
  have hzero : t.get? 0 = some (decision [] false) :=
    hkeep [decision [] false, decision [3] false] 0 _ (congrArg (fun a => a[0]?) htwo)
  have hat : t.get? 1 = some (decision [3] true) :=
    hkeep [decision [] false, decision [3] false] 1 _ (congrArg (fun a => a[1]?) htwo)
  have hcount : t.size = 2 := hsize.trans (by decide)
  refine ⟨hcount, hagain 0 _ hzero, hother 1 _ _ hat rfl (by decide), ?_⟩
  rw [(hnew (decision [4] true) (by decide)).1]
  exact congrArg (fun n => Except.ok (n, true)) hcount

end AttackDefense.StateTable
