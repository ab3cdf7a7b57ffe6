import AttackDefense.Automaton.StateTable
import AttackDefense.Proofs.Call

/-!
# Tables know their states

`Indexed t` says that the index of a table holds the keys of its states and nothing else, each with
the number of its state; so no two states have one key (`Indexed.key_inj`).  Interning keeps this,
moves no state, and returns the number at which exactly the state that was asked for is found
(`Indexed.intern`).
-/

namespace AttackDefense.StateTable

variable {t t' : StateTable}

/-- The index holds exactly the keys of the states, each with its number. -/
def Indexed (t : StateTable) : Prop :=
  ∀ k id, t.find? k = some id ↔ ∃ s, t.get? id = some s ∧ s.key = k

/-- Every state is still at its number. -/
def Extends (t t' : StateTable) : Prop := ∀ id s, t.get? id = some s → t'.get? id = some s

theorem Extends.refl (t : StateTable) : t.Extends t := fun _ _ h => h

theorem Extends.trans {t'' : StateTable} (h : t.Extends t') (h' : t'.Extends t'') :
    t.Extends t'' := fun id s hs => h' id s (h id s hs)

theorem lt_size_of_get? {id : StateId} {s : State} (h : t.get? id = some s) : id < t.size := by
  obtain ⟨hlt, _⟩ := Array.getElem?_eq_some_iff.1 h
  exact hlt

/-- States with one key that agree are the same. -/
theorem eq_of_agrees {s old : State} (hkey : old.key = s.key) (h : s.agrees old) : old = s := by
  obtain ⟨key, accepting, initial, active⟩ := s
  obtain ⟨key', accepting', initial', active'⟩ := old
  simp only [State.agrees, Bool.and_eq_true, beq_iff_eq] at h
  obtain ⟨⟨rfl, rfl⟩, rfl⟩ := h
  obtain rfl : key' = key := hkey
  rfl

/-! ## Adding a state -/

theorem get?_push (s : State) (id : StateId) :
    (t.push s).get? id = if id = t.size then some s else t.get? id :=
  Array.getElem?_push

theorem size_push (s : State) : (t.push s).size = t.size + 1 :=
  Array.size_push s

theorem find?_push (s : State) (k : StateKey) :
    (t.push s).find? k = if s.key = k then some t.size else t.find? k := by
  show (t.index.insert s.key t.states.size)[k]? = _
  rw [Std.HashMap.getElem?_insert]
  by_cases hk : s.key = k <;> simp [hk, find?, size]

theorem extends_push (s : State) : t.Extends (t.push s) := by
  intro id old h
  rw [get?_push, if_neg (Nat.ne_of_lt (lt_size_of_get? h))]
  exact h

theorem find?_empty (k : StateKey) : empty.find? k = none := by
  simp [empty, find?]

theorem indexed_empty : empty.Indexed := by
  intro k id
  rw [find?_empty]
  simp [empty, get?]

theorem Indexed.key_inj (h : t.Indexed) {i j : StateId} {s u : State} (hi : t.get? i = some s)
    (hj : t.get? j = some u) (hk : s.key = u.key) : i = j := by
  have h1 := (h s.key i).2 ⟨s, hi, rfl⟩
  have h2 := (h s.key j).2 ⟨u, hj, hk.symm⟩
  exact Option.some.inj (h1.symm.trans h2)

theorem Indexed.nodup_keys (h : t.Indexed) : (t.states.toList.map State.key).Nodup := by
  have hget : ∀ i (hi : i < t.states.toList.length), t.get? i = some t.states.toList[i] := by
    intro i hi
    rw [get?, ← Array.getElem?_toList, List.getElem?_eq_getElem hi]
  rw [List.Nodup, List.pairwise_map, List.pairwise_iff_getElem]
  intro i j hi hj hij hkey
  exact Nat.ne_of_lt hij (h.key_inj (hget i hi) (hget j hj) hkey)

theorem Indexed.push (h : t.Indexed) {s : State} (hnew : t.find? s.key = none) :
    (t.push s).Indexed := by
  intro k id
  rw [find?_push, get?_push]
  by_cases hid : id = t.size
  · -- the new number belongs to the new key only
    have hold : t.find? k ≠ some id := by
      intro hf
      obtain ⟨old, ho, _⟩ := (h k id).1 hf
      exact absurd (lt_size_of_get? ho) (by rw [hid]; exact Nat.lt_irrefl _)
    rw [if_pos hid]
    by_cases hk : s.key = k
    · simp [hk, hid]
    · simpa [hk] using hold
  · rw [if_neg hid, ← h k id]
    by_cases hk : s.key = k
    · rw [if_pos hk, ← hk, hnew]
      simpa using fun he => hid he.symm
    · rw [if_neg hk]

/-! ## Interning -/

theorem answer_internCall_of_new {s : State} (h : t.find? s.key = none) :
    (internCall s).answer t = (t.push s, .ok (t.size, true)) := by
  unfold internCall
  rw [Call.answer_get_bind, h]
  rfl

/-- A state with a known key leaves the table as it is, also if it is refused. -/
theorem answer_internCall_of_known {s : State} {id : StateId} (h : t.find? s.key = some id) :
    (internCall s).answer t =
      (t, if (t.get? id).any s.agrees then .ok (id, false) else .error id) := by
  unfold internCall
  rw [Call.answer_get_bind, h]
  dsimp only
  rw [Call.answer_get_bind]
  split <;> rfl

theorem intern_eq_ok {s : State} {id : StateId} {isNew : Bool} :
    t.intern s = .ok (t', id, isNew) ↔
      (t.find? s.key = none ∧ t' = t.push s ∧ id = t.size ∧ isNew = true) ∨
      (t.find? s.key = some id ∧ (t.get? id).any s.agrees ∧ t' = t ∧ isNew = false) := by
  unfold intern
  rw [Call.outcome_eq_ok]
  cases hfind : t.find? s.key with
  | none =>
    rw [answer_internCall_of_new hfind]
    simp only [Prod.mk.injEq, Except.ok.injEq, reduceCtorEq, false_and, or_false, true_and]
    constructor
    · rintro ⟨rfl, rfl, rfl⟩
      exact ⟨rfl, rfl, rfl⟩
    · rintro ⟨rfl, rfl, rfl⟩
      exact ⟨rfl, rfl, rfl⟩
  | some old =>
    rw [answer_internCall_of_known hfind]
    by_cases hany : (t.get? old).any s.agrees
    · simp only [hany, if_true, Except.ok.injEq, Prod.mk.injEq, reduceCtorEq, false_and, false_or,
        Option.some.injEq]
      constructor
      · rintro ⟨rfl, rfl, rfl⟩
        exact ⟨rfl, hany, rfl, rfl⟩
      · rintro ⟨rfl, _, rfl, rfl⟩
        exact ⟨rfl, rfl, rfl⟩
    · rw [if_neg hany]
      simp only [Prod.mk.injEq, reduceCtorEq, and_false, false_and, false_or, Option.some.injEq,
        false_iff]
      rintro ⟨rfl, h, _⟩
      exact hany h

/-- What is known after interning a state: the state stands at the number returned, everything else
is where it was, and nothing else has come in. -/
theorem Indexed.intern (h : t.Indexed) {s : State} {id : StateId} {isNew : Bool}
    (hi : t.intern s = .ok (t', id, isNew)) :
    t'.Indexed ∧ t.Extends t' ∧ t'.get? id = some s ∧
      ∀ j u, t'.get? j = some u → t.get? j = some u ∨ u = s := by
  rcases intern_eq_ok.1 hi with ⟨hnew, rfl, rfl, _⟩ | ⟨hold, hany, rfl, _⟩
  · refine ⟨h.push hnew, extends_push s, by rw [get?_push, if_pos rfl], fun j u hj => ?_⟩
    rw [get?_push] at hj
    split at hj
    · exact .inr (Option.some.inj hj).symm
    · exact .inl hj
  · obtain ⟨old, ho, hkey⟩ := (h s.key id).1 hold
    rw [ho, Option.any_some] at hany
    obtain rfl := eq_of_agrees hkey hany
    exact ⟨h, .refl t', ho, fun j u hj => .inl hj⟩

end AttackDefense.StateTable
