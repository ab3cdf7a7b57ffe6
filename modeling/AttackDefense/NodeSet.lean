import AttackDefense.Tree.Node

/-!
# Sets of nodes

A `NodeSet` is a strictly increasing list of nodes, so that it lists its members in order and equal
sets are equal values (`NodeSet.ext`). Each operation has one lemma that says what it does to
membership.
-/

namespace AttackDefense

structure NodeSet where
  toList : List NodeId
  sorted : toList.Pairwise (· < ·)
deriving DecidableEq, Repr

namespace NodeSet

instance : Membership NodeId NodeSet := ⟨fun s id => id ∈ s.toList⟩

instance (id : NodeId) (s : NodeSet) : Decidable (id ∈ s) := inferInstanceAs (Decidable (id ∈ s.toList))

theorem mem_def {id : NodeId} {s : NodeSet} : id ∈ s ↔ id ∈ s.toList := Iff.rfl

/-- Strictly increasing lists of the same members are equal. -/
theorem eq_of_pairwise_lt {l m : List NodeId} (hl : l.Pairwise (· < ·)) (hm : m.Pairwise (· < ·))
    (h : ∀ id, id ∈ l ↔ id ∈ m) : l = m := by
  induction l generalizing m with
  | nil =>
    cases m with
    | nil => rfl
    | cons b m => exact absurd ((h b).2 (by simp)) (by simp)
  | cons a l ih =>
    cases m with
    | nil => exact absurd ((h a).1 (by simp)) (by simp)
    | cons b m =>
      rw [List.pairwise_cons] at hl hm
      have hab : a = b := by
        rcases List.mem_cons.1 ((h a).1 (by simp)) with rfl | ha
        · rfl
        · rcases List.mem_cons.1 ((h b).2 (by simp)) with rfl | hb
          · rfl
          · exact absurd (hm.1 a ha) (Nat.lt_asymm (hl.1 b hb))
      subst hab
      congr 1
      apply ih hl.2 hm.2
      intro id
      constructor
      · intro hid
        rcases List.mem_cons.1 ((h id).1 (by simp [hid])) with rfl | h'
        · exact absurd (hl.1 id hid) (Nat.lt_irrefl _)
        · exact h'
      · intro hid
        rcases List.mem_cons.1 ((h id).2 (by simp [hid])) with rfl | h'
        · exact absurd (hm.1 id hid) (Nat.lt_irrefl _)
        · exact h'

/-- Sets with the same members are equal. -/
@[ext] theorem ext {s t : NodeSet} (h : ∀ id, id ∈ s ↔ id ∈ t) : s = t := by
  cases s with
  | mk l hl =>
    cases t with
    | mk m hm =>
      have : l = m := eq_of_pairwise_lt hl hm h
      subst this
      rfl

/-! ## Operations -/

def empty : NodeSet := ⟨[], .nil⟩

instance : Inhabited NodeSet := ⟨empty⟩

def isEmpty (s : NodeSet) : Bool := s.toList.isEmpty

/-- A node put into its place in an increasing list. -/
def insertSorted (id : NodeId) : List NodeId → List NodeId
  | [] => [id]
  | a :: rest =>
    if id < a then id :: a :: rest
    else if id = a then a :: rest
    else a :: insertSorted id rest

theorem mem_insertSorted {id x : NodeId} {l : List NodeId} :
    x ∈ insertSorted id l ↔ x = id ∨ x ∈ l := by
  induction l with
  | nil => simp [insertSorted]
  | cons a rest ih =>
    unfold insertSorted
    split
    · simp
    · split
      · subst_vars; simp
      · simp [ih, or_left_comm]

theorem pairwise_insertSorted {id : NodeId} {l : List NodeId} (h : l.Pairwise (· < ·)) :
    (insertSorted id l).Pairwise (· < ·) := by
  induction l with
  | nil => simp [insertSorted]
  | cons a rest ih =>
    rw [List.pairwise_cons] at h
    unfold insertSorted
    split
    · rename_i hlt
      refine List.pairwise_cons.2 ⟨?_, List.pairwise_cons.2 h⟩
      intro b hb
      rcases List.mem_cons.1 hb with rfl | hb
      · exact hlt
      · exact Nat.lt_trans hlt (h.1 b hb)
    · rename_i hnlt
      split
      · exact List.pairwise_cons.2 h
      · rename_i hne
        refine List.pairwise_cons.2 ⟨?_, ih h.2⟩
        intro b hb
        rcases mem_insertSorted.1 hb with rfl | hb
        · exact Nat.lt_of_le_of_ne (Nat.le_of_not_lt hnlt) fun e => hne e.symm
        · exact h.1 b hb

def insert (s : NodeSet) (id : NodeId) : NodeSet :=
  ⟨insertSorted id s.toList, pairwise_insertSorted s.sorted⟩

/-- The members that pass a test. -/
def filter (s : NodeSet) (p : NodeId → Bool) : NodeSet := ⟨s.toList.filter p, s.sorted.filter p⟩

def erase (s : NodeSet) (id : NodeId) : NodeSet := s.filter (· ≠ id)

def ofList (l : List NodeId) : NodeSet := l.foldl insert empty

@[simp] theorem mem_empty {id : NodeId} : id ∈ empty ↔ False := by simp [mem_def, empty]

@[simp] theorem mem_insert {s : NodeSet} {id x : NodeId} : x ∈ s.insert id ↔ x = id ∨ x ∈ s :=
  mem_insertSorted

@[simp] theorem mem_filter {s : NodeSet} {p : NodeId → Bool} {x : NodeId} :
    x ∈ s.filter p ↔ x ∈ s ∧ p x = true := List.mem_filter

@[simp] theorem mem_erase {s : NodeSet} {id x : NodeId} : x ∈ s.erase id ↔ x ∈ s ∧ x ≠ id := by
  simp [erase]

theorem mem_foldl_insert {l : List NodeId} {s : NodeSet} {x : NodeId} :
    x ∈ l.foldl insert s ↔ x ∈ l ∨ x ∈ s := by
  induction l generalizing s with
  | nil => simp
  | cons a l ih => simp [ih, or_assoc, or_left_comm]

@[simp] theorem mem_ofList {l : List NodeId} {x : NodeId} : x ∈ ofList l ↔ x ∈ l := by
  simp [ofList, mem_foldl_insert]

theorem isEmpty_iff {s : NodeSet} : s.isEmpty = true ↔ s = empty := by
  constructor
  · intro h
    ext x
    rw [isEmpty, List.isEmpty_iff] at h
    simp [mem_def, empty, h]
  · rintro rfl; rfl

end NodeSet

end AttackDefense
