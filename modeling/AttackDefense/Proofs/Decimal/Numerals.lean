import AttackDefense.Decimal.Numeral
import Mathlib.Data.List.Basic
import Mathlib.Data.List.Infix

/-!
# Numerals in a text

What a decimal numeral is, as a text: a sign that may be missing, digits with at most one point
among them, and an exponent that may be missing.  Such a text always has a value, and it is made of
few characters, so that it ends where another one stands:

    IsNumeral n → ∃ x, readNumeral n = .ok x                                    (readNumeral_ok)
    IsNumeral n → c ∈ n → IsNumeralChar c                                       (IsNumeral.chars)
-/

namespace AttackDefense.Decimal

/-! ## Parts of a numeral -/

/-- Digits only, and at least one. -/
def IsDigits (d : List Char) : Prop := d ≠ [] ∧ ∀ c ∈ d, c.isDigit

inductive IsSign : List Char → Prop
  | none : IsSign []
  | minus : IsSign ['-']
  | plus : IsSign ['+']

/-- Digits with a point behind, among or before them, or without one. -/
inductive IsMantissa : List Char → Prop
  | whole {w : List Char} (h : IsDigits w) : IsMantissa w
  | point {w p : List Char} (h : IsDigits w) (hp : ∀ c ∈ p, c.isDigit) : IsMantissa (w ++ '.' :: p)
  | fraction {p : List Char} (h : IsDigits p) : IsMantissa ('.' :: p)

inductive IsExponent : List Char → Prop
  | none : IsExponent []
  | some {c : Char} {s d : List Char} (hc : c = 'e' ∨ c = 'E') (hs : IsSign s) (hd : IsDigits d) :
    IsExponent (c :: (s ++ d))

inductive IsNumeral : List Char → Prop
  | mk {s m e : List Char} (hs : IsSign s) (hm : IsMantissa m) (he : IsExponent e) :
    IsNumeral (s ++ m ++ e)

variable {c : Char} {s w p d m e n text rest : List Char}

/-! ## Digits -/

/-- The text does not go on with a digit. -/
def DigitsEnd (text : List Char) : Prop := ∀ c ∈ text.head?, ¬ c.isDigit

@[simp] theorem digitsEnd_nil : DigitsEnd [] := by simp [DigitsEnd]

@[simp] theorem digitsEnd_cons : DigitsEnd (c :: rest) ↔ ¬ c.isDigit := by simp [DigitsEnd]

instance : (text : List Char) → Decidable (DigitsEnd text)
  | [] => .isTrue digitsEnd_nil
  | _ :: _ => decidable_of_iff _ digitsEnd_cons.symm

theorem takeWhile_of_digitsEnd (h : DigitsEnd rest) : rest.takeWhile Char.isDigit = [] := by
  cases rest with
  | nil => rfl
  | cons c rest => exact List.takeWhile_cons_of_neg (digitsEnd_cons.1 h)

theorem dropWhile_of_digitsEnd (h : DigitsEnd rest) : rest.dropWhile Char.isDigit = rest := by
  cases rest with
  | nil => rfl
  | cons c rest => exact List.dropWhile_cons_of_neg (digitsEnd_cons.1 h)

theorem takeWhile_digits (hd : ∀ c ∈ d, c.isDigit) (h : DigitsEnd rest) :
    (d ++ rest).takeWhile Char.isDigit = d := by
  rw [List.takeWhile_append_of_pos hd, takeWhile_of_digitsEnd h, List.append_nil]

theorem dropWhile_digits (hd : ∀ c ∈ d, c.isDigit) (h : DigitsEnd rest) :
    (d ++ rest).dropWhile Char.isDigit = rest := by
  rw [List.dropWhile_append_of_pos hd, dropWhile_of_digitsEnd h]

theorem isDigit_of_mem_takeWhile (h : c ∈ text.takeWhile Char.isDigit) : c.isDigit :=
  List.all_eq_true.1 List.all_takeWhile c h

/-- Digits written for a number have its value. -/
@[simp] theorem digitsValue_toDigits (n : Nat) : digitsValue (Nat.toDigits 10 n) = n :=
  Nat.ofDigitChars_toDigits (by decide) (by decide)

/-! ## Characters of a numeral -/

/-- A digit, a point, a sign or the mark of an exponent. -/
def IsNumeralChar (c : Char) : Prop :=
  c.isDigit ∨ c = '.' ∨ c = '-' ∨ c = '+' ∨ c = 'e' ∨ c = 'E'

theorem IsSign.chars (h : IsSign s) : ∀ c ∈ s, IsNumeralChar c := by
  cases h <;> simp [IsNumeralChar]

theorem IsMantissa.chars (h : IsMantissa m) : ∀ c ∈ m, c.isDigit ∨ c = '.' := by
  cases h with
  | whole h => exact fun c hc => .inl (h.2 c hc)
  | point h hp =>
    intro c hc
    rcases List.mem_append.1 hc with hc | hc
    · exact .inl (h.2 c hc)
    · exact (List.mem_cons.1 hc).symm.imp_left (hp c)
  | fraction h => exact fun c hc => (List.mem_cons.1 hc).symm.imp_left (h.2 c)

theorem IsExponent.chars (h : IsExponent e) : ∀ c ∈ e, IsNumeralChar c := by
  cases h with
  | none => simp
  | some hc hs hd =>
    rw [List.forall_mem_cons]
    refine ⟨by simp [IsNumeralChar, hc], fun c hc => ?_⟩
    rcases List.mem_append.1 hc with hc | hc
    · exact hs.chars c hc
    · exact .inl (hd.2 c hc)

theorem IsNumeral.chars (h : IsNumeral n) : ∀ c ∈ n, IsNumeralChar c := by
  obtain ⟨hs, hm, he⟩ := h
  intro c hc
  rcases List.mem_append.1 hc with hc | hc
  · rcases List.mem_append.1 hc with hc | hc
    · exact hs.chars c hc
    · exact (hm.chars c hc).imp_right .inl
  · exact he.chars c hc

/-- A mantissa begins with a digit or a point. -/
theorem IsMantissa.exists_cons (h : IsMantissa m) :
    ∃ c t, m = c :: t ∧ (c.isDigit ∨ c = '.') := by
  have hne : m ≠ [] := by
    cases h with
    | whole h => exact h.1
    | point | fraction => simp
  cases m with
  | nil => exact absurd rfl hne
  | cons c t => exact ⟨c, t, rfl, h.chars c List.mem_cons_self⟩

theorem IsNumeral.exists_cons (h : IsNumeral n) : ∃ c t, n = c :: t ∧ IsNumeralChar c := by
  have hne : n ≠ [] := by
    obtain ⟨hs, hm, he⟩ := h
    obtain ⟨c, t, rfl, -⟩ := hm.exists_cons
    simp
  cases n with
  | nil => exact absurd rfl hne
  | cons c t => exact ⟨c, t, rfl, h.chars c List.mem_cons_self⟩

/-- An exponent does not go on with the digits before it, nor with a point. -/
theorem IsExponent.head_not (h : IsExponent e) : ∀ c ∈ e.head?, ¬ (c.isDigit ∨ c = '.') := by
  cases h with
  | none => simp
  | some hc =>
    rcases hc with rfl | rfl <;> simp

theorem IsExponent.digitsEnd (h : IsExponent e) : DigitsEnd e :=
  fun c hc hdigit => h.head_not c hc (.inl hdigit)

/-! ## The value of a numeral -/

theorem splitSign_append (hs : IsSign s) (hm : ∀ c ∈ m.head?, c ≠ '-' ∧ c ≠ '+') :
    (splitSign (s ++ m)).2 = m := by
  cases hs with
  | minus => rfl
  | plus => rfl
  | none =>
    cases m with
    | nil => rfl
    | cons c t =>
      obtain ⟨hminus, hplus⟩ := hm c rfl
      simp [splitSign, hminus, hplus]

theorem sign_not_digit (h : c.isDigit ∨ c = '.') : c ≠ '-' ∧ c ≠ '+' := by
  rcases h with h | rfl
  · constructor <;> rintro rfl <;> revert h <;> decide
  · decide

theorem readExponent_ok (h : IsExponent e) : ∃ k, readExponent e = some k := by
  cases h with
  | none => exact ⟨0, rfl⟩
  | @some c s d hc hs hd =>
    have hhead : ∀ c ∈ d.head?, c ≠ '-' ∧ c ≠ '+' := fun c hc =>
      sign_not_digit (.inl (hd.2 c (List.mem_of_mem_head? hc)))
    have hbehind : d ≠ [] ∧ d.all Char.isDigit := ⟨hd.1, List.all_eq_true.2 hd.2⟩
    simp only [readExponent, if_pos hc, splitSign_append hs hhead, if_pos hbehind]
    exact ⟨_, rfl⟩

/-- A mantissa is split into its digits, and the exponent is left. -/
theorem split_append (hm : IsMantissa m) (he : IsExponent e) :
    (Mantissa.split (m ++ e)).whole ++ (Mantissa.split (m ++ e)).places ≠ [] ∧
      (Mantissa.split (m ++ e)).rest = e := by
  have hpoint (rest : List Char) : DigitsEnd ('.' :: rest) := by simp
  cases hm with
  | whole h =>
    simp only [Mantissa.split, takeWhile_digits h.2 he.digitsEnd, dropWhile_digits h.2 he.digitsEnd]
    split
    · exact absurd (.inr rfl) (he.head_not '.' rfl)
    · simp [h.1]
  | @point w p h hp =>
    have htext : w ++ '.' :: p ++ e = w ++ '.' :: (p ++ e) := by simp
    simp only [Mantissa.split, htext, takeWhile_digits h.2 (hpoint _),
      dropWhile_digits h.2 (hpoint _),
      dropWhile_digits hp he.digitsEnd]
    simp [h.1]
  | @fraction p h =>
    simp only [Mantissa.split, List.cons_append, takeWhile_of_digitsEnd (hpoint _),
      dropWhile_of_digitsEnd (hpoint _), takeWhile_digits h.2 he.digitsEnd,
      dropWhile_digits h.2 he.digitsEnd]
    simp [h.1]

theorem readMagnitude_ok (hm : IsMantissa m) (he : IsExponent e) :
    ∃ x, readMagnitude (m ++ e) = .ok x := by
  obtain ⟨hdigits, hrest⟩ := split_append hm he
  obtain ⟨k, hk⟩ := readExponent_ok he
  simp only [readMagnitude, hrest, hk, if_neg hdigits]
  split
  · exact ⟨_, rfl⟩
  · split <;> exact ⟨_, rfl⟩

/-- **A numeral has a value.** -/
theorem readNumeral_ok (h : IsNumeral n) : ∃ x, readNumeral n = .ok x := by
  obtain ⟨c, t, hcons, -⟩ := h.exists_cons
  obtain @⟨s, m, e, hs, hm, he⟩ := h
  obtain ⟨x, hx⟩ := readMagnitude_ok hm he
  have hhead : ∀ c ∈ (m ++ e).head?, c ≠ '-' ∧ c ≠ '+' := by
    obtain ⟨c, t, rfl, hc⟩ := hm.exists_cons
    simpa using sign_not_digit hc
  have hne : s ++ m ++ e ≠ [] := by simp [hcons]
  refine ⟨Binary64.withSign (splitSign (s ++ m ++ e)).1 x, ?_⟩
  have hbehind : (splitSign (s ++ m ++ e)).2 = m ++ e := by
    rw [List.append_assoc, splitSign_append hs hhead]
  simp only [readNumeral, if_neg hne, hbehind, hx]
  rfl

end AttackDefense.Decimal
