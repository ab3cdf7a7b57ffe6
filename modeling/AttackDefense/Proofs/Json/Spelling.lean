import AttackDefense.Json.Writer
import AttackDefense.Proofs.Json.Tokens
import Mathlib.Data.List.Forall2

/-!
# Tokens of written values

`Lexes text ts` says that a text is cut into just these tokens wherever something delimited follows.
The written form of a string or an integer is one token, and that of a container the tokens of its
parts between brackets, so a value whose binary numbers are legible is cut into its spelling:

    Lexes (stringText s) [.scalar (.string s)]                                       (lexes_string)
    InRange i → LegibleNumber (.integer i)                                  (legibleNumber_integer)
    AllNumbers LegibleNumber v → Lexes (compact v) v.spelling                      (lexes_compact)
-/

namespace AttackDefense.Json

open Decimal

/-! ## Strings -/

section

variable {c : Char} {chars rest : List Char}

/-- A string that was read up to here, last character first. -/
def Partial.ofChars (chars : List Char) : Partial := ⟨chars, none, true⟩

/-- The unit that a list of four digits stands for. -/
def hexUnitOf? : List Char → Option Nat
  | [a, b, c, d] => hexUnit? a b c d
  | _ => none

theorem hexUnitOf?_hexDigits4 : ∀ n < 0x20, hexUnitOf? (hexDigits4 n) = some n := by decide

theorem lexString_hexDigits {p : Partial} {digits : List Char} {unit : Nat}
    (h : hexUnitOf? digits = some unit) (rest : List Char) :
    lexString p ('\\' :: 'u' :: (digits ++ rest)) = lexString (p.pushUnit unit) rest := by
  unfold hexUnitOf? at h
  split at h
  · exact lexString_unit h
  · cases h

theorem pushUnit_ofChars {n : Nat} (hn : n < 0x20) :
    (Partial.ofChars chars).pushUnit n = Partial.ofChars (Char.ofNat n :: chars) := by
  have hhigh : isHighSurrogate n = false := by
    simp [isHighSurrogate]
    omega
  have hlow : isLowSurrogate n = false := by
    simp [isLowSurrogate]
    omega
  simp [Partial.ofChars, Partial.pushUnit, hhigh, hlow, Partial.push]

/-- **Every character is read back from its escape.** -/
theorem lexString_escapeChar (c : Char) (chars rest : List Char) :
    lexString (.ofChars chars) (escapeChar c ++ rest) = lexString (.ofChars (c :: chars)) rest := by
  unfold escapeChar
  split_ifs with hquote hslash hb hf hn hr ht hcontrol
  · subst hquote
    exact lexString_escape (by decide) rfl
  · subst hslash
    exact lexString_escape (by decide) rfl
  · subst hb
    exact lexString_escape (by decide) rfl
  · subst hf
    exact lexString_escape (by decide) rfl
  · subst hn
    exact lexString_escape (by decide) rfl
  · subst hr
    exact lexString_escape (by decide) rfl
  · subst ht
    exact lexString_escape (by decide) rfl
  · refine (lexString_hexDigits (hexUnitOf?_hexDigits4 c.toNat hcontrol) rest).trans ?_
    rw [pushUnit_ofChars hcontrol, Char.ofNat_toNat]
  · exact lexString_plain hslash hquote hcontrol

theorem lexString_escapes (s chars rest : List Char) :
    lexString (.ofChars chars) (s.flatMap escapeChar ++ '\x22' :: rest) =
      .complete (.scalar (.string (String.ofList (chars.reverse ++ s)))) rest := by
  induction s generalizing chars with
  | nil => simp [lexString_quote, Partial.close, Partial.ofChars]
  | cons c s ih =>
    rw [List.flatMap_cons, List.append_assoc, lexString_escapeChar, ih]
    simp

/-- The text is cut into these tokens wherever something delimited follows. -/
def Lexes (text : String) (ts : List Token) : Prop :=
  ∀ rest, Delimited rest → tokensOf (text.toList ++ rest) = ts ++ tokensOf rest

/-- Whatever follows, a string ends with its quote. -/
theorem tokensOf_stringText (s : String) (rest : List Char) :
    tokensOf ((stringText s).toList ++ rest) = .scalar (.string s) :: tokensOf rest := by
  have htext : (stringText s).toList ++ rest =
      '\x22' :: (s.toList.flatMap escapeChar ++ '\x22' :: rest) := by
    simp [stringText]
  have hlex : lexScalar '\x22' (s.toList.flatMap escapeChar ++ '\x22' :: rest) =
      .complete (.scalar (.string s)) rest := by
    have hstring := lexString_escapes s.toList [] rest
    rw [List.reverse_nil, List.nil_append, String.ofList_toList] at hstring
    exact hstring
  rw [htext, tokensOf_complete (by decide) (by decide) hlex]

theorem lexes_string (s : String) : Lexes (stringText s) [.scalar (.string s)] :=
  fun rest _ => tokensOf_stringText s rest

end

/-! ## Integers -/

/-- Digits written for a positive number do not begin with a zero. -/
theorem head_toDigits {n : Nat} (hn : 0 < n) : (Nat.toDigits 10 n).head? ≠ some '0' := by
  have hdigit : ∀ d < 10, 0 < d → some (Nat.digitChar d) ≠ some '0' := by decide
  induction n using Nat.strong_induction_on with
  | _ n ih =>
    rw [Nat.toDigits_eq_if (by decide)]
    split
    · next hlt => exact hdigit n hlt hn
    · next hge =>
      have hne : Nat.toDigits 10 (n / 10) ≠ [] := Nat.toDigits_ne_nil
      rw [List.head?_append_of_ne_nil _ hne]
      exact ih (n / 10) (by omega) (by omega)

theorem isDigit_toDigits {n : Nat} : ∀ c ∈ Nat.toDigits 10 n, c.isDigit :=
  fun _ hc => Nat.isDigit_of_mem_toDigits (by decide) (by decide) hc

/-- Reading a digit. -/
def nextDigit (n : Nat) (c : Char) : Nat := 10 * n + (c.toNat - '0'.toNat)

theorem le_foldl_nextDigit (digits : List Char) (n : Nat) : n ≤ digits.foldl nextDigit n := by
  induction digits generalizing n with
  | nil => exact Nat.le_refl n
  | cons c digits ih =>
    have hstep : n ≤ nextDigit n c := by
      unfold nextDigit
      omega
    exact hstep.trans (ih (nextDigit n c))

/-- Digits are gathered without loss as long as their value fits. -/
theorem foldl_whole (digits : List Char) {n : Nat}
    (h : digits.foldl nextDigit n < UInt64.size) :
    digits.foldl Gathered.whole ⟨n, 0, true⟩ = ⟨digits.foldl nextDigit n, 0, true⟩ := by
  induction digits generalizing n with
  | nil => rfl
  | cons c digits ih =>
    have hnext : nextDigit n c < UInt64.size := Nat.lt_of_le_of_lt (le_foldl_nextDigit digits _) h
    have hwhole : Gathered.whole ⟨n, 0, true⟩ c = ⟨nextDigit n c, 0, true⟩ := by
      rw [Gathered.whole, if_pos ⟨rfl, hnext⟩]
      rfl
    rw [List.foldl_cons, hwhole]
    exact ih h

theorem gathered_toDigits {n : Nat} (h : n < UInt64.size) :
    (Nat.toDigits 10 n).foldl Gathered.whole ⟨0, 0, true⟩ = ⟨n, 0, true⟩ := by
  have hvalue : (Nat.toDigits 10 n).foldl nextDigit 0 = n := digitsValue_toDigits n
  rw [foldl_whole _ (by rw [hvalue]; exact h), hvalue]

/-- What follows the digits of an integer ends it. -/
theorem lexFraction_of_delimited {parts : NumberParts} {rest : List Char} (h : Delimited rest) :
    lexFraction parts rest = parts.lexeme rest := by
  cases rest with
  | nil => rfl
  | cons c rest =>
    have hc := h c rfl
    rw [lexFraction_cons, if_neg, lexExponentOrEnd_cons, if_neg] <;>
      rcases hc with rfl | rfl | rfl | rfl <;> decide

theorem lexUnsigned_toDigits (neg : Bool) (n : Nat) {rest : List Char} (h : Delimited rest) :
    lexUnsigned neg (Nat.toDigits 10 n ++ rest) =
      NumberParts.lexeme ⟨neg, Nat.toDigits 10 n, none, none⟩ rest := by
  rw [lexUnsigned, takeWhile_digits isDigit_toDigits h.digitsEnd,
    dropWhile_digits isDigit_toDigits h.digitsEnd]
  split
  · exact absurd ‹_› Nat.toDigits_ne_nil
  · next c digits hzero =>
    rcases Nat.eq_zero_or_pos n with rfl | hn
    · cases hzero
    · exact absurd (by rw [hzero]; rfl) (head_toDigits hn)
  · exact lexFraction_of_delimited h

/-- A number of 64 bits, with or without a sign. -/
def InRange (i : Int) : Prop := -(twoPow 63 : Int) ≤ i ∧ i < UInt64.size

/-- The text of the number is one token with its value. -/
def LegibleNumber (n : Number) : Prop := Lexes n.text [.scalar (.number n)]

/-- A number begins with a digit or a minus. -/
theorem tokensOf_number {c : Char} {text rest : List Char} {token : Token}
    (hc : c = '-' ∨ c.isDigit) (h : lexNumber (c :: text) = .complete token rest) :
    tokensOf (c :: text) = token :: tokensOf rest := by
  have hother : ∀ d, ¬ (d = '-' ∨ d.isDigit) → c ≠ d := fun d hd heq => hd (heq ▸ hc)
  refine tokensOf_complete ?_ ?_ ?_
  · simp [isBlank, hother ' ' (by decide), hother '\n' (by decide), hother '\t' (by decide),
      hother '\r' (by decide)]
  · simp [punctuation?, hother '\x7b' (by decide), hother '\x7d' (by decide),
      hother '[' (by decide), hother ']' (by decide), hother ',' (by decide),
      hother ':' (by decide)]
  · rw [lexScalar, if_neg (hother _ (by decide)), if_neg (hother _ (by decide)),
      if_neg (hother _ (by decide)), if_neg (hother _ (by decide)), if_pos hc, h]

theorem toList_toString_ofNat (n : Nat) : (toString (Int.ofNat n)).toList = Nat.toDigits 10 n :=
  String.toList_ofList

theorem toList_toString_negSucc (n : Nat) :
    (toString (Int.negSucc n)).toList = '-' :: Nat.toDigits 10 (n + 1) := by
  have htext : toString (Int.negSucc n) = "-" ++ Nat.repr (n + 1) := rfl
  simp [htext, Nat.repr_eq_ofList_toDigits]

/-- **Integers of 64 bits are read back.** -/
theorem legibleNumber_integer {i : Int} (h : InRange i) : LegibleNumber (.integer i) := by
  intro rest hrest
  obtain ⟨hlow, hhigh⟩ := h
  cases i with
  | ofNat n =>
    have hn : n < UInt64.size := Int.ofNat_lt.1 hhigh
    have hvalue : NumberParts.value? ⟨false, Nat.toDigits 10 n, none, none⟩ =
        some (.integer (Int.ofNat n)) := by
      simp [NumberParts.value?, gathered_toDigits hn]
    have hlex : lexUnsigned false (Nat.toDigits 10 n ++ rest) =
        .complete (.scalar (.number (.integer (Int.ofNat n)))) rest := by
      rw [lexUnsigned_toDigits false _ hrest, NumberParts.lexeme, hvalue]
    rw [Number.text, toList_toString_ofNat]
    cases hdigits : Nat.toDigits 10 n with
    | nil => exact absurd hdigits Nat.toDigits_ne_nil
    | cons c digits =>
      have hc : c.isDigit := isDigit_toDigits c (hdigits ▸ List.mem_cons_self)
      have hminus : c ≠ '-' := by
        rintro rfl
        exact absurd hc (by decide)
      rw [hdigits] at hlex
      exact tokensOf_number (.inr hc) ((lexNumber_cons c _).trans ((if_neg hminus).trans hlex))
  | negSucc n =>
    have hn : n + 1 ≤ twoPow 63 := by omega
    have hsize : n + 1 < UInt64.size := Nat.lt_of_le_of_lt hn (by decide)
    have hvalue : NumberParts.value? ⟨true, Nat.toDigits 10 (n + 1), none, none⟩ =
        some (.integer (Int.negSucc n)) := by
      simp [NumberParts.value?, gathered_toDigits hsize, hn, Int.negSucc_eq]
    have hlex : lexNumber ('-' :: (Nat.toDigits 10 (n + 1) ++ rest)) =
        .complete (.scalar (.number (.integer (Int.negSucc n)))) rest := by
      rw [lexNumber_cons, if_pos rfl, lexUnsigned_toDigits true _ hrest, NumberParts.lexeme, hvalue]
    rw [Number.text, toList_toString_negSucc]
    exact tokensOf_number (.inl rfl) hlex

/-! ## Values -/

mutual

/-- The tokens of a value. -/
def spelling : Json → List Token
  | .null => [.scalar .null]
  | .bool b => [.scalar (.bool b)]
  | .number n => [.scalar (.number n)]
  | .string s => [.scalar (.string s)]
  | .array items => .leftBracket :: ([.comma].intercalate (itemSpellings items) ++ [.rightBracket])
  | .object members =>
    .leftBrace :: ([.comma].intercalate (memberSpellings members) ++ [.rightBrace])

def itemSpellings : List Json → List (List Token)
  | [] => []
  | v :: rest => v.spelling :: itemSpellings rest

def memberSpellings : List (String × Json) → List (List Token)
  | [] => []
  | (k, v) :: rest => (.scalar (.string k) :: .colon :: v.spelling) :: memberSpellings rest

end

theorem itemTexts_eq_map (items : List Json) : itemTexts items = items.map compact := by
  induction items with
  | nil => rfl
  | cons v rest ih => rw [itemTexts, ih, List.map_cons]

theorem memberTexts_eq_map (members : List (String × Json)) :
    memberTexts members = members.map fun m => stringText m.1 ++ ":" ++ compact m.2 := by
  induction members with
  | nil => rfl
  | cons m rest ih => rw [memberTexts, ih, List.map_cons]

theorem itemSpellings_eq_map (items : List Json) : itemSpellings items = items.map spelling := by
  induction items with
  | nil => rfl
  | cons v rest ih => rw [itemSpellings, ih, List.map_cons]

theorem memberSpellings_eq_map (members : List (String × Json)) :
    memberSpellings members =
      members.map fun m => .scalar (.string m.1) :: .colon :: m.2.spelling := by
  induction members with
  | nil => rfl
  | cons m rest ih => rw [memberSpellings, ih, List.map_cons]

/-- All numbers in the value have a property. -/
inductive AllNumbers (P : Number → Prop) : Json → Prop
  | null : AllNumbers P .null
  | bool (b : Bool) : AllNumbers P (.bool b)
  | number {n : Number} (h : P n) : AllNumbers P (.number n)
  | string (s : String) : AllNumbers P (.string s)
  | array {items : List Json} (h : ∀ v ∈ items, AllNumbers P v) : AllNumbers P (.array items)
  | object {members : List (String × Json)} (h : ∀ m ∈ members, AllNumbers P m.2) :
    AllNumbers P (.object members)

theorem lexes_null : Lexes "null" [.scalar .null] := by
  intro rest _
  have hlex : lexScalar 'n' ('u' :: 'l' :: 'l' :: rest) = .complete (.scalar .null) rest := by
    simp [lexScalar, lexWord]
  exact tokensOf_complete (by decide) (by decide) hlex

theorem lexes_bool (b : Bool) : Lexes (if b then "true" else "false") [.scalar (.bool b)] := by
  intro rest _
  cases b with
  | true =>
    have hlex : lexScalar 't' ('r' :: 'u' :: 'e' :: rest) =
        .complete (.scalar (.bool true)) rest := by
      simp [lexScalar, lexWord]
    exact tokensOf_complete (by decide) (by decide) hlex
  | false =>
    have hlex : lexScalar 'f' ('a' :: 'l' :: 's' :: 'e' :: rest) =
        .complete (.scalar (.bool false)) rest := by
      simp [lexScalar, lexWord]
    exact tokensOf_complete (by decide) (by decide) hlex

/-- Texts with commas between them, in front of a closing bracket. -/
theorem tokensOf_intercalate {texts : List String} {tss : List (List Token)}
    (h : List.Forall₂ Lexes texts tss) {rest : List Char} (hrest : Delimited rest) :
    tokensOf ((",".intercalate texts).toList ++ rest) =
      [.comma].intercalate tss ++ tokensOf rest := by
  induction h with
  | nil => simp
  | @cons text ts texts tss htext htexts ih =>
    cases htexts with
    | nil => simpa using htext rest hrest
    | @cons text' ts' texts tss htext' htexts =>
      have hcomma (behind : List Char) : Delimited (',' :: behind) := by simp [Delimited]
      have hchars : (",".intercalate (text :: text' :: texts)).toList ++ rest =
          text.toList ++ (',' :: ((",".intercalate (text' :: texts)).toList ++ rest)) := by
        rw [String.intercalate_cons_cons]
        simp
      rw [hchars, htext _ (hcomma _), tokensOf_punctuation (by decide) rfl, ih]
      simp

theorem lexes_array {texts : List String} {tss : List (List Token)}
    (h : List.Forall₂ Lexes texts tss) :
    Lexes ("[" ++ ",".intercalate texts ++ "]")
      (.leftBracket :: ([.comma].intercalate tss ++ [.rightBracket])) := by
  intro rest _
  have hchars : ("[" ++ ",".intercalate texts ++ "]").toList ++ rest =
      '[' :: ((",".intercalate texts).toList ++ (']' :: rest)) := by
    simp
  have hend : Delimited (']' :: rest) := by simp [Delimited]
  rw [hchars, tokensOf_punctuation (by decide) rfl, tokensOf_intercalate h hend,
    tokensOf_punctuation (by decide) rfl]
  simp

theorem lexes_object {texts : List String} {tss : List (List Token)}
    (h : List.Forall₂ Lexes texts tss) :
    Lexes ("\x7b" ++ ",".intercalate texts ++ "\x7d")
      (.leftBrace :: ([.comma].intercalate tss ++ [.rightBrace])) := by
  intro rest _
  have hchars : ("\x7b" ++ ",".intercalate texts ++ "\x7d").toList ++ rest =
      '\x7b' :: ((",".intercalate texts).toList ++ ('\x7d' :: rest)) := by
    simp
  have hend : Delimited ('\x7d' :: rest) := by simp [Delimited]
  rw [hchars, tokensOf_punctuation (by decide) rfl, tokensOf_intercalate h hend,
    tokensOf_punctuation (by decide) rfl]
  simp

theorem lexes_member (k : String) {text : String} {ts : List Token} (h : Lexes text ts) :
    Lexes (stringText k ++ ":" ++ text) (.scalar (.string k) :: .colon :: ts) := by
  intro rest hrest
  have hchars : (stringText k ++ ":" ++ text).toList ++ rest =
      (stringText k).toList ++ (':' :: (text.toList ++ rest)) := by
    simp
  rw [hchars, tokensOf_stringText, tokensOf_punctuation (by decide) rfl, h rest hrest]
  rfl

/-- **A written value is cut into its tokens.** -/
theorem lexes_compact {v : Json} (h : AllNumbers LegibleNumber v) :
    Lexes (compact v) v.spelling := by
  induction h with
  | null =>
    rw [compact, spelling]
    exact lexes_null
  | bool b =>
    rw [compact, spelling]
    exact lexes_bool b
  | number h =>
    rw [compact, spelling]
    exact h
  | string s =>
    rw [compact, spelling]
    exact lexes_string s
  | array _ ih =>
    rw [compact, spelling, itemTexts_eq_map, itemSpellings_eq_map]
    refine lexes_array ?_
    rw [List.forall₂_map_left_iff, List.forall₂_map_right_iff, List.forall₂_same]
    exact ih
  | object _ ih =>
    rw [compact, spelling, memberTexts_eq_map, memberSpellings_eq_map]
    refine lexes_object ?_
    rw [List.forall₂_map_left_iff, List.forall₂_map_right_iff, List.forall₂_same]
    exact fun m hm => lexes_member m.1 (ih m hm)

end AttackDefense.Json
