import AttackDefense.Json.Writer
import AttackDefense.Json.Token
import AttackDefense.Proofs.Decimal.Numerals

/-!
# Texts in front of other texts

The tokens of a text do not depend on what is cut off before it, and a scalar ends where it did if
what follows is a separator, a closing bracket or nothing.  So texts in which nothing is wrong can be
cut one after the other:

    tokensFrom cut text = cut ++ tokensFrom #[] text                         (tokensFrom_eq_append)
    Unbroken (tokensOf text) → Delimited rest →
      tokensOf (text ++ rest) = tokensOf text ++ tokensOf rest                    (tokensOf_append)
-/

namespace AttackDefense.Json

open Decimal

/-! ## Cutting a text -/

/-- The tokens of a list of characters. -/
def tokensOf (text : List Char) : List Token := (tokensFrom #[] text).toList

section

variable {c : Char} {token : Token} {text rest : List Char} {cut : Array Token}

theorem tokensFrom_blank (hc : isBlank c) : tokensFrom cut (c :: rest) = tokensFrom cut rest := by
  rw [tokensFrom, if_pos hc]

theorem tokensFrom_punctuation (hc : ¬ isBlank c) (htoken : punctuation? c = some token) :
    tokensFrom cut (c :: rest) = tokensFrom (cut.push token) rest := by
  rw [tokensFrom, if_neg hc, htoken]

theorem tokensFrom_complete (hc : ¬ isBlank c) (hnone : punctuation? c = none)
    (hlex : lexScalar c rest = .complete token text) :
    tokensFrom cut (c :: rest) = tokensFrom (cut.push token) text := by
  rw [tokensFrom, if_neg hc, hnone]
  dsimp only
  split
  · next h =>
    rw [hlex] at h
    cases h
    rfl
  · next h =>
    rw [hlex] at h
    cases h

theorem tokensFrom_broken {read skip : Defect} (hc : ¬ isBlank c) (hnone : punctuation? c = none)
    (hlex : lexScalar c rest = .broken read skip) :
    tokensFrom cut (c :: rest) = cut.push (.broken (c = '\x22') read skip) := by
  rw [tokensFrom, if_neg hc, hnone]
  dsimp only
  split
  · next h =>
    rw [hlex] at h
    cases h
  · next h =>
    rw [hlex] at h
    cases h
    rfl

/-- The tokens cut off before stay in front. -/
theorem tokensFrom_eq_append (cut : Array Token) (text : List Char) :
    tokensFrom cut text = cut ++ tokensFrom #[] text := by
  induction hlen : text.length using Nat.strong_induction_on generalizing cut text with
  | _ n ih =>
    subst hlen
    cases text with
    | nil => simp [tokensFrom]
    | cons c rest =>
      have hstep (token : Token) {tail : List Char} (htail : tail.length ≤ rest.length) :
          tokensFrom (cut.push token) tail = cut ++ tokensFrom (#[].push token) tail := by
        have hlt : tail.length < (c :: rest).length := Nat.lt_succ_of_le htail
        rw [ih _ hlt (cut.push token) tail rfl, ih _ hlt (#[].push token) tail rfl]
        simp only [Array.push_eq_append, Array.empty_append, Array.append_assoc]
      by_cases hblank : isBlank c
      · rw [tokensFrom_blank hblank, tokensFrom_blank hblank]
        exact ih rest.length (Nat.lt_succ_self _) cut rest rfl
      cases hpunctuation : punctuation? c with
      | some token =>
        rw [tokensFrom_punctuation hblank hpunctuation, tokensFrom_punctuation hblank hpunctuation]
        exact hstep token (Nat.le_refl _)
      | none =>
        cases hlex : lexScalar c rest with
        | complete token tail =>
          rw [tokensFrom_complete hblank hpunctuation hlex,
            tokensFrom_complete hblank hpunctuation hlex]
          exact hstep token (lexScalar_rest_le hlex)
        | broken read skip =>
          rw [tokensFrom_broken hblank hpunctuation hlex,
            tokensFrom_broken hblank hpunctuation hlex]
          simp only [Array.push_eq_append, Array.empty_append]

@[simp] theorem tokensOf_nil : tokensOf [] = [] := by simp [tokensOf, tokensFrom]

theorem tokensOf_blank (hc : isBlank c) : tokensOf (c :: rest) = tokensOf rest := by
  rw [tokensOf, tokensFrom_blank hc, tokensOf]

theorem tokensOf_punctuation (hc : ¬ isBlank c) (htoken : punctuation? c = some token) :
    tokensOf (c :: rest) = token :: tokensOf rest := by
  rw [tokensOf, tokensFrom_punctuation hc htoken, tokensFrom_eq_append]
  simp [tokensOf]

theorem tokensOf_complete (hc : ¬ isBlank c) (hnone : punctuation? c = none)
    (hlex : lexScalar c rest = .complete token text) :
    tokensOf (c :: rest) = token :: tokensOf text := by
  rw [tokensOf, tokensFrom_complete hc hnone hlex, tokensFrom_eq_append]
  simp [tokensOf]

theorem tokensOf_broken {read skip : Defect} (hc : ¬ isBlank c) (hnone : punctuation? c = none)
    (hlex : lexScalar c rest = .broken read skip) :
    tokensOf (c :: rest) = [.broken (c = '\x22') read skip] := by
  rw [tokensOf, tokensFrom_broken hc hnone hlex]
  simp

end

/-! ## Scalars in front of other text -/

section

variable {c : Char} {token : Token} {text tail rest : List Char} {p : Partial} {parts : NumberParts}

theorem lexString_quote (p : Partial) (rest : List Char) :
    lexString p ('\x22' :: rest) = p.close rest := by
  rw [lexString] <;> simp

theorem lexString_plain (hslash : c ≠ '\\') (hquote : c ≠ '\x22') (hcontrol : ¬ c.toNat < 0x20) :
    lexString p (c :: rest) = lexString (p.push c) rest := by
  rw [lexString] <;> simp [hslash, hquote, hcontrol]

theorem lexString_escape {d : Char} (hu : c ≠ 'u') (hd : unescape? c = some d) :
    lexString p ('\\' :: c :: rest) = lexString (p.push d) rest := by
  rw [lexString] <;> simp [hu, hd]

theorem lexString_unit {a b c d : Char} {unit : Nat} (h : hexUnit? a b c d = some unit) :
    lexString p ('\\' :: 'u' :: a :: b :: c :: d :: rest) = lexString (p.pushUnit unit) rest := by
  rw [lexString, h]

theorem close_append (h : p.close text = .complete token tail) (rest : List Char) :
    p.close (text ++ rest) = .complete token (tail ++ rest) := by
  unfold Partial.close at *
  split at h <;> · cases h; simp [*]

theorem lexString_append (h : lexString p text = .complete token tail) (rest : List Char) :
    lexString p (text ++ rest) = .complete token (tail ++ rest) := by
  fun_induction lexString p text with
  | case1 | case3 | case4 | case5 | case7 | case9 => simp [Partial.broken] at h
  | case2 p a b c d text unit hunit ih => exact (lexString_unit hunit).trans (ih h)
  | case6 p c text hu hunit d hd ih => exact (lexString_escape hunit hd).trans (ih h)
  | case8 p text => exact (lexString_quote p (text ++ rest)).trans (close_append h rest)
  | case10 p c text h₁ h₂ h₃ h₄ hquote hcontrol ih =>
    have hslash : c ≠ '\\' := by
      rintro rfl
      cases text with
      | nil => exact h₃ rfl rfl
      | cons d text => exact h₄ d text rfl rfl
    exact (lexString_plain hslash hquote hcontrol).trans (ih h)

theorem lexWord_append {value : Scalar} {word : List Char}
    (h : lexWord value word text = .complete token tail) (rest : List Char) :
    lexWord value word (text ++ rest) = .complete token (tail ++ rest) := by
  fun_induction lexWord value word text with
  | case1 text =>
    cases h
    simp [lexWord]
  | case2 => cases h
  | case3 w word text ih => simpa [lexWord] using ih h
  | case4 => cases h

/-- The text is empty or goes on with a separator or a closing bracket. -/
def Delimited (rest : List Char) : Prop :=
  ∀ c ∈ rest.head?, c = ',' ∨ c = ':' ∨ c = ']' ∨ c = '\x7d'

theorem Delimited.digitsEnd (h : Delimited rest) : DigitsEnd rest := by
  intro c hc
  rcases h c hc with rfl | rfl | rfl | rfl <;> decide

theorem lexeme_append (h : parts.lexeme text = .complete token tail) (rest : List Char) :
    parts.lexeme (text ++ rest) = .complete token (tail ++ rest) := by
  unfold NumberParts.lexeme at *
  split at h <;> · cases h; simp [*]

theorem takeWhile_append_of_digitsEnd (text : List Char) (h : DigitsEnd rest) :
    (text ++ rest).takeWhile Char.isDigit = text.takeWhile Char.isDigit := by
  induction text with
  | nil => exact takeWhile_of_digitsEnd h
  | cons c text ih => simp only [List.cons_append, List.takeWhile_cons, ih]

theorem dropWhile_append_of_digitsEnd (text : List Char) (h : DigitsEnd rest) :
    (text ++ rest).dropWhile Char.isDigit = text.dropWhile Char.isDigit ++ rest := by
  induction text with
  | nil => exact dropWhile_of_digitsEnd h
  | cons c text ih =>
    simp only [List.cons_append, List.dropWhile_cons, ih]
    split <;> rfl

/-- The exponent behind its sign. -/
def lexExponentDigits (parts : NumberParts) (neg : Bool) (text : List Char) : Lexeme :=
  match text.takeWhile Char.isDigit with
  | [] => missingDigits text
  | digits =>
    let n : Int := digits.foldl (fun n c => 10 * n + (c.toNat - '0'.toNat : Nat)) (0 : Nat)
    NumberParts.lexeme { parts with exponent := some (if neg then -n else n) }
      (text.dropWhile Char.isDigit)

theorem lexExponent_cons (parts : NumberParts) (c : Char) (text : List Char) :
    lexExponent parts (c :: text) =
      if c = '+' then lexExponentDigits parts false text
      else if c = '-' then lexExponentDigits parts true text
      else lexExponentDigits parts false (c :: text) := by
  by_cases hplus : c = '+'
  · subst hplus
    rfl
  · by_cases hminus : c = '-'
    · subst hminus
      rfl
    · rw [if_neg hplus, if_neg hminus, lexExponent]
      · rfl
      · simp [hplus]
      · simp [hminus]

theorem lexExponentDigits_append {neg : Bool}
    (h : lexExponentDigits parts neg text = .complete token tail) (hrest : DigitsEnd rest) :
    lexExponentDigits parts neg (text ++ rest) = .complete token (tail ++ rest) := by
  unfold lexExponentDigits at *
  rw [takeWhile_append_of_digitsEnd text hrest, dropWhile_append_of_digitsEnd text hrest]
  split at h
  · exact absurd h missingDigits_ne
  · next hne => simpa [hne] using lexeme_append h rest

theorem lexExponent_append (h : lexExponent parts text = .complete token tail)
    (hrest : DigitsEnd rest) :
    lexExponent parts (text ++ rest) = .complete token (tail ++ rest) := by
  cases text with
  | nil =>
    have hmissing : missingDigits [] = .complete token tail := h
    exact absurd hmissing missingDigits_ne
  | cons c text =>
    rw [lexExponent_cons] at h
    rw [List.cons_append, lexExponent_cons]
    split_ifs at h ⊢
    · exact lexExponentDigits_append h hrest
    · exact lexExponentDigits_append h hrest
    · exact lexExponentDigits_append h hrest

theorem lexExponentOrEnd_cons (parts : NumberParts) (c : Char) (text : List Char) :
    lexExponentOrEnd parts (c :: text) =
      if c = 'e' ∨ c = 'E' then lexExponent parts text else parts.lexeme (c :: text) := by
  split_ifs with hc
  · rcases hc with rfl | rfl <;> rfl
  · rw [not_or] at hc
    simp [lexExponentOrEnd, hc]

theorem lexExponentOrEnd_append (h : lexExponentOrEnd parts text = .complete token tail)
    (hrest : Delimited rest) :
    lexExponentOrEnd parts (text ++ rest) = .complete token (tail ++ rest) := by
  cases text with
  | nil =>
    have hend : lexExponentOrEnd parts rest = parts.lexeme rest := by
      cases rest with
      | nil => rfl
      | cons c rest =>
        rw [lexExponentOrEnd_cons, if_neg]
        rcases hrest c rfl with rfl | rfl | rfl | rfl <;> decide
    exact hend.trans (lexeme_append h rest)
  | cons c text =>
    rw [lexExponentOrEnd_cons] at h
    rw [List.cons_append, lexExponentOrEnd_cons]
    split_ifs at h ⊢
    · exact lexExponent_append h hrest.digitsEnd
    · exact lexeme_append h rest

theorem lexFraction_cons (parts : NumberParts) (c : Char) (text : List Char) :
    lexFraction parts (c :: text) =
      if c = '.' then
        match text.takeWhile Char.isDigit with
        | [] => missingDigits text
        | digits =>
          lexExponentOrEnd { parts with places := some digits } (text.dropWhile Char.isDigit)
      else lexExponentOrEnd parts (c :: text) := by
  split_ifs with hc
  · subst hc
    rfl
  · simp [lexFraction, hc]

theorem lexFraction_append (h : lexFraction parts text = .complete token tail)
    (hrest : Delimited rest) :
    lexFraction parts (text ++ rest) = .complete token (tail ++ rest) := by
  cases text with
  | nil =>
    have hend : lexFraction parts rest = lexExponentOrEnd parts rest := by
      cases rest with
      | nil => rfl
      | cons c rest =>
        rw [lexFraction_cons, if_neg]
        rcases hrest c rfl with rfl | rfl | rfl | rfl <;> decide
    have hnil : lexExponentOrEnd parts [] = .complete token tail := h
    exact hend.trans (lexExponentOrEnd_append hnil hrest)
  | cons c text =>
    rw [lexFraction_cons] at h
    rw [List.cons_append, lexFraction_cons]
    split_ifs at h ⊢
    · rw [takeWhile_append_of_digitsEnd text hrest.digitsEnd,
        dropWhile_append_of_digitsEnd text hrest.digitsEnd]
      split at h
      · exact absurd h missingDigits_ne
      · next hne => simpa [hne] using lexExponentOrEnd_append h hrest
    · exact lexExponentOrEnd_append h hrest

theorem lexUnsigned_append {neg : Bool} (h : lexUnsigned neg text = .complete token tail)
    (hrest : Delimited rest) :
    lexUnsigned neg (text ++ rest) = .complete token (tail ++ rest) := by
  unfold lexUnsigned at *
  rw [takeWhile_append_of_digitsEnd text hrest.digitsEnd,
    dropWhile_append_of_digitsEnd text hrest.digitsEnd]
  split at h
  · exact absurd h missingDigits_ne
  · cases h
  · next hne hzero => simpa [hne, hzero] using lexFraction_append h hrest

theorem lexNumber_cons (c : Char) (text : List Char) :
    lexNumber (c :: text) =
      if c = '-' then lexUnsigned true text else lexUnsigned false (c :: text) := by
  split_ifs with hc
  · subst hc
    rfl
  · simp [lexNumber, hc]

theorem lexNumber_append (h : lexNumber (c :: text) = .complete token tail)
    (hrest : Delimited rest) :
    lexNumber (c :: text ++ rest) = .complete token (tail ++ rest) := by
  rw [lexNumber_cons] at h
  rw [List.cons_append, lexNumber_cons]
  split_ifs at h ⊢
  · exact lexUnsigned_append h hrest
  · exact lexUnsigned_append h hrest

/-- A scalar ends as before if the text behind it is delimited. -/
theorem lexScalar_append (h : lexScalar c text = .complete token tail) (hrest : Delimited rest) :
    lexScalar c (text ++ rest) = .complete token (tail ++ rest) := by
  unfold lexScalar at *
  split_ifs at h ⊢
  · exact lexString_append h rest
  · exact lexWord_append h rest
  · exact lexWord_append h rest
  · exact lexWord_append h rest
  · exact lexNumber_append h hrest

end

/-! ## Texts in front of other text -/

/-- Nothing is wrong in the text. -/
def Unbroken (ts : List Token) : Prop := ∀ text read skip, Token.broken text read skip ∉ ts

/-- **A text in which nothing is wrong is cut in the same way in front of other text.** -/
theorem tokensOf_append {text rest : List Char} (h : Unbroken (tokensOf text))
    (hrest : Delimited rest) : tokensOf (text ++ rest) = tokensOf text ++ tokensOf rest := by
  induction hlen : text.length using Nat.strong_induction_on generalizing text with
  | _ n ih =>
    subst hlen
    cases text with
    | nil => simp
    | cons c text =>
      have hstep {token : Token} {tail : List Char} (htail : tail.length ≤ text.length)
          (htokens : tokensOf (c :: text) = token :: tokensOf tail) :
          tokensOf (tail ++ rest) = tokensOf tail ++ tokensOf rest := by
        refine ih _ (Nat.lt_succ_of_le htail) (fun text read skip hmem => ?_) rfl
        exact h text read skip (htokens ▸ List.mem_cons_of_mem _ hmem)
      by_cases hblank : isBlank c
      · rw [List.cons_append, tokensOf_blank hblank, tokensOf_blank hblank]
        rw [tokensOf_blank hblank] at h
        exact ih _ (Nat.lt_succ_self _) h rfl
      cases hpunctuation : punctuation? c with
      | some token =>
        have htokens : tokensOf (c :: text) = token :: tokensOf text :=
          tokensOf_punctuation hblank hpunctuation
        rw [List.cons_append, tokensOf_punctuation hblank hpunctuation, htokens,
          hstep (Nat.le_refl _) htokens, List.cons_append]
      | none =>
        cases hlex : lexScalar c text with
        | complete token tail =>
          have htokens := tokensOf_complete hblank hpunctuation hlex
          rw [List.cons_append, tokensOf_complete hblank hpunctuation (lexScalar_append hlex hrest),
            htokens, hstep (lexScalar_rest_le hlex) htokens, List.cons_append]
        | broken read skip =>
          rw [tokensOf_broken hblank hpunctuation hlex] at h
          exact absurd (List.mem_singleton_self _) (h _ _ _)

end AttackDefense.Json
