import AttackDefense.Proofs.Decimal.Rounding
import AttackDefense.Proofs.Json.Tokens

/-!
# Numbers of a text

A number that is out of range has no value, so every number among the tokens of a text is finite
(`tokensOf_finite`).  A significand has 64 bits; multiplied, it is checked, and divided it only gets
smaller, for every power of ten that it is divided by is at least eight:

    0 < places → x.exponentField ≤ e →
      (divideByTens x places).exponentField ≤ e                    (exponentField_divideByTens_le)
    parts.value? = some n → FiniteNumber n                   (NumberParts.finiteNumber_of_value)
-/

namespace AttackDefense.Json

open Decimal Binary64

/-! ## Magnitudes -/

/-- The powers of ten that numbers are divided by. -/
theorem tenPow_ratio_le {places : Nat} (hpos : 1 ≤ places) (hmax : places ≤ 308) :
    twoPow 3 * (ofNat (tenPow places)).ratio.2 ≤ (ofNat (tenPow places)).ratio.1 := by
  have hall : ∀ places ≤ 308, 1 ≤ places →
      twoPow 3 * (ofNat (tenPow places)).ratio.2 ≤ (ofNat (tenPow places)).ratio.1 := by
    decide +kernel
  exact hall places hmax hpos

theorem exponentField_divideByTens_le {e places : Nat} {x : Binary64} (he : 3 < e)
    (hmax : e < 2046) (hx : x.exponentField ≤ e) (hplaces : 0 < places) :
    (divideByTens x places).exponentField ≤ e := by
  have hdiv {x : Binary64} {places : Nat} (hx : x.exponentField ≤ e) (hpos : 1 ≤ places)
      (hle : places ≤ 308) : (x.div (ofNat (tenPow places))).exponentField ≤ e :=
    (exponentField_div_le he hmax hx (tenPow_ratio_le hpos hle)).trans (by omega)
  fun_induction divideByTens x places with
  | case1 => exact hx
  | case2 x places _ hle => exact hdiv hx hplaces hle
  | case3 x places _ hgt ih => exact ih (hdiv hx (by decide) (by decide)) (by omega)

theorem Gathered.whole_lt (g : Gathered) (c : Char) (h : g.significand < UInt64.size) :
    (g.whole c).significand < UInt64.size := by
  unfold Gathered.whole
  dsimp only
  split
  · next hfits => exact hfits.2
  · exact h

theorem Gathered.place_lt (g : Gathered) (c : Char) (h : g.significand < UInt64.size) :
    (g.place c).significand < UInt64.size := by
  unfold Gathered.place
  dsimp only
  split
  · next hfits => exact hfits.2
  · exact h

/-- The significand always fits. -/
theorem Gathered.foldl_lt {step : Gathered → Char → Gathered} {g : Gathered}
    (hstep : ∀ g c, g.significand < UInt64.size → (step g c).significand < UInt64.size)
    (h : g.significand < UInt64.size) (digits : List Char) :
    (digits.foldl step g).significand < UInt64.size := by
  induction digits generalizing g with
  | nil => exact h
  | cons c digits ih => exact ih (hstep g c h)

theorem isFinite_of_exponentField_le {x : Binary64} (h : x.exponentField ≤ 1087) : x.isFinite := by
  unfold isFinite
  rw [decide_eq_true_eq]
  omega

theorem Gathered.isFinite_magnitude {g : Gathered} {x : Binary64}
    (hfits : g.significand < UInt64.size) (h : g.magnitude? = some x) : x.isFinite := by
  have hwhole := exponentField_ofNat_size_le hfits
  unfold Gathered.magnitude? at h
  dsimp only at h
  split_ifs at h with hneg hle hfinite
  · cases h
    exact isFinite_of_exponentField_le
      (exponentField_divideByTens_le (by decide) (by decide) hwhole (by omega))
  · cases h
    exact hfinite
  · cases h
    exact isFinite_of_exponentField_le hwhole

/-! ## Numbers -/

/-- The nearest binary number is finite. -/
def FiniteNumber (n : Number) : Prop := n.toBinary64.isFinite

theorem finiteNumber_integer {i : Int} (h : i.natAbs < UInt64.size) :
    FiniteNumber (.integer i) :=
  (isFinite_withSign _ _).trans (isFinite_of_exponentField_le (exponentField_ofNat_size_le h))

theorem finiteNumber_float {x : Binary64} (h : x.isFinite) (neg : Bool) :
    FiniteNumber (.float (x.withSign neg)) :=
  (isFinite_withSign neg x).trans h

/-- **The value of a number is finite.** -/
theorem NumberParts.finiteNumber_of_value {parts : NumberParts} {n : Number}
    (h : parts.value? = some n) : FiniteNumber n := by
  have hwhole : (parts.whole.foldl Gathered.whole ⟨0, 0, true⟩).significand < UInt64.size :=
    Gathered.foldl_lt Gathered.whole_lt (by decide) _
  unfold NumberParts.value? at h
  dsimp only at h
  generalize parts.whole.foldl Gathered.whole ⟨0, 0, true⟩ = g at h hwhole
  split_ifs at h with hinteger hrange
  · exact Option.some.inj h ▸ finiteNumber_integer (by rwa [Int.natAbs_neg])
  · exact Option.some.inj h ▸
      finiteNumber_float (isFinite_of_exponentField_le (exponentField_ofNat_size_le hwhole)) true
  · exact Option.some.inj h ▸ finiteNumber_integer hwhole
  · obtain ⟨x, hx, rfl⟩ := Option.map_eq_some_iff.1 h
    have hplaces : ((parts.places.getD []).foldl Gathered.place
        { g with room := true }).significand < UInt64.size := by
      refine Gathered.foldl_lt Gathered.place_lt ?_ _
      exact hwhole
    refine finiteNumber_float (Gathered.isFinite_magnitude ?_ hx) _
    exact hplaces

/-! ## Tokens -/

/-- The token has no number, or a finite one. -/
def FiniteToken (t : Token) : Prop := ∀ n, t = .scalar (.number n) → FiniteNumber n

section

variable {c : Char} {token : Token} {text rest : List Char} {p : Partial} {parts : NumberParts}

theorem close_finite (h : p.close text = .complete token rest) : FiniteToken token := by
  unfold Partial.close at h
  split at h <;> · cases h; nofun

theorem lexString_finite (h : lexString p text = .complete token rest) : FiniteToken token := by
  fun_induction lexString p text with
  | case1 | case3 | case4 | case5 | case7 | case9 => simp [Partial.broken] at h
  | case2 p a b c d text unit hunit ih => exact ih h
  | case6 p c text hu hunit d hd ih => exact ih h
  | case8 => exact close_finite h
  | case10 p c text h₁ h₂ h₃ h₄ hquote hcontrol ih => exact ih h

theorem lexWord_token {value : Scalar} {word : List Char}
    (h : lexWord value word text = .complete token rest) : token = .scalar value := by
  fun_induction lexWord value word text with
  | case1 =>
    cases h
    rfl
  | case2 | case4 => cases h
  | case3 _ _ _ ih => exact ih h

theorem lexeme_finite (h : parts.lexeme text = .complete token rest) : FiniteToken token := by
  unfold NumberParts.lexeme at h
  split at h
  · next n hn =>
    cases h
    rintro _ ⟨⟩
    exact NumberParts.finiteNumber_of_value hn
  · cases h
    nofun

theorem lexExponentDigits_finite {neg : Bool}
    (h : lexExponentDigits parts neg text = .complete token rest) : FiniteToken token := by
  unfold lexExponentDigits at h
  split at h
  · exact absurd h missingDigits_ne
  · exact lexeme_finite h

theorem lexExponentOrEnd_finite (h : lexExponentOrEnd parts text = .complete token rest) :
    FiniteToken token := by
  have hexponent {text : List Char} (h : lexExponent parts text = .complete token rest) :
      FiniteToken token := by
    cases text with
    | nil =>
      have hmissing : missingDigits [] = .complete token rest := h
      exact absurd hmissing missingDigits_ne
    | cons c text =>
      rw [lexExponent_cons] at h
      split_ifs at h <;> exact lexExponentDigits_finite h
  cases text with
  | nil => exact lexeme_finite h
  | cons c text =>
    rw [lexExponentOrEnd_cons] at h
    split_ifs at h
    · exact hexponent h
    · exact lexeme_finite h

theorem lexUnsigned_finite {neg : Bool} (h : lexUnsigned neg text = .complete token rest) :
    FiniteToken token := by
  have hfraction {parts : NumberParts} {text : List Char}
      (h : lexFraction parts text = .complete token rest) : FiniteToken token := by
    cases text with
    | nil =>
      have hend : lexExponentOrEnd parts [] = .complete token rest := h
      exact lexExponentOrEnd_finite hend
    | cons c text =>
      rw [lexFraction_cons] at h
      split_ifs at h
      · split at h
        · exact absurd h missingDigits_ne
        · exact lexExponentOrEnd_finite h
      · exact lexExponentOrEnd_finite h
  unfold lexUnsigned at h
  split at h
  · exact absurd h missingDigits_ne
  · cases h
  · exact hfraction h

theorem lexScalar_finite (h : lexScalar c text = .complete token rest) : FiniteToken token := by
  unfold lexScalar at h
  split_ifs at h
  · exact lexString_finite h
  · rw [lexWord_token h]
    nofun
  · rw [lexWord_token h]
    nofun
  · rw [lexWord_token h]
    nofun
  · rw [lexNumber_cons] at h
    split_ifs at h <;> exact lexUnsigned_finite h

theorem punctuation_finite (h : punctuation? c = some token) : FiniteToken token := by
  unfold punctuation? at h
  split_ifs at h <;> · cases h; nofun

end

/-- **All numbers of a text are finite.** -/
theorem tokensOf_finite (text : List Char) : ∀ t ∈ tokensOf text, FiniteToken t := by
  induction hlen : text.length using Nat.strong_induction_on generalizing text with
  | _ n ih =>
    subst hlen
    cases text with
    | nil => simp
    | cons c text =>
      by_cases hblank : isBlank c
      · rw [tokensOf_blank hblank]
        exact ih _ (Nat.lt_succ_self _) text rfl
      cases hpunctuation : punctuation? c with
      | some token =>
        rw [tokensOf_punctuation hblank hpunctuation, List.forall_mem_cons]
        exact ⟨punctuation_finite hpunctuation, ih _ (Nat.lt_succ_self _) text rfl⟩
      | none =>
        cases hlex : lexScalar c text with
        | complete token tail =>
          rw [tokensOf_complete hblank hpunctuation hlex, List.forall_mem_cons]
          exact ⟨lexScalar_finite hlex, ih _ (Nat.lt_succ_of_le (lexScalar_rest_le hlex)) tail rfl⟩
        | broken read skip =>
          rw [tokensOf_broken hblank hpunctuation hlex, List.forall_mem_singleton]
          nofun

end AttackDefense.Json
