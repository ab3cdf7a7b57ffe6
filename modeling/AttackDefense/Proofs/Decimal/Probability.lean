import AttackDefense.Decimal.Binary64
import Mathlib.Algebra.Order.Field.Power
import Mathlib.Algebra.Order.Field.Rat

/-!
# Probabilities

`x.toRat` is the number that a finite pattern denotes.  A probability denotes a number from zero to
one, and less than one unless it is the pattern `one` itself:

    x.isProbability → x.isFinite ∧ 0 ≤ x.toRat ∧ x.toRat ≤ 1       (bounds_of_isProbability)
    x.isProbability → (x.BelowOne ↔ x ≠ one)                       (belowOne_iff)

The patterns up to `one` with the exponent field of `one` are `one` only, and with a smaller exponent
field the exact value is a significand of 53 bits over at least `2^53`.
-/

namespace AttackDefense.Decimal

theorem twoPow_le_twoPow {m n : Nat} (h : m ≤ n) : twoPow m ≤ twoPow n :=
  Nat.pow_le_pow_right (by decide) h

namespace Binary64

/-- The number denoted is less than one. -/
def BelowOne (x : Binary64) : Prop := x.ratio.1 < x.ratio.2

instance (x : Binary64) : Decidable x.BelowOne := inferInstanceAs (Decidable (_ < _))

theorem significand_lt (x : Binary64) : x.significand < twoPow 53 := by
  have hf : x.fractionField < twoPow 52 := Nat.mod_lt _ (by decide)
  have hdouble : twoPow 53 = twoPow 52 + twoPow 52 := rfl
  unfold significand
  split <;> omega

/-- A number whose exponent field is below that of one. -/
theorem belowOne_of_exponentField {x : Binary64} (h : x.exponentField < 1023) : x.BelowOne := by
  have hscale : x.scale.toNat = 0 := by
    unfold scale
    omega
  have hpow : 53 ≤ (-x.scale).toNat := by
    unfold scale
    omega
  calc x.significand * twoPow x.scale.toNat
    _ = x.significand := by rw [hscale]; exact Nat.mul_one _
    _ < twoPow 53 := x.significand_lt
    _ ≤ twoPow (-x.scale).toNat := twoPow_le_twoPow hpow

/-- A probability other than one has a smaller exponent field, and a sign only if it is zero. -/
theorem eq_one_or_of_isProbability {x : Binary64} (h : x.isProbability) :
    x = one ∨ x.exponentField < 1023 ∧ (x.negative → x.significand = 0) := by
  unfold isProbability at h
  rw [Bool.or_eq_true, decide_eq_true_eq, beq_iff_eq] at h
  rcases h with hle | rfl
  · have hle : x.bits.toNat ≤ 1023 * twoPow 52 := UInt64.le_iff_toNat_le.1 hle
    by_cases hone : x = one
    · exact .inl hone
    · have hbits : x.bits.toNat ≠ 1023 * twoPow 52 := fun he =>
        hone (congrArg Binary64.mk (UInt64.toNat_inj.1 he))
      have hexponent : x.exponentField < 1023 :=
        calc x.exponentField
          _ ≤ x.bits.toNat / twoPow 52 := Nat.mod_le _ _
          _ < 1023 := Nat.div_lt_of_lt_mul (by omega)
      have hsmall : 1023 * twoPow 52 < twoPow 63 := by decide
      have hsign : ¬ x.negative := by
        unfold negative
        simp only [decide_eq_true_eq]
        omega
      exact .inr ⟨hexponent, fun hneg => absurd hneg hsign⟩
  · exact .inr (by decide)

theorem belowOne_iff {x : Binary64} (h : x.isProbability) : x.BelowOne ↔ x ≠ one := by
  have hone : ¬ one.BelowOne := by decide
  refine ⟨fun hlt he => hone (he ▸ hlt), fun hne => ?_⟩
  exact belowOne_of_exponentField ((eq_one_or_of_isProbability h).resolve_left hne).1

/-! ## Values -/

/-- The number that a finite pattern denotes. -/
def toRat (x : Binary64) : ℚ := (if x.negative then -1 else 1) * x.significand * 2 ^ x.scale

/-- A number whose exponent field is below that of one. -/
theorem significand_mul_le {x : Binary64} (h : x.exponentField < 1023) :
    (x.significand : ℚ) * 2 ^ x.scale ≤ 1 := by
  have hsignificand : (x.significand : ℚ) ≤ 2 ^ (53 : ℤ) := by
    have hlt : x.significand ≤ 2 ^ 53 := Nat.le_of_lt x.significand_lt
    exact_mod_cast hlt
  have hscale : x.scale ≤ -53 := by
    unfold scale
    omega
  calc (x.significand : ℚ) * 2 ^ x.scale
    _ ≤ 2 ^ (53 : ℤ) * 2 ^ (-53 : ℤ) :=
      mul_le_mul hsignificand (zpow_le_zpow_right₀ (by norm_num) hscale) (by positivity)
        (by positivity)
    _ = 1 := by norm_num

theorem bounds_of_isProbability {x : Binary64} (h : x.isProbability) :
    x.isFinite ∧ 0 ≤ x.toRat ∧ x.toRat ≤ 1 := by
  rcases eq_one_or_of_isProbability h with rfl | ⟨hexponent, hsign⟩
  · have hone : one.toRat = 1 := by
      rw [toRat, show one.negative = false from rfl, show one.significand = 2 ^ 52 from rfl,
        show one.scale = -52 from rfl]
      norm_num
    rw [hone]
    exact ⟨rfl, by norm_num, le_refl 1⟩
  · refine ⟨decide_eq_true (by omega), ?_⟩
    unfold toRat
    by_cases hneg : x.negative
    · simp [hsign hneg]
    · rw [if_neg hneg, one_mul]
      exact ⟨mul_nonneg (Nat.cast_nonneg _) (zpow_nonneg zero_le_two _),
        significand_mul_le hexponent⟩

end Binary64

end AttackDefense.Decimal
