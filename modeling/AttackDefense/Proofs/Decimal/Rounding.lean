import AttackDefense.Proofs.Decimal.Probability
import Mathlib.Tactic.FieldSimp
import Mathlib.Tactic.Ring

/-!
# The range of rounded quotients

`ofRatio` keeps 53 bits of a quotient.  The unit of the last bit is the least power of two that
leaves no more than 53 bits, so a quotient below a power of two is rounded to a number up to it, and
one far below the end of the range stays finite:

    num < den * 2^(e - 1022) → (ofRatio num den).exponentField ≤ e + 1    (exponentField_ofRatio_le)

For `x.exponentField ≤ e` the number is less than `2^(e - 1022)`, so dividing by at least `2^k`
takes `k` off the exponent field before the carry (`exponentField_div_le`).
-/

namespace AttackDefense.Decimal.Binary64

variable {num den : Nat} {x y : Binary64}

/-! ## The unit of a quotient -/

theorem twoPow_pos (n : Nat) : 0 < twoPow n := Nat.pow_pos (by decide)

/-- A power of two is split into its positive and its negative part. -/
theorem twoPow_toNat (q : ℤ) : (twoPow q.toNat : ℚ) = twoPow (-q).toNat * 2 ^ q := by
  obtain ⟨n, rfl | rfl⟩ := q.eq_nat_or_neg
  · have hneg : (-(n : ℤ)).toNat = 0 := by omega
    rw [hneg, Int.toNat_natCast, zpow_natCast]
    simp [twoPow]
  · have hneg : (-(n : ℤ)).toNat = 0 := by omega
    rw [neg_neg, hneg, Int.toNat_natCast, zpow_neg, zpow_natCast]
    simp [twoPow]

/-- Both sides scaled by a power of two that keeps them whole. -/
theorem scaled_lt_iff (a b : Nat) (q : ℤ) :
    a * twoPow (-q).toNat < b * twoPow q.toNat ↔ (a : ℚ) < b * 2 ^ q := by
  have hpos : (0 : ℚ) < twoPow (-q).toNat := by exact_mod_cast twoPow_pos _
  have hright : (b : ℚ) * (twoPow (-q).toNat * 2 ^ q) = b * 2 ^ q * twoPow (-q).toNat := by ring
  rw [← Nat.cast_lt (α := ℚ), Nat.cast_mul, Nat.cast_mul, twoPow_toNat q, hright,
    mul_lt_mul_iff_left₀ hpos]

theorem two_zpow_le {p q : ℤ} (h : p ≤ q) : (2 : ℚ) ^ p ≤ 2 ^ q :=
  zpow_le_zpow_right₀ one_le_two h

/-- A natural number between two powers of two. -/
theorem log2_bounds {n : Nat} (hn : 0 < n) :
    (2 : ℚ) ^ (n.log2 : ℤ) ≤ n ∧ (n : ℚ) < 2 ^ ((n.log2 : ℤ) + 1) := by
  have hlow : 2 ^ n.log2 ≤ n := Nat.log2_self_le hn.ne'
  have hhigh : n < 2 ^ (n.log2 + 1) := Nat.lt_log2_self
  constructor
  · rw [zpow_natCast]
    exact_mod_cast hlow
  · exact_mod_cast hhigh

/-- In its unit a quotient has at most 53 bits. -/
theorem lt_unitExponent (hden : 0 < den) (hnum : 0 < num) :
    (num : ℚ) < den * 2 ^ (unitExponent num den + 53) := by
  have hestimate : (num : ℚ) < den * 2 ^ ((num.log2 : ℤ) - den.log2 - 52 + 53) := by
    calc (num : ℚ)
      _ < 2 ^ ((num.log2 : ℤ) + 1) := (log2_bounds hnum).2
      _ = 2 ^ (den.log2 : ℤ) * 2 ^ ((num.log2 : ℤ) - den.log2 - 52 + 53) := by
        rw [← zpow_add₀ two_ne_zero]
        congr 1
        ring
      _ ≤ den * 2 ^ ((num.log2 : ℤ) - den.log2 - 52 + 53) :=
        mul_le_mul_of_nonneg_right (log2_bounds hden).1 (by positivity)
  have hgrow {p q : ℤ} (hpq : p ≤ q) (h : (num : ℚ) < den * 2 ^ (p + 53)) :
      (num : ℚ) < den * 2 ^ (q + 53) :=
    h.trans_le (mul_le_mul_of_nonneg_left (two_zpow_le (by omega)) (Nat.cast_nonneg _))
  unfold unitExponent
  dsimp only
  split
  · next hfits =>
    rw [decide_eq_true_eq, scaled_lt_iff] at hfits
    refine hgrow (le_max_left _ _) ?_
    convert hfits using 3
    ring
  · exact hgrow (le_max_left _ _) hestimate

/-- No smaller unit would do, but for the least one. -/
theorem unitExponent_le {q : ℤ} (hden : 0 < den) (hnum : 0 < num)
    (h : (num : ℚ) < den * 2 ^ (q + 53)) : unitExponent num den ≤ max q (-1074) := by
  have hless {p : ℤ} (hp : (den : ℚ) * 2 ^ p ≤ num) : p < q + 53 := by
    by_contra hge
    have hle : (den : ℚ) * 2 ^ (q + 53) ≤ den * 2 ^ p :=
      mul_le_mul_of_nonneg_left (two_zpow_le (by omega)) (Nat.cast_nonneg _)
    exact absurd (h.trans_le (hle.trans hp)) (lt_irrefl _)
  have hestimate : (den : ℚ) * 2 ^ ((num.log2 : ℤ) - den.log2 - 1) ≤ num := by
    calc (den : ℚ) * 2 ^ ((num.log2 : ℤ) - den.log2 - 1)
      _ ≤ 2 ^ ((den.log2 : ℤ) + 1) * 2 ^ ((num.log2 : ℤ) - den.log2 - 1) :=
        mul_le_mul_of_nonneg_right (log2_bounds hden).2.le (by positivity)
      _ = 2 ^ (num.log2 : ℤ) := by
        rw [← zpow_add₀ two_ne_zero]
        congr 1
        ring
      _ ≤ num := (log2_bounds hnum).1
  unfold unitExponent
  dsimp only
  split
  · have := hless hestimate
    omega
  · next hfits =>
    rw [decide_eq_true_eq, scaled_lt_iff, not_lt] at hfits
    have := hless hfits
    omega

/-! ## Rounding -/

theorem roundHalfEven_le {a b n : Nat} (h : a < b * n) : roundHalfEven a b ≤ n := by
  have hfloor : a / b < n := Nat.div_lt_of_lt_mul h
  unfold roundHalfEven
  dsimp only
  split_ifs <;> omega

theorem exponentField_ofNat_le {p e : Nat} (h : p ≤ e * twoPow 52 + (twoPow 52 - 1)) :
    (Binary64.mk (UInt64.ofNat p)).exponentField ≤ e := by
  have hbits : (UInt64.ofNat p).toNat ≤ p := by
    rw [UInt64.toNat_ofNat']
    exact Nat.mod_le _ _
  have hpos : 0 < twoPow 52 := by decide
  calc (Binary64.mk (UInt64.ofNat p)).exponentField
    _ ≤ (UInt64.ofNat p).toNat / twoPow 52 := Nat.mod_le _ _
    _ ≤ p / twoPow 52 := Nat.div_le_div_right hbits
    _ ≤ e := Nat.le_of_lt_succ (Nat.div_lt_of_lt_mul (by rw [Nat.mul_succ, Nat.mul_comm]; omega))

/-- **A quotient below a power of two is rounded to a number up to that power.** -/
theorem exponentField_ofRatio_le {e : Nat} (he : 1 ≤ e) (hmax : e < 2046) (hden : 0 < den)
    (h : (num : ℚ) < den * 2 ^ ((e : ℤ) - 1022)) : (ofRatio num den).exponentField ≤ e + 1 := by
  rcases Nat.eq_zero_or_pos num with rfl | hnum
  · exact (congrArg exponentField (if_pos rfl)).trans_le (Nat.zero_le _)
  have hunit : unitExponent num den ≤ (e : ℤ) - 1075 := by
    have hle := unitExponent_le (q := (e : ℤ) - 1075) hden hnum (by convert h using 3; ring)
    omega
  have hleast : -1074 ≤ unitExponent num den := le_max_right _ _
  have hbits := lt_unitExponent hden hnum
  rw [ofRatio, if_neg hnum.ne']
  dsimp only
  generalize unitExponent num den = q at hunit hleast hbits ⊢
  have hround : roundHalfEven (num * twoPow (-q).toNat) (den * twoPow q.toNat) ≤ twoPow 53 := by
    refine roundHalfEven_le ?_
    have hscaled : num * twoPow (-q).toNat < den * twoPow 53 * twoPow q.toNat := by
      rw [scaled_lt_iff]
      convert hbits using 1
      rw [zpow_add₀ two_ne_zero]
      push_cast [twoPow]
      ring
    calc num * twoPow (-q).toNat
      _ < den * twoPow 53 * twoPow q.toNat := hscaled
      _ = den * twoPow q.toNat * twoPow 53 := Nat.mul_right_comm _ _ _
  generalize roundHalfEven (num * twoPow (-q).toNat) (den * twoPow q.toNat) = m at hround ⊢
  have hdouble : twoPow 53 = 2 * twoPow 52 := by decide
  have hpattern : (q + 1074).toNat * twoPow 52 + m ≤ (e + 1) * twoPow 52 :=
    calc (q + 1074).toNat * twoPow 52 + m
      _ ≤ (e - 1) * twoPow 52 + 2 * twoPow 52 :=
        Nat.add_le_add (Nat.mul_le_mul_right _ (by omega)) (hdouble ▸ hround)
      _ = (e + 1) * twoPow 52 := by
        rw [← Nat.add_mul]
        congr 1
        omega
  have hrange : (e + 1) * twoPow 52 < 2047 * twoPow 52 :=
    Nat.mul_lt_mul_of_pos_right (by omega) (by decide)
  rw [if_pos (Nat.lt_of_le_of_lt hpattern hrange)]
  exact exponentField_ofNat_le (hpattern.trans (Nat.le_add_right _ _))

/-! ## Arithmetic -/

theorem ratio_lt {e : Nat} (he : 1 ≤ e) (hx : x.exponentField ≤ e) :
    (x.ratio.1 : ℚ) < x.ratio.2 * 2 ^ ((e : ℤ) - 1022) := by
  have hscale : x.scale ≤ (e : ℤ) - 1075 := by
    unfold scale
    omega
  have hsignificand : (x.significand : ℚ) < 2 ^ ((e : ℤ) - 1022 - x.scale) :=
    calc (x.significand : ℚ)
      _ < 2 ^ (53 : ℤ) := by exact_mod_cast x.significand_lt
      _ ≤ 2 ^ ((e : ℤ) - 1022 - x.scale) := two_zpow_le (by omega)
  have hpos : (0 : ℚ) < twoPow x.scale.toNat := by exact_mod_cast twoPow_pos _
  calc (x.ratio.1 : ℚ)
    _ = x.significand * twoPow x.scale.toNat := by
      rw [ratio]
      push_cast
      rfl
    _ < 2 ^ ((e : ℤ) - 1022 - x.scale) * twoPow x.scale.toNat :=
      mul_lt_mul_of_pos_right hsignificand hpos
    _ = x.ratio.2 * 2 ^ ((e : ℤ) - 1022) := by
      rw [twoPow_toNat, zpow_sub₀ two_ne_zero, ratio]
      field_simp

theorem ratio_den_pos (x : Binary64) : 0 < x.ratio.2 := twoPow_pos _

/-- **Dividing by a power of two or more lowers the exponent field, but for one carry.** -/
theorem exponentField_div_le {e k : Nat} (hk : k < e) (hmax : e < 2046) (hx : x.exponentField ≤ e)
    (hy : twoPow k * y.ratio.2 ≤ y.ratio.1) : (x.div y).exponentField ≤ e - k + 1 := by
  have hpos : 0 < y.ratio.1 :=
    Nat.lt_of_lt_of_le (Nat.mul_pos (twoPow_pos k) y.ratio_den_pos) hy
  have hdivisor : (2 : ℚ) ^ (k : ℤ) * y.ratio.2 ≤ y.ratio.1 := by
    rw [zpow_natCast]
    exact_mod_cast hy
  have hdividend := ratio_lt (by omega) hx
  have hden : (0 : ℚ) < y.ratio.2 := by exact_mod_cast y.ratio_den_pos
  refine exponentField_ofRatio_le (by omega) (by omega) (Nat.mul_pos x.ratio_den_pos hpos) ?_
  calc ((x.ratio.1 * y.ratio.2 : Nat) : ℚ)
    _ = x.ratio.1 * y.ratio.2 := Nat.cast_mul _ _
    _ < x.ratio.2 * 2 ^ ((e : ℤ) - 1022) * y.ratio.2 := mul_lt_mul_of_pos_right hdividend hden
    _ = x.ratio.2 * (2 ^ (k : ℤ) * y.ratio.2) * 2 ^ (((e - k : Nat) : ℤ) - 1022) := by
      have hexponent : ((e : ℤ) - 1022) = k + (((e - k : Nat) : ℤ) - 1022) := by omega
      rw [hexponent, zpow_add₀ two_ne_zero]
      ring
    _ ≤ x.ratio.2 * y.ratio.1 * 2 ^ (((e - k : Nat) : ℤ) - 1022) :=
      mul_le_mul_of_nonneg_right (mul_le_mul_of_nonneg_left hdivisor (Nat.cast_nonneg _))
        (by positivity)
    _ = ((x.ratio.2 * y.ratio.1 : Nat) : ℚ) * 2 ^ (((e - k : Nat) : ℤ) - 1022) := by
      rw [Nat.cast_mul]

/-- A number of 64 bits is rounded to at most `2^64`, whose exponent field is 1087. -/
theorem exponentField_ofNat_size_le {n : Nat} (h : n < UInt64.size) :
    (ofNat n).exponentField ≤ 1087 := by
  refine exponentField_ofRatio_le (e := 1086) (by decide) (by decide) (by decide) ?_
  have hsize : (n : ℚ) < (UInt64.size : Nat) := by exact_mod_cast h
  refine hsize.trans_eq ?_
  norm_num [UInt64.size]

theorem exponentField_negate (x : Binary64) : x.negate.exponentField = x.exponentField := by
  have hbits : x.negate.bits.toNat = x.bits.toNat ^^^ twoPow 63 := UInt64.toNat_xor _ _
  have hpow (n : Nat) : twoPow n = 2 ^ n := rfl
  have hsign : twoPow 63 / twoPow 52 % twoPow 11 = 0 := by decide
  rw [exponentField, hbits]
  rw [hpow 52, hpow 11] at hsign ⊢
  rw [Nat.xor_div_two_pow, Nat.xor_mod_two_pow, hsign, Nat.xor_zero]
  rfl

theorem isFinite_withSign (neg : Bool) (x : Binary64) : (x.withSign neg).isFinite = x.isFinite := by
  cases neg with
  | false => rfl
  | true => exact congrArg (fun e => decide (e < 2047)) x.exponentField_negate

end AttackDefense.Decimal.Binary64
