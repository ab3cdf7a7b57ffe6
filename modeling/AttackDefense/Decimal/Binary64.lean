/-!
# Binary floating-point numbers of 64 bits

A `Binary64` is its bit pattern. A finite pattern denotes the exact dyadic number

    (-1)^negative * significand * 2^scale

and every operation here works on that exact value and rounds once, to the nearest pattern with ties
to the even one (`ofRatio`). So results depend on nothing but natural-number arithmetic, the two
zeros stay apart, and so do the signs of the patterns that are no number.
-/

namespace AttackDefense.Decimal

/-- The power `2^n`. -/
def twoPow (n : Nat) : Nat := Nat.pow 2 n

/-- The power `10^n`. -/
def tenPow (n : Nat) : Nat := Nat.pow 10 n

/-- A number of 64 bits: sign, eleven bits of exponent, 52 bits of fraction. -/
structure Binary64 where
  bits : UInt64
deriving DecidableEq, Hashable, Inhabited, Repr

namespace Binary64

def zero : Binary64 := ⟨0⟩

def one : Binary64 := ⟨0x3ff0000000000000⟩

def infinity : Binary64 := ⟨0x7ff0000000000000⟩

/-- The quiet pattern without a sign that stands for "not a number". -/
def nan : Binary64 := ⟨0x7ff8000000000000⟩

/-! ## Fields -/

def negative (x : Binary64) : Bool := twoPow 63 ≤ x.bits.toNat

/-- The eleven exponent bits. -/
def exponentField (x : Binary64) : Nat := x.bits.toNat / twoPow 52 % twoPow 11

/-- The 52 fraction bits. -/
def fractionField (x : Binary64) : Nat := x.bits.toNat % twoPow 52

def isFinite (x : Binary64) : Bool := x.exponentField < 2047

def isNaN (x : Binary64) : Bool := x.exponentField == 2047 && x.fractionField != 0

def isInfinite (x : Binary64) : Bool := x.exponentField == 2047 && x.fractionField == 0

/-- The integer `m` of the exact value `m * 2^scale`. -/
def significand (x : Binary64) : Nat :=
  if x.exponentField = 0 then x.fractionField else twoPow 52 + x.fractionField

/-- The exponent `q` of the exact value `m * 2^q`; numbers below the normal range share the least one. -/
def scale (x : Binary64) : Int := (max x.exponentField 1 : Int) - 1075

def isZero (x : Binary64) : Bool := x.exponentField == 0 && x.fractionField == 0

/-- The same number with its sign turned. -/
def negate (x : Binary64) : Binary64 := ⟨x.bits ^^^ 0x8000000000000000⟩

/-- The magnitude with the given sign. -/
def withSign (neg : Bool) (x : Binary64) : Binary64 := if neg then x.negate else x

/-- The magnitude as a quotient of natural numbers. -/
def ratio (x : Binary64) : Nat × Nat :=
  (x.significand * twoPow x.scale.toNat, twoPow (-x.scale).toNat)

/-! ## Rounding -/

/-- The quotient rounded to the nearest integer, a tie to the even one. -/
def roundHalfEven (num den : Nat) : Nat :=
  let q := num / den
  let twice := 2 * (num % den)
  if twice < den then q
  else if den < twice then q + 1
  else if q % 2 = 0 then q else q + 1

/-- The quotient rounded to the nearest integer, a tie to the larger one. -/
def roundHalfUp (num den : Nat) : Nat := (2 * num + den) / (2 * den)

/--
The least `q ≥ -1074` with `num / den < 2^(q + 53)`: in units of `2^q` a positive quotient has
53 bits, or fewer below the normal range. The estimate from the bit lengths is at most one too
large.
-/
def unitExponent (num den : Nat) : Int :=
  let q : Int := (num.log2 : Int) - den.log2 - 52
  let fits : Bool := num * twoPow (-(q + 52)).toNat < den * twoPow (q + 52).toNat
  max (if fits then q - 1 else q) (-1074)

/--
The non-negative quotient rounded to the nearest pattern. A significand that rounds up to `2^53`
carries into the exponent field by itself, and what leaves the range is `infinity`.
-/
def ofRatio (num den : Nat) : Binary64 :=
  if num = 0 then zero
  else
    let q := unitExponent num den
    let m := roundHalfEven (num * twoPow (-q).toNat) (den * twoPow q.toNat)
    let pattern := (q + 1074).toNat * twoPow 52 + m
    if pattern < 2047 * twoPow 52 then ⟨UInt64.ofNat pattern⟩ else infinity

def ofNat (n : Nat) : Binary64 := ofRatio n 1

/-! ## Arithmetic on magnitudes

The operands are finite and their signs are not looked at. -/

def mul (x y : Binary64) : Binary64 :=
  let (a, b) := x.ratio
  let (c, d) := y.ratio
  ofRatio (a * c) (b * d)

def div (x y : Binary64) : Binary64 :=
  let (a, b) := x.ratio
  let (c, d) := y.ratio
  ofRatio (a * d) (b * c)

/-- The probability of the opposite event, `1 - x` rounded once, of a number from 0 to 1. -/
def complement (x : Binary64) : Binary64 :=
  let (a, b) := x.ratio
  ofRatio (b - a) b

/-- A number from 0 to 1. The zero with a sign is one, a pattern that is no number is not. -/
def isProbability (x : Binary64) : Bool := x.bits ≤ one.bits || x == zero.negate

/-- The integer nearest to a non-negative finite number, a tie to the larger one. -/
def roundToNat (x : Binary64) : Nat :=
  let (a, b) := x.ratio
  roundHalfUp a b

end Binary64

end AttackDefense.Decimal
