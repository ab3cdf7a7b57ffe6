import AttackDefense.Decimal.Shortest

/-!
# Written forms of numbers

A `Layout` records the decisions that a written form makes: which exponents are written out in
positions, whether a whole number keeps a zero after the point, how an exponent is marked, and
which way a tie among the shortest decimals goes. `plain`, `marked` and `interchange` are the three
forms that this library writes. `fixed` writes a given number of places.
-/

namespace AttackDefense.Decimal

/-- The decisions of a written form. -/
structure Layout where
  /-- Whether a number `d.ddd * 10^e` is written out in positions. -/
  positional : Int → Bool
  /-- Whether a whole number that is written out ends in a point and a zero. -/
  keepsPoint : Bool
  /-- Whether a non-negative exponent carries a sign. -/
  signsExponent : Bool
  tie : Tie

/-- Written out in positions whatever the size, whole numbers without a point. -/
def Layout.plain : Layout := ⟨fun _ => true, false, false, .larger⟩

/-- Floating-point numbers stay recognisable: a point is kept, and sizes from `1e16` on and below
`1e-4` use an exponent. -/
def Layout.marked : Layout := ⟨fun e => -4 ≤ e ∧ e < 16, true, false, .larger⟩

/-- The form of data files: an exponent from `1e16` on and below `1e-5`, always with its sign. -/
def Layout.interchange : Layout := ⟨fun e => -5 ≤ e ∧ e < 16, true, true, .even⟩

/-! ## Writing -/

def zeros (n : Nat) : String := String.ofList (List.replicate n '0')

/-- A decimal written out in positions. -/
def Scientific.positional (s : Scientific) (keepsPoint : Bool) : String :=
  let digits := Nat.toDigits 10 s.digits
  if 0 ≤ s.exponent then
    String.ofList digits ++ zeros s.exponent.toNat ++ (if keepsPoint then ".0" else "")
  else
    let places := (-s.exponent).toNat
    let whole := digits.length - places
    if places < digits.length then
      String.ofList (digits.take whole) ++ "." ++ String.ofList (digits.drop whole)
    else
      "0." ++ zeros (places - digits.length) ++ String.ofList digits

/-- A decimal written as its first digit, a point, the others and an exponent. -/
def Scientific.exponential (s : Scientific) (signsExponent : Bool) : String :=
  let digits := Nat.toDigits 10 s.digits
  let e := s.exponent + ((digits.length - 1 : Nat) : Int)
  let mantissa := match digits with
    | [] => ""
    | [d] => String.singleton d
    | d :: rest => String.singleton d ++ "." ++ String.ofList rest
  let sign := if e < 0 then "-" else if signsExponent then "+" else ""
  mantissa ++ "e" ++ sign ++ toString e.natAbs

/-- The exponent of the first digit. -/
def Scientific.order (s : Scientific) : Int :=
  s.exponent + (((Nat.toDigits 10 s.digits).length - 1 : Nat) : Int)

def signText (x : Binary64) : String := if x.negative then "-" else ""

/-- A number in a written form. What is no number has no sign. -/
def Layout.render (layout : Layout) (x : Binary64) : String :=
  if x.isNaN then "NaN"
  else if x.isInfinite then signText x ++ "inf"
  else
    let s := x.shortest layout.tie
    signText x ++
      if x.isZero || layout.positional s.order then s.positional layout.keepsPoint
      else s.exponential layout.signsExponent

/-- Exactly `places` digits after the point, from the exact value, a tie to the even digit. -/
def Binary64.fixed (x : Binary64) (places : Nat) : String :=
  if x.isNaN then "NaN"
  else if x.isInfinite then signText x ++ "inf"
  else
    let (num, den) := x.ratio
    let digits := Nat.toDigits 10 (Binary64.roundHalfEven (num * tenPow places) den)
    let padded := List.replicate (places + 1 - digits.length) '0' ++ digits
    let whole := padded.length - places
    signText x ++ String.ofList (padded.take whole) ++
      (if places = 0 then "" else "." ++ String.ofList (padded.drop whole))

/-- Sixteen hexadecimal digits of the bit pattern. -/
def Binary64.hex (x : Binary64) : String :=
  let digits := Nat.toDigits 16 x.bits.toNat
  zeros (16 - digits.length) ++ String.ofList digits

end AttackDefense.Decimal
