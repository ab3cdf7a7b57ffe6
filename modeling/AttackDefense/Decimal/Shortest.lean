import AttackDefense.Decimal.Binary64

/-!
# The fewest digits that read back

A positive finite number `m * 2^q` owns the interval of reals that round to it. `shortest` looks at
the grids of numbers with 1, 2, ... 17 significant digits and stops at the first grid that has a
point in the interval; of two such points it takes the nearer one, and an exact tie is settled by
the caller's rule. If any point of a grid lies in the interval, then so does one of the two grid
points around the number itself, so two candidates a grid are enough.
-/

namespace AttackDefense.Decimal

/-- The decimal number `digits * 10^exponent`. -/
structure Scientific where
  digits : Nat
  exponent : Int
deriving DecidableEq, Repr

/-- Which of two equally near decimals is taken. -/
inductive Tie where
  | larger
  | even
deriving DecidableEq, Repr

/-- The same number without trailing zeros among its digits; `fuel` bounds their count. -/
def Scientific.trim (s : Scientific) : Nat → Scientific
  | 0 => s
  | fuel + 1 =>
    if s.digits ≠ 0 ∧ s.digits % 10 = 0 then
      Scientific.trim ⟨s.digits / 10, s.exponent + 1⟩ fuel
    else s

/-- Whether `10^e ≤ num / den`. -/
def tenPowerLe (e : Int) (num den : Nat) : Bool :=
  den * tenPow e.toNat ≤ num * tenPow (-e).toNat

/--
The exponent `e` with `10^e ≤ num / den < 10^(e + 1)`. The estimate from the bit lengths is off by
at most one, and the two comparisons settle it.
-/
def decade (num den : Nat) : Int :=
  let estimate := ((num.log2 : Int) - den.log2) * 30103 / 100000
  if tenPowerLe estimate num den then
    if tenPowerLe (estimate + 1) num den then estimate + 1 else estimate
  else estimate - 1

/-- An interval of reals around a number, in units of one over `den`. -/
structure Neighbourhood where
  low : Nat
  value : Nat
  high : Nat
  den : Nat
  /-- Whether the two ends belong to the interval. -/
  closed : Bool

/--
The reals that round to `m * 2^q`: half a unit to either side, a quarter below the least
significand of a binade, and the ends themselves when the significand is even.
-/
def Binary64.neighbourhood (x : Binary64) : Neighbourhood :=
  let m := x.significand
  let down := if m = twoPow 52 ∧ 1 < x.exponentField then 1 else 2
  let unit := twoPow (x.scale - 2).toNat
  { low := (4 * m - down) * unit
    value := 4 * m * unit
    high := (4 * m + 2) * unit
    den := twoPow (2 - x.scale).toNat
    closed := m % 2 = 0 }

/-- Whether `num / den` lies in the interval, all three scaled by `scale`. -/
def Neighbourhood.covers (i : Neighbourhood) (scale num : Nat) : Bool :=
  if i.closed then i.low * scale ≤ num && num ≤ i.high * scale
  else i.low * scale < num && num < i.high * scale

/-- The grid point `c * 10^step` of the interval that is nearest to its number, if there is one. -/
def Neighbourhood.nearestOnGrid (i : Neighbourhood) (tie : Tie) (step : Int) : Option Nat :=
  let scale := tenPow (-step).toNat
  let unit := i.den * tenPow step.toNat
  let value := i.value * scale
  let below := value / unit
  let above := below + 1
  match i.covers scale (below * unit), i.covers scale (above * unit) with
  | false, false => none
  | true, false => some below
  | false, true => some above
  | true, true =>
    let toBelow := value - below * unit
    let toAbove := above * unit - value
    if toBelow < toAbove then some below
    else if toAbove < toBelow then some above
    else match tie with
      | .larger => some above
      | .even => some (if below % 2 = 0 then below else above)

/-- The first hit on the grids of `digits`, `digits + 1`, ... significant digits. -/
def Neighbourhood.search (i : Neighbourhood) (tie : Tie) (top : Int) (digits : Nat) :
    Nat → Scientific
  | 0 => ⟨i.value / i.den, 0⟩
  | tries + 1 =>
    let step := top + 1 - digits
    match i.nearestOnGrid tie step with
    | some c => Scientific.trim ⟨c, step⟩ 17
    | none => i.search tie top (digits + 1) tries

/-- The decimal with the fewest digits that rounds to the magnitude of a finite number. -/
def Binary64.shortest (x : Binary64) (tie : Tie) : Scientific :=
  if x.isZero then ⟨0, 0⟩
  else
    let i := x.neighbourhood
    i.search tie (decade i.value i.den) 1 17

end AttackDefense.Decimal
