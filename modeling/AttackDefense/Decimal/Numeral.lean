import AttackDefense.Decimal.Binary64

/-!
# Reading decimal numerals

A numeral is an optional sign followed by `inf`, `infinity` or `nan` in any case, or by digits with
at most one point among them and an optional exponent; it has at least one digit before the
exponent. `readNumeral` gives the nearest number, and infinity beyond the range. Nothing may stand
around the numeral.
-/

namespace AttackDefense.Decimal

/-- Why a text is no numeral. -/
inductive NumeralFault where
  | empty
  | malformed
deriving DecidableEq, Repr

def NumeralFault.message : NumeralFault → String
  | .empty => "cannot parse float from empty string"
  | .malformed => "invalid float literal"

/-- The number that a list of decimal digits stands for. -/
def digitsValue (digits : List Char) : Nat :=
  digits.foldl (fun n c => 10 * n + (c.toNat - '0'.toNat)) 0

/--
The number nearest to `digits * 10^exponent`, where `digits` has at most `count` digits. Powers far
outside of the range are settled without being computed.
-/
def Binary64.ofDecimal (digits count : Nat) (exponent : Int) : Binary64 :=
  if digits = 0 then zero
  else if 400 < exponent then infinity
  else if exponent + count < -400 then zero
  else ofRatio (digits * tenPow exponent.toNat) (tenPow (-exponent).toNat)

/-- The part before the exponent, and the digits found in it. -/
structure Mantissa where
  whole : List Char
  places : List Char
  rest : List Char

/-- Digits, and the digits after a point if one follows. -/
def Mantissa.split (text : List Char) : Mantissa :=
  let whole := text.takeWhile Char.isDigit
  match text.dropWhile Char.isDigit with
  | '.' :: rest => ⟨whole, rest.takeWhile Char.isDigit, rest.dropWhile Char.isDigit⟩
  | rest => ⟨whole, [], rest⟩

/-- What follows a sign: whether the sign was a minus, and the text behind it. -/
def splitSign : List Char → Bool × List Char
  | '-' :: rest => (true, rest)
  | '+' :: rest => (false, rest)
  | rest => (false, rest)

/-- The exponent that ends a numeral: nothing, or `e` with at least one digit and nothing behind. -/
def readExponent : List Char → Option Int
  | [] => some 0
  | c :: rest =>
    if c = 'e' ∨ c = 'E' then
      let (neg, digits) := splitSign rest
      if digits ≠ [] ∧ digits.all Char.isDigit then
        let n : Int := digitsValue digits
        some (if neg then -n else n)
      else none
    else none

/-- A numeral without a sign. -/
def readMagnitude (text : List Char) : Except NumeralFault Binary64 :=
  let lower := text.map Char.toLower
  if lower = "inf".toList ∨ lower = "infinity".toList then .ok Binary64.infinity
  else if lower = "nan".toList then .ok Binary64.nan
  else
    let m := Mantissa.split text
    let digits := m.whole ++ m.places
    if digits = [] then .error .malformed
    else match readExponent m.rest with
      | none => .error .malformed
      | some e => .ok (Binary64.ofDecimal (digitsValue digits) digits.length (e - m.places.length))

/-- The number nearest to a numeral. -/
def readNumeral (text : List Char) : Except NumeralFault Binary64 :=
  if text = [] then .error .empty
  else
    let (neg, rest) := splitSign text
    (readMagnitude rest).map (Binary64.withSign neg)

end AttackDefense.Decimal
