import AttackDefense.Json.Value

/-!
# JSON tokens

`tokens` cuts a text into brackets, separators and scalars. What is wrong in a text is a token too,
and the last one: whether it matters, and how, depends on what stands before it. A scalar that is
sound in form but has no value (a number out of range, half of a surrogate pair) is `flawed`: it
cannot be read, but it can be skipped.

Main statement, beside the definitions: what is left after a scalar is never longer than what it
was read from (`lexString_rest_le`, `lexNumber_rest_le`), so cutting a text ends.
-/

namespace AttackDefense.Json

open Decimal

/-- A value that is no container. -/
inductive Scalar where
  | null
  | bool (b : Bool)
  | number (n : Number)
  | string (s : String)
deriving DecidableEq, Repr

inductive Token where
  | leftBrace
  | rightBrace
  | leftBracket
  | rightBracket
  | comma
  | colon
  | scalar (value : Scalar)
  /-- Sound in form, but without a value: a string or a number. -/
  | flawed (text : Bool)
  /-- The text is wrong or ends here: in a string or elsewhere, and the defect that shows when the
  token is read and when it is skipped. -/
  | broken (text : Bool) (read skip : Defect)
deriving DecidableEq, Repr

/-- The outcome of cutting off one scalar. -/
inductive Lexeme where
  /-- The token and the text behind it. -/
  | complete (token : Token) (rest : List Char)
  | broken (read skip : Defect)

/-! ## Strings -/

def hexDigit? (c : Char) : Option Nat :=
  if c.isDigit then some (c.toNat - '0'.toNat)
  else if 'a' ≤ c ∧ c ≤ 'f' then some (c.toNat - 'a'.toNat + 10)
  else if 'A' ≤ c ∧ c ≤ 'F' then some (c.toNat - 'A'.toNat + 10)
  else none

/-- The 16-bit unit of four hexadecimal digits. -/
def hexUnit? (a b c d : Char) : Option Nat := do
  let a ← hexDigit? a
  let b ← hexDigit? b
  let c ← hexDigit? c
  let d ← hexDigit? d
  return ((a * 16 + b) * 16 + c) * 16 + d

/-- The defect of an escape whose digits run into the end: four bytes are looked at before they are
told to be digits. -/
def hexDefect (text : List Char) : Defect :=
  if (String.ofList text).utf8ByteSize < 4 then .ended else .malformed

/-- The character that a letter stands for behind a backslash. -/
def unescape? (c : Char) : Option Char :=
  if c = '\x22' ∨ c = '\\' ∨ c = '/' then some c
  else if c = 'b' then some '\x08'
  else if c = 'f' then some '\x0c'
  else if c = 'n' then some '\n'
  else if c = 'r' then some '\r'
  else if c = 't' then some '\t'
  else none

def isHighSurrogate (unit : Nat) : Bool := 0xd800 ≤ unit && unit < 0xdc00

def isLowSurrogate (unit : Nat) : Bool := 0xdc00 ≤ unit && unit < 0xe000

/-- What has been read of a string. -/
structure Partial where
  /-- The characters, last one first. -/
  chars : List Char
  /-- The first unit of a surrogate pair, waiting for the second. -/
  pending : Option Nat
  /-- Whether all surrogates so far were paired. -/
  sound : Bool

def Partial.start : Partial := ⟨[], none, true⟩

/-- A whole character follows, so a waiting surrogate stays alone. -/
def Partial.push (p : Partial) (c : Char) : Partial :=
  ⟨c :: p.chars, none, p.sound && p.pending.isNone⟩

/-- A 16-bit unit follows. -/
def Partial.pushUnit (p : Partial) (unit : Nat) : Partial :=
  match p.pending with
  | some high =>
    if isLowSurrogate unit then
      ⟨Char.ofNat (0x10000 + (high - 0xd800) * 0x400 + (unit - 0xdc00)) :: p.chars, none, p.sound⟩
    else ⟨p.chars, none, false⟩
  | none =>
    if isHighSurrogate unit then ⟨p.chars, some unit, p.sound⟩
    else if isLowSurrogate unit then ⟨p.chars, none, false⟩
    else p.push (Char.ofNat unit)

/-- A defect further on shows only if everything before it could be read. -/
def Partial.broken (p : Partial) (defect : Defect) : Lexeme :=
  .broken (if p.sound then defect else .malformed) defect

/-- The closing quote. -/
def Partial.close (p : Partial) (rest : List Char) : Lexeme :=
  if p.sound && p.pending.isNone then
    .complete (.scalar (.string (String.ofList p.chars.reverse))) rest
  else .complete (.flawed true) rest

/-- A string from behind its opening quote. -/
def lexString (p : Partial) : List Char → Lexeme
  | [] => p.broken .ended
  | '\\' :: 'u' :: a :: b :: c :: d :: rest =>
    match hexUnit? a b c d with
    | some unit => lexString (p.pushUnit unit) rest
    | none => p.broken .malformed
  | '\\' :: 'u' :: rest => p.broken (hexDefect rest)
  | ['\\'] => p.broken .ended
  | '\\' :: c :: rest =>
    match unescape? c with
    | some c => lexString (p.push c) rest
    | none => p.broken .malformed
  | c :: rest =>
    if c = '\x22' then p.close rest
    else if c.toNat < 0x20 then p.broken .malformed
    else lexString (p.push c) rest

/-! ## Numbers

Digits are gathered into a significand of 64 bits. Once a digit does not fit, the digits before the
point count into the exponent and those behind it are dropped. The significand is then rounded to a
binary number, and that is multiplied or divided once by a power of ten: two roundings, so the result
may be a neighbour of the nearest number. -/

/-- The digits gathered so far: the significand, the power of ten still to apply, and whether the
significand still has room. -/
structure Gathered where
  significand : Nat
  exponent : Int
  room : Bool

/-- One more digit before the point. -/
def Gathered.whole (g : Gathered) (c : Char) : Gathered :=
  let next := 10 * g.significand + (c.toNat - '0'.toNat)
  if g.room ∧ next < UInt64.size then { g with significand := next }
  else { g with exponent := g.exponent + 1, room := false }

/-- One more digit behind the point. -/
def Gathered.place (g : Gathered) (c : Char) : Gathered :=
  let next := 10 * g.significand + (c.toNat - '0'.toNat)
  if g.room ∧ next < UInt64.size then { g with significand := next, exponent := g.exponent - 1 }
  else { g with room := false }

/-- A number divided by a power of ten, by at most `10^308` at a time. -/
def divideByTens (x : Binary64) (places : Nat) : Binary64 :=
  if x.isZero then x
  else if places ≤ 308 then x.div (Binary64.ofNat (tenPow places))
  else divideByTens (x.div (Binary64.ofNat (tenPow 308))) (places - 308)
termination_by places

/-- The magnitude of the gathered digits, unless it is out of range. -/
def Gathered.magnitude? (g : Gathered) : Option Binary64 :=
  let x := Binary64.ofNat g.significand
  if g.exponent < 0 then some (divideByTens x (-g.exponent).toNat)
  else if g.exponent ≤ 308 then
    let y := x.mul (Binary64.ofNat (tenPow g.exponent.toNat))
    if y.isFinite then some y else none
  else if g.significand = 0 then some x
  else none

/-- The digits of a number, cut from a text: before the point, behind it, and the exponent. -/
structure NumberParts where
  negative : Bool
  whole : List Char
  /-- The digits behind a point, if there is a point. -/
  places : Option (List Char)
  exponent : Option Int

/-- The value of a number whose parts are complete. -/
def NumberParts.value? (p : NumberParts) : Option Number :=
  let g := p.whole.foldl Gathered.whole ⟨0, 0, true⟩
  if p.places.isNone ∧ p.exponent.isNone ∧ g.room then
    if ¬ p.negative then some (.integer g.significand)
    else if 0 < g.significand ∧ g.significand ≤ twoPow 63 then some (.integer (-g.significand))
    else some (.float (Binary64.ofNat g.significand).negate)
  else
    -- a significand that was full before the point may still take a digit behind it
    let g := (p.places.getD []).foldl Gathered.place { g with room := true }
    let g := { g with exponent := g.exponent + p.exponent.getD 0 }
    g.magnitude?.map fun x => .float (x.withSign p.negative)

/-- A token for complete parts. -/
def NumberParts.lexeme (p : NumberParts) (rest : List Char) : Lexeme :=
  match p.value? with
  | some n => .complete (.scalar (.number n)) rest
  | none => .complete (.flawed false) rest

/-- Digits are missing: the end of the text is a defect of its own only when the number is read. -/
def missingDigits : List Char → Lexeme
  | [] => .broken .ended .malformed
  | _ => .broken .malformed .malformed

/-- An exponent from behind its letter. -/
def lexExponent (p : NumberParts) (text : List Char) : Lexeme :=
  let (neg, text) := match text with
    | '+' :: rest => (false, rest)
    | '-' :: rest => (true, rest)
    | rest => (false, rest)
  match text.takeWhile Char.isDigit with
  | [] => missingDigits text
  | digits =>
    let n : Int := digits.foldl (fun n c => 10 * n + (c.toNat - '0'.toNat : Nat)) (0 : Nat)
    NumberParts.lexeme { p with exponent := some (if neg then -n else n) }
      (text.dropWhile Char.isDigit)

/-- What may follow the digits of a number. -/
def lexExponentOrEnd (p : NumberParts) : List Char → Lexeme
  | 'e' :: rest => lexExponent p rest
  | 'E' :: rest => lexExponent p rest
  | rest => p.lexeme rest

/-- What may follow the digits before the point. -/
def lexFraction (p : NumberParts) : List Char → Lexeme
  | '.' :: rest =>
    match rest.takeWhile Char.isDigit with
    | [] => missingDigits rest
    | digits => lexExponentOrEnd { p with places := some digits } (rest.dropWhile Char.isDigit)
  | rest => lexExponentOrEnd p rest

/-- A number without its sign. A zero stands alone before the point. -/
def lexUnsigned (negative : Bool) (text : List Char) : Lexeme :=
  match text.takeWhile Char.isDigit with
  | [] => missingDigits text
  | '0' :: _ :: _ => .broken .malformed .malformed
  | digits => lexFraction ⟨negative, digits, none, none⟩ (text.dropWhile Char.isDigit)

def lexNumber : List Char → Lexeme
  | '-' :: rest => lexUnsigned true rest
  | rest => lexUnsigned false rest

/-! ## Words and texts -/

/-- The rest of a word whose first letter has been seen. -/
def lexWord (value : Scalar) : List Char → List Char → Lexeme
  | [], rest => .complete (.scalar value) rest
  | _ :: _, [] => .broken .ended .ended
  | w :: word, c :: rest =>
    if c = w then lexWord value word rest else .broken .malformed .malformed

/-- Whether a character may stand between tokens. -/
def isBlank (c : Char) : Bool := c = ' ' || c = '\n' || c = '\t' || c = '\r'

/-- The scalar that begins with a character. -/
def lexScalar (c : Char) (rest : List Char) : Lexeme :=
  if c = '\x22' then lexString .start rest
  else if c = 'n' then lexWord .null ['u', 'l', 'l'] rest
  else if c = 't' then lexWord (.bool true) ['r', 'u', 'e'] rest
  else if c = 'f' then lexWord (.bool false) ['a', 'l', 's', 'e'] rest
  else if c = '-' ∨ c.isDigit then lexNumber (c :: rest)
  else .broken .malformed .malformed

def punctuation? (c : Char) : Option Token :=
  if c = '\x7b' then some .leftBrace
  else if c = '\x7d' then some .rightBrace
  else if c = '[' then some .leftBracket
  else if c = ']' then some .rightBracket
  else if c = ',' then some .comma
  else if c = ':' then some .colon
  else none

/-! ### What is left is shorter -/

theorem length_dropWhile_le (p : α → Bool) (l : List α) : (l.dropWhile p).length ≤ l.length :=
  (List.dropWhile_suffix p).length_le

theorem lexString_rest_le {p : Partial} {text rest : List Char} {token : Token}
    (h : lexString p text = .complete token rest) : rest.length ≤ text.length := by
  fun_induction lexString p text with
  | case1 => simp [Partial.broken] at h
  | case2 p a b c d rest' unit _ ih =>
    have := ih h
    simp only [List.length_cons]
    omega
  | case3 => simp [Partial.broken] at h
  | case4 => simp [Partial.broken] at h
  | case5 => simp [Partial.broken] at h
  | case6 =>
    rename_i ih
    have := ih h
    simp only [List.length_cons]
    omega
  | case7 => simp [Partial.broken] at h
  | case8 =>
    simp only [Partial.close] at h
    split at h <;> · cases h; simp
  | case9 => simp [Partial.broken] at h
  | case10 =>
    rename_i ih
    exact Nat.le_succ_of_le (ih h)

theorem NumberParts.rest_of_lexeme {p : NumberParts} {text rest : List Char} {token : Token}
    (h : p.lexeme text = .complete token rest) : rest = text := by
  unfold NumberParts.lexeme at h
  split at h <;> · cases h; rfl

theorem missingDigits_ne {text rest : List Char} {token : Token} :
    missingDigits text ≠ .complete token rest := by
  unfold missingDigits
  split <;> simp

theorem lexExponent_rest_le {p : NumberParts} {text rest : List Char} {token : Token}
    (h : lexExponent p text = .complete token rest) : rest.length ≤ text.length := by
  unfold lexExponent at h
  split at h
  rename_i neg text' hs
  have ht : text'.length ≤ text.length := by
    split at hs <;> · cases hs; simp
  split at h
  · exact absurd h missingDigits_ne
  · rw [NumberParts.rest_of_lexeme h]
    exact Nat.le_trans (length_dropWhile_le _ _) ht

theorem lexExponentOrEnd_rest_le {p : NumberParts} {text rest : List Char} {token : Token}
    (h : lexExponentOrEnd p text = .complete token rest) : rest.length ≤ text.length := by
  unfold lexExponentOrEnd at h
  split at h
  · exact Nat.le_succ_of_le (lexExponent_rest_le h)
  · exact Nat.le_succ_of_le (lexExponent_rest_le h)
  · exact Nat.le_of_eq (congrArg List.length (NumberParts.rest_of_lexeme h))

theorem lexFraction_rest_le {p : NumberParts} {text rest : List Char} {token : Token}
    (h : lexFraction p text = .complete token rest) : rest.length ≤ text.length := by
  unfold lexFraction at h
  split at h
  · split at h
    · exact absurd h missingDigits_ne
    · rename_i rest' _ _
      have := lexExponentOrEnd_rest_le h
      have := length_dropWhile_le Char.isDigit rest'
      simp only [List.length_cons]
      omega
  · exact lexExponentOrEnd_rest_le h

/-- At least one digit is taken. -/
theorem lexUnsigned_rest_lt {neg : Bool} {text rest : List Char} {token : Token}
    (h : lexUnsigned neg text = .complete token rest) : rest.length < text.length := by
  unfold lexUnsigned at h
  split at h
  · exact absurd h missingDigits_ne
  · cases h
  · rename_i hd _
    have h1 := lexFraction_rest_le h
    cases text with
    | nil => simp at hd
    | cons c text =>
      by_cases hc : c.isDigit = true
      · rw [List.dropWhile_cons_of_pos hc] at h1
        have := length_dropWhile_le Char.isDigit text
        simp only [List.length_cons]
        omega
      · rw [List.takeWhile_cons_of_neg hc] at hd
        exact absurd rfl hd

theorem lexNumber_rest_le {text rest : List Char} {token : Token}
    (h : lexNumber text = .complete token rest) : rest.length < text.length := by
  unfold lexNumber at h
  split at h
  · exact Nat.lt_succ_of_lt (lexUnsigned_rest_lt h)
  · exact lexUnsigned_rest_lt h

theorem lexWord_rest_le {value : Scalar} {word text rest : List Char} {token : Token}
    (h : lexWord value word text = .complete token rest) : rest.length ≤ text.length := by
  fun_induction lexWord value word text with
  | case1 => cases h; simp
  | case2 => cases h
  | case3 word w text ih => exact Nat.le_succ_of_le (ih h)
  | case4 => cases h

theorem lexScalar_rest_le {c : Char} {text rest : List Char} {token : Token}
    (h : lexScalar c text = .complete token rest) : rest.length ≤ text.length := by
  unfold lexScalar at h
  split at h
  · exact lexString_rest_le h
  · split at h
    · exact lexWord_rest_le h
    · split at h
      · exact lexWord_rest_le h
      · split at h
        · exact lexWord_rest_le h
        · split at h
          · exact Nat.le_of_lt_succ (lexNumber_rest_le h)
          · cases h

/-! ## The text as a whole -/

/-- The tokens of a text behind those already cut off. -/
def tokensFrom (cut : Array Token) : List Char → Array Token
  | [] => cut
  | c :: rest =>
    if isBlank c then tokensFrom cut rest
    else match punctuation? c with
      | some token => tokensFrom (cut.push token) rest
      | none =>
        match h : lexScalar c rest with
        | .complete token rest' =>
          have : rest'.length ≤ rest.length := lexScalar_rest_le h
          tokensFrom (cut.push token) rest'
        | .broken read skip => cut.push (.broken (c = '\x22') read skip)
termination_by text => text.length

/-- The tokens of a text, up to its end or to what is wrong in it. -/
def tokens (text : String) : List Token := (tokensFrom #[] text.toList).toList

end AttackDefense.Json
