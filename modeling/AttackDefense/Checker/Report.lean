import AttackDefense.Checker.Fault
import AttackDefense.Model.Query

/-!
# Reports of a checker

A report has a block for each formula, introduced by a header with the number of the formula. Formulas
are numbered like the queries, from 1. `readReport` finds for each strategy whether it was found, and
if so the estimates and the interval that the report gives for it.

Patterns in a report are matched at the first place where they fit. The scanners take as many
characters as they can at each step; no pattern fits with fewer where it does not fit with all of
them.
-/

namespace AttackDefense.Checker

open Decimal

/-! ## Scanning -/

/-- The text behind a word it starts with. -/
def afterWord (word : String) (text : List Char) : Option (List Char) :=
  if word.toList.isPrefixOf text then some (text.drop word.length) else none

/-- Space, tab, line feed, vertical tab, form feed and carriage return. -/
def isBlank (c : Char) : Bool := c = ' ' || '\x09' ≤ c && c ≤ '\x0d'

def skipBlanks (text : List Char) : List Char := text.dropWhile isBlank

/-- A mark between optional blanks. -/
def afterMark (mark : String) (text : List Char) : Option (List Char) :=
  (afterWord mark (skipBlanks text)).map skipBlanks

/-- An optional sign, and the text behind it. -/
def takeSign : List Char → List Char × List Char
  | '-' :: rest => (['-'], rest)
  | '+' :: rest => (['+'], rest)
  | rest => ([], rest)

/-- Digits with an optional point, at least one digit in all. -/
def takeMantissa (text : List Char) : Option (List Char × List Char) :=
  let whole := text.takeWhile Char.isDigit
  match whole, text.dropWhile Char.isDigit with
  | [], '.' :: rest =>
    match rest.takeWhile Char.isDigit with
    | [] => none
    | places => some ('.' :: places, rest.dropWhile Char.isDigit)
  | [], _ => none
  | whole, '.' :: rest =>
    some (whole ++ '.' :: rest.takeWhile Char.isDigit, rest.dropWhile Char.isDigit)
  | whole, rest => some (whole, rest)

/-- An exponent, if a complete one follows. -/
def takeExponent (text : List Char) : List Char × List Char :=
  match text with
  | [] => ([], [])
  | c :: rest =>
    if c = 'e' ∨ c = 'E' then
      let (sign, behind) := takeSign rest
      match behind.takeWhile Char.isDigit with
      | [] => ([], text)
      | digits => (c :: sign ++ digits, behind.dropWhile Char.isDigit)
    else ([], text)

/-- The longest numeral at the start of a text. -/
def takeNumeral (text : List Char) : Option (List Char × List Char) := do
  let (sign, text) := takeSign text
  let (mantissa, text) ← takeMantissa text
  let (exponent, text) := takeExponent text
  return (sign ++ mantissa ++ exponent, text)

/-- Two numerals after one mark and with another between them, and the text behind. -/
def takePair (mark between : String) (text : List Char) :
    Option ((List Char × List Char) × List Char) := do
  let text ← afterWord mark text
  let (first, text) ← takeNumeral (skipBlanks text)
  let text ← afterMark between text
  let (second, text) ← takeNumeral text
  return ((first, second), text)

/-- A mean and a deviation. -/
def takeEstimate (text : List Char) : Option (List Char × List Char) :=
  (takePair "≈" "±" text).map Prod.fst

/-- The two ends of an interval. -/
def takeInterval (text : List Char) : Option (List Char × List Char) := do
  let (ends, text) ← takePair "in [" "," text
  discard <| afterMark "]" text
  return ends

/-- What a scanner finds at the first place where it finds something. -/
def firstMatch (scan : List Char → Option α) : List Char → Option α
  | [] => scan []
  | c :: rest =>
    match scan (c :: rest) with
    | some a => some a
    | none => firstMatch scan rest

/-- Whether a word occurs in a text. -/
def mentions (word : String) (text : List Char) : Bool :=
  (firstMatch (afterWord word) text).isSome

/-! ## Blocks -/

/-- A text without the occurrences of a word; `left` counts the characters of one still to drop. -/
def withoutWord (word : List Char) (kept : List Char) : Nat → List Char → List Char
  | _, [] => kept.reverse
  | left + 1, _ :: rest => withoutWord word kept left rest
  | 0, c :: rest =>
    if word.isPrefixOf (c :: rest) then withoutWord word kept (word.length - 1) rest
    else withoutWord word (c :: kept) 0 rest

/-- The sequences by which a terminal clears a line. -/
def clearLine : List String := ["\x1b[2K", "\x1b[K"]

/-- A report without the sequences that clear a line. -/
def plainText (report : String) : List Char :=
  clearLine.foldl (fun text word => withoutWord word.toList [] 0 text) report.toList

/-- The number in a header that starts a text. A number beyond 64 bits makes no header. -/
def header? (text : List Char) : Option Nat := do
  let behind ← afterWord "Verifying formula " text
  match behind.takeWhile Char.isDigit with
  | [] => none
  | digits =>
    let n := digitsValue digits
    if n < UInt64.size then some n else none

/-- What the report says about a formula, from its header on. -/
structure Block where
  formula : Nat
  text : List Char
deriving DecidableEq, Repr

/-- Cuts a text into blocks; `current` is the number of the block that is open and its characters so
far, last one first. -/
def cutBlocks (done : Array Block) (current : Option (Nat × List Char)) : List Char → List Block
  | [] => (finish done current).toList
  | c :: rest =>
    match header? (c :: rest) with
    | some n => cutBlocks (finish done current) (some (n, [c])) rest
    | none => cutBlocks done (current.map fun (n, text) => (n, c :: text)) rest
where
  /-- Closes the open block. -/
  finish (done : Array Block) : Option (Nat × List Char) → Array Block
    | some (n, text) => done.push ⟨n, text.reverse⟩
    | none => done

def blocks (text : List Char) : List Block := cutBlocks #[] none text

/-! ## Results -/

/-- A simulated mean, and half the width of its confidence interval. -/
structure Estimate where
  mean : Binary64
  deviation : Binary64
deriving DecidableEq, Repr

/-- What is known of a strategy; nothing but its name if none was found. -/
structure StrategyResult where
  strategy : String
  satisfied : Bool
  expectedTime : Option Estimate
  expectedCost : Option Estimate
  /-- Confidence interval of the probability to reach the goal. -/
  successProbability : Option (Binary64 × Binary64)
deriving DecidableEq, Repr

def StrategyResult.unknown (strategy : String) : StrategyResult := ⟨strategy, false, none, none, none⟩

/-- The two numbers of a match. -/
def readPair (formula : Nat) (expected : String) (found : Option (List Char × List Char)) :
    Except Fault (Binary64 × Binary64) :=
  match found with
  | none => .error (.missingResult formula expected)
  | some (first, second) => do
    let a ← (readNumeral first).mapError .number
    let b ← (readNumeral second).mapError .number
    return (a, b)

def readEstimate (formula : Nat) (block : Block) : Except Fault Estimate := do
  let (mean, deviation) ←
    readPair formula "an expected value" (firstMatch takeEstimate block.text)
  return ⟨mean, deviation⟩

def readInterval (formula : Nat) (block : Block) : Except Fault (Binary64 × Binary64) :=
  readPair formula "a probability interval" (firstMatch takeInterval block.text)

/-- Adds the answer to a query to what is known of its strategy. -/
def StrategyResult.add (r : StrategyResult) (kind : QueryKind) (formula : Nat) (block : Block) :
    Except Fault StrategyResult :=
  match kind with
  | .strategy => .ok { r with satisfied := mentions "Formula is satisfied." block.text }
  | .expectedTime => (readEstimate formula block).map fun e => { r with expectedTime := some e }
  | .expectedCost => (readEstimate formula block).map fun e => { r with expectedCost := some e }
  | .successProbability =>
    (readInterval formula block).map fun i => { r with successProbability := some i }

/-- Adds the answer to the query of a number. Of a strategy that was not found nothing more is
asked. -/
def answer (bs : List Block) (r : StrategyResult) (formula : Nat) (q : Query) :
    Except Fault StrategyResult :=
  if q.kind ≠ .strategy ∧ ¬ r.satisfied then .ok r
  else match bs.find? fun b => b.formula = formula with
    | none => .error (.missingOutput formula)
    | some block => r.add q.kind formula block

/-- The answers to the queries from a number on; `done` holds the results so far, last one first. A
query of another strategy than the one before begins a new result. -/
def answers (bs : List Block) (done : List StrategyResult) (formula : Nat) :
    List Query → Except Fault (List StrategyResult)
  | [] => .ok done.reverse
  | q :: rest =>
    let (current, earlier) := match done with
      | r :: earlier =>
        if r.strategy = q.strategy then (r, earlier) else (.unknown q.strategy, done)
      | [] => (.unknown q.strategy, [])
    do
      let r ← answer bs current formula q
      answers bs (r :: earlier) (formula + 1) rest

/-- The results that a report gives for the strategies of some queries. -/
def readReport (report : String) (queries : List Query) : Except Fault (List StrategyResult) :=
  answers (blocks (plainText report)) [] 1 queries

end AttackDefense.Checker
