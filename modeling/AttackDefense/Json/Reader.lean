import AttackDefense.Json.Token

/-!
# Reading typed values from JSON

A `Reader` takes what it needs from the tokens in front of it, or stops at the first defect. The
first defect in reading order decides whether a text is `ended` or `malformed`, so records are read
member by member, in whatever order they come: an unknown member is skipped, and a known one must
not repeat.

* `value depth` reads any value with at most `depth` containers inside one another;
* `skip` passes over a value of any depth, also over scalars that have no value;
* `array`, `members` and `item?` are the loops that typed readers are made of;
* `whole` reads a text that holds one value and nothing else.
-/

namespace AttackDefense.Json

open Decimal

/-- Takes a value off the tokens. -/
abbrev Reader (α : Type) := List Token → Except Defect (α × List Token)

def Scalar.toJson : Scalar → Json
  | .null => .null
  | .bool b => .bool b
  | .number n => .number n
  | .string s => .string s

namespace Reader

/-- How deep containers may stand inside one another. -/
def maxDepth : Nat := 127

/-- The defect of tokens that cannot be what is wanted. -/
def refusal : List Token → Defect
  | [] => .ended
  | .broken _ read _ :: _ => read
  | _ => .malformed

/-! ## Scalars -/

/-- A scalar through a view. -/
def scalar (view : Json → Option α) : Reader α
  | .scalar s :: rest =>
    match view s.toJson with
    | some a => .ok (a, rest)
    | none => .error .malformed
  | ts => .error (refusal ts)

def string : Reader String := scalar asString?

def float : Reader Binary64 := scalar asFloat?

def int64 : Reader Int64 := scalar asInt64?

def uint32 : Reader UInt32 := scalar fun v => v.asNumber?.bind Number.asUInt32?

def uint64 : Reader UInt64 := scalar fun v => v.asNumber?.bind Number.asUInt64?

/-- Nothing for `null`, else what the reader takes. -/
def nullable (read : Reader α) : Reader (Option α)
  | .scalar .null :: rest => .ok (none, rest)
  | ts => (read ts).map fun (a, rest) => (some a, rest)

/-! ## Arrays -/

/-- The tokens of the next item, or nothing in front of the closing bracket. -/
def nextItem (first : Bool) : List Token → Except Defect (Option (List Token))
  | [] => .error .ended
  | .rightBracket :: _ => .ok none
  | .comma :: rest =>
    if first then .error .malformed
    else match rest with
      | [] => .error .ended
      | .rightBracket :: _ => .error .malformed
      | rest => .ok (some rest)
  | ts => if first then .ok (some ts) else .error .malformed

/-- The items up to the closing bracket; `fuel` bounds their number. -/
def items (item : Reader α) : Nat → Bool → Array α → Reader (List α)
  | 0, _, _, _ => .error .malformed
  | fuel + 1, first, done, ts => do
    match ← nextItem first ts with
    | none => .ok (done.toList, ts.tail)
    | some ts =>
      let (a, ts) ← item ts
      items item fuel false (done.push a) ts

def array (item : Reader α) : Reader (List α)
  | .leftBracket :: ts => items item (ts.length + 1) true #[] ts
  | ts => .error (refusal ts)

/-- The next item of an array that is read by position, or nothing at its end. -/
def item? (first : Bool) (read : Reader α) : Reader (Option α) := fun ts => do
  match ← nextItem first ts with
  | none => .ok (none, ts)
  | some ts =>
    let (a, ts) ← read ts
    .ok (some a, ts)

/-- The closing bracket of an array that is read by position. -/
def closeArray : List Token → Except Defect (List Token)
  | [] => .error .ended
  | .rightBracket :: rest => .ok rest
  | _ => .error .malformed

/-- What has to be there. -/
def need : Option α → Except Defect α
  | some a => .ok a
  | none => .error .malformed

/-! ## Objects -/

/-- A key in front of its colon. -/
def key : List Token → Except Defect (String × List Token)
  | [] => .error .ended
  | .scalar (.string s) :: rest => .ok (s, rest)
  | .broken true read _ :: _ => .error read
  | _ => .error .malformed

/-- The next key, or nothing in front of the closing brace. -/
def nextKey (first : Bool) : List Token → Except Defect (Option (String × List Token))
  | [] => .error .ended
  | .rightBrace :: _ => .ok none
  | .comma :: rest => if first then .error .malformed else (key rest).map some
  | ts => if first then (key ts).map some else .error .malformed

def colon : List Token → Except Defect (List Token)
  | [] => .error .ended
  | .colon :: rest => .ok rest
  | _ => .error .malformed

/-- The members up to the closing brace, each taken from behind its key; `fuel` bounds their
number. -/
def members (member : String → σ → Reader σ) : Nat → Bool → σ → Reader σ
  | 0, _, _, _ => .error .malformed
  | fuel + 1, first, s, ts => do
    match ← nextKey first ts with
    | none => .ok (s, ts.tail)
    | some (k, ts) =>
      let (s, ts) ← member k s ts
      members member fuel false s ts

/-- The members of an object whose brace has been taken. -/
def membersFrom (start : σ) (member : String → σ → Reader σ) : Reader σ := fun ts =>
  members member (ts.length + 1) true start ts

/-- A member that must not have been read before. The repetition shows at the key. -/
def once (seen : Option α) (read : Reader α) : Reader α := fun ts =>
  if seen.isSome then .error .malformed
  else do
    let ts ← colon ts
    read ts

/-! ## Any value -/

/-- A value with at most `depth` containers inside one another. -/
def value : Nat → Reader Json
  | depth + 1, .leftBracket :: ts =>
    (items (value depth) (ts.length + 1) true #[] ts).map fun (vs, ts) => (.array vs, ts)
  | depth + 1, .leftBrace :: ts =>
    (membersFrom #[] (fun k done ts => do
      let ts ← colon ts
      let (v, ts) ← value depth ts
      .ok (done.push (k, v), ts)) ts).map fun (ms, ts) => (.object ms.toList, ts)
  | _, ts => scalar some ts

/-! ## Skipping -/

/-- What may come next while a value is skipped. -/
inductive Awaiting where
  | value
  | itemOrEnd
  | keyOrEnd
  | key
  | colon
  | separatorOrEnd
deriving DecidableEq, Repr

/-- Passes over a value; `objects` tells for each container that is still open whether it is an
object. -/
def skipFrom : Awaiting → List Bool → List Token → Except Defect (List Token)
  | _, _, [] => .error .ended
  | .colon, objects, .colon :: ts => skipFrom .value objects ts
  | .separatorOrEnd, true :: objects, .comma :: ts => skipFrom .key (true :: objects) ts
  | .separatorOrEnd, false :: objects, .comma :: ts => skipFrom .value (false :: objects) ts
  | awaiting, objects, token :: ts =>
    let done (objects : List Bool) : Except Defect (List Token) :=
      if objects = [] then .ok ts else skipFrom .separatorOrEnd objects ts
    let wantsValue := awaiting = .value ∨ awaiting = .itemOrEnd
    let wantsKey := awaiting = .key ∨ awaiting = .keyOrEnd
    match token with
    | .leftBracket => if wantsValue then skipFrom .itemOrEnd (false :: objects) ts else .error .malformed
    | .leftBrace => if wantsValue then skipFrom .keyOrEnd (true :: objects) ts else .error .malformed
    | .rightBracket =>
      if objects.head? = some false ∧ (awaiting = .itemOrEnd ∨ awaiting = .separatorOrEnd) then
        done objects.tail
      else .error .malformed
    | .rightBrace =>
      if objects.head? = some true ∧ (awaiting = .keyOrEnd ∨ awaiting = .separatorOrEnd) then
        done objects.tail
      else .error .malformed
    | .scalar s =>
      if wantsValue then done objects
      else if wantsKey ∧ (asString? s.toJson).isSome then skipFrom .colon objects ts
      else .error .malformed
    | .flawed text =>
      if wantsValue then done objects
      else if wantsKey ∧ text then skipFrom .colon objects ts
      else .error .malformed
    | .broken text _ skip =>
      if wantsValue ∨ wantsKey ∧ text then .error skip else .error .malformed
    | .comma | .colon => .error .malformed

/-- Passes over a value of any depth. -/
def skip (ts : List Token) : Except Defect (List Token) := skipFrom .value [] ts

/-- A member that nobody asks for. -/
def skipMember (s : σ) : Reader σ := fun ts => do
  let ts ← colon ts
  let ts ← skip ts
  .ok (s, ts)

/-! ## Whole texts -/

/-- A text that holds one value and nothing else. -/
def whole (read : Reader α) (text : String) : Except Defect α := do
  let (a, rest) ← read (tokens text)
  if rest.isEmpty then .ok a else .error .malformed

end Reader

/-- A text that holds any one value. -/
def parse (text : String) : Except Defect Json := Reader.whole (Reader.value Reader.maxDepth) text

end AttackDefense.Json
