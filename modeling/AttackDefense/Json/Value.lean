import AttackDefense.Decimal.Binary64

/-!
# JSON values

Numbers are kept as they were written: an integer without a point and an exponent that fits into
64 bits stays an integer, every other number is a binary one. The members of an object keep their
order and may repeat a key, for it is up to the reader of a record what a repeated key means.
-/

namespace AttackDefense

open Decimal

/-- A number, told apart by how it was written. -/
inductive Json.Number where
  | integer (n : Int)
  | float (x : Binary64)
deriving DecidableEq, Inhabited, Repr

inductive Json where
  | null
  | bool (b : Bool)
  | number (n : Json.Number)
  | string (s : String)
  | array (items : List Json)
  | object (members : List (String × Json))
deriving Inhabited, Repr

namespace Json

/-- Why a text cannot be read: it ends too early, or something in it is wrong. -/
inductive Defect where
  | ended
  | malformed
deriving DecidableEq, Repr

/-! ## Views

Each gives the content of a value of one form, and nothing for the other forms. -/

def asBool? : Json → Option Bool
  | .bool b => some b
  | _ => none

def asString? : Json → Option String
  | .string s => some s
  | _ => none

def asArray? : Json → Option (List Json)
  | .array items => some items
  | _ => none

/-- Any number as a binary one. -/
def Number.toBinary64 : Number → Binary64
  | .integer n => (Binary64.ofNat n.natAbs).withSign (n < 0)
  | .float x => x

/-- An integer from `low` to `high`. -/
def Number.inRange? (low high : Int) : Number → Option Int
  | .integer n => if low ≤ n ∧ n ≤ high then some n else none
  | .float _ => none

def Number.asInt64? (n : Number) : Option Int64 :=
  (n.inRange? Int64.minValue.toInt Int64.maxValue.toInt).map Int64.ofInt

def Number.asUInt64? (n : Number) : Option UInt64 :=
  (n.inRange? 0 (UInt64.size - 1)).map fun i => UInt64.ofNat i.toNat

def Number.asUInt32? (n : Number) : Option UInt32 :=
  (n.inRange? 0 (UInt32.size - 1)).map fun i => UInt32.ofNat i.toNat

def asNumber? : Json → Option Number
  | .number n => some n
  | _ => none

def asFloat? (v : Json) : Option Binary64 := v.asNumber?.map Number.toBinary64

def asInt64? (v : Json) : Option Int64 := v.asNumber?.bind Number.asInt64?

/-- Every item of an array through the same view. -/
def asList? (item : Json → Option α) (v : Json) : Option (List α) :=
  v.asArray?.bind fun items => items.mapM item

/-- Nothing for `null`, else the value through the view. -/
def asNullable? (item : Json → Option α) : Json → Option (Option α)
  | .null => some none
  | v => (item v).map some

end Json

end AttackDefense
