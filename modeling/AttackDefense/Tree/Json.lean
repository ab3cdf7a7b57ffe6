import AttackDefense.Json.Reader
import AttackDefense.Json.Writer
import AttackDefense.Tree.Node

/-!
# Nodes as JSON

Attacks, defenses and refinements are written as records and read back. A record may also be an
array of all its fields in order. No ranges are checked beyond the 32 bits of the numbers.
-/

namespace AttackDefense

open Json Reader

/-! ## Refinements -/

namespace Refinement

def keyword : Refinement → String
  | .and => "and"
  | .or => "or"
  | .edge => "edge"

def ofKeyword? (s : String) : Option Refinement :=
  if s = "and" then some .and
  else if s = "or" then some .or
  else if s = "edge" then some .edge
  else none

def toJson (r : Refinement) : Json := .string r.keyword

def ofScalar? (v : Json) : Option Refinement := v.asString?.bind ofKeyword?

/-- A keyword, or an object whose only key is a keyword with a value of `null`. -/
def read : Reader Refinement
  | .leftBrace :: ts => do
    let (k, ts) ← key ts
    let r ← need (ofKeyword? k)
    let ts ← colon ts
    let (_, ts) ← scalar (fun v => if v matches .null then some () else none) ts
    match ts with
    | .rightBrace :: ts => .ok (r, ts)
    | [] => .error .ended
    | _ => .error .malformed
  | [] => .error .ended
  | .scalar (.string s) :: ts => scalar ofScalar? (.scalar (.string s) :: ts)
  | .broken true read _ :: _ => .error read
  | _ => .error .malformed

end Refinement

/-! ## Attacks -/

namespace Attack

def toJson (a : Attack) : Json :=
  let cost (c : Option UInt32) : Json := match c with
    | some c => .number (.integer c.toNat)
    | none => .null
  .object [
    ("name", .string a.name),
    ("completion_time", .number (.integer a.completionTime.toNat)),
    ("success_probability", .number (.float a.successProbability)),
    ("activation_cost", cost a.activationCost),
    ("proportional_cost", cost a.proportionalCost),
    ("defenses", .array (a.defenses.map fun (d : Nat) => .number (.integer d)))]

/-- The fields read so far. -/
structure Fields where
  name : Option String
  completionTime : Option UInt32
  successProbability : Option Decimal.Binary64
  activationCost : Option (Option UInt32)
  proportionalCost : Option (Option UInt32)
  defenses : Option (List NodeId)

/-- A list of node numbers of 32 bits. -/
def readIds : Reader (List NodeId) := fun ts =>
  (array uint32 ts).map fun (ids, ts) => (ids.map UInt32.toNat, ts)

def readMember (k : String) (f : Fields) : Reader Fields := fun ts => do
  if k = "name" then
    let (v, ts) ← once f.name Reader.string ts
    return ({ f with name := some v }, ts)
  if k = "completion_time" then
    let (v, ts) ← once f.completionTime uint32 ts
    return ({ f with completionTime := some v }, ts)
  if k = "success_probability" then
    let (v, ts) ← once f.successProbability float ts
    return ({ f with successProbability := some v }, ts)
  if k = "activation_cost" then
    let (v, ts) ← once f.activationCost (nullable uint32) ts
    return ({ f with activationCost := some v }, ts)
  if k = "proportional_cost" then
    let (v, ts) ← once f.proportionalCost (nullable uint32) ts
    return ({ f with proportionalCost := some v }, ts)
  if k = "defenses" then
    let (v, ts) ← once f.defenses readIds ts
    return ({ f with defenses := some v }, ts)
  skipMember f ts

/-- A record or an array; in a record a cost that is missing is none. -/
def read : Reader Attack
  | .leftBrace :: ts => do
    let (f, ts) ← membersFrom ⟨none, none, none, none, none, none⟩ readMember ts
    return (⟨← need f.name, ← need f.completionTime, ← need f.successProbability,
      f.activationCost.join, f.proportionalCost.join, ← need f.defenses⟩, ts)
  | .leftBracket :: ts => do
    let (name, ts) ← item? true Reader.string ts
    let name ← need name
    let (time, ts) ← item? false uint32 ts
    let time ← need time
    let (probability, ts) ← item? false float ts
    let probability ← need probability
    let (activation, ts) ← item? false (nullable uint32) ts
    let activation ← need activation
    let (proportional, ts) ← item? false (nullable uint32) ts
    let proportional ← need proportional
    let (defenses, ts) ← item? false readIds ts
    let defenses ← need defenses
    let ts ← closeArray ts
    return (⟨name, time, probability, activation, proportional, defenses⟩, ts)
  | ts => .error (refusal ts)

end Attack

/-! ## Defenses -/

namespace Defense

def toJson (d : Defense) : Json :=
  .object [
    ("name", .string d.name),
    ("period", .number (.integer d.period.toNat)),
    ("success_probability", .number (.float d.successProbability)),
    ("cost", .number (.integer d.cost.toNat))]

/-- The fields read so far. -/
structure Fields where
  name : Option String
  period : Option UInt32
  successProbability : Option Decimal.Binary64
  cost : Option UInt32

def readMember (k : String) (f : Fields) : Reader Fields := fun ts => do
  if k = "name" then
    let (v, ts) ← once f.name Reader.string ts
    return ({ f with name := some v }, ts)
  if k = "period" then
    let (v, ts) ← once f.period uint32 ts
    return ({ f with period := some v }, ts)
  if k = "success_probability" then
    let (v, ts) ← once f.successProbability float ts
    return ({ f with successProbability := some v }, ts)
  if k = "cost" then
    let (v, ts) ← once f.cost uint32 ts
    return ({ f with cost := some v }, ts)
  skipMember f ts

def read : Reader Defense
  | .leftBrace :: ts => do
    let (f, ts) ← membersFrom ⟨none, none, none, none⟩ readMember ts
    return (⟨← need f.name, ← need f.period, ← need f.successProbability, ← need f.cost⟩, ts)
  | .leftBracket :: ts => do
    let (name, ts) ← item? true Reader.string ts
    let name ← need name
    let (period, ts) ← item? false uint32 ts
    let period ← need period
    let (probability, ts) ← item? false float ts
    let probability ← need probability
    let (cost, ts) ← item? false uint32 ts
    let cost ← need cost
    let ts ← closeArray ts
    return (⟨name, period, probability, cost⟩, ts)
  | ts => .error (refusal ts)

end Defense

end AttackDefense
