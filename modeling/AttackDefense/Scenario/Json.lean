import AttackDefense.Scenario.Basic
import AttackDefense.Tree.Json

/-!
# Scenarios as JSON

`Scenario.toJson` writes a scenario as nested records, the kind of a node in its field `type`; costs
that are none, an empty list of an attack's defenses and a missing bound are left out.
`Scenario.parse` reads such a text, and more: fields in any order, fields that are not known, records
written as arrays of their fields, and the kind of an inner node as a number.

The outermost record and the declared defenses are read as the text goes along. The tree below the
root is first read as plain JSON, of which only the field `type` of the root is looked at, and then
taken apart.
-/

namespace AttackDefense.Scenario

open Json Reader Decimal

/-! ## Writing -/

def int64Json (n : Int64) : Json := .number (.integer n.toInt)

/-- The fields of a defense. -/
def DefenseSpec.fields (d : DefenseSpec) : List (String × Json) :=
  [("name", .string d.name), ("period", int64Json d.period),
    ("success_probability", .number (.float d.successProbability)), ("cost", int64Json d.cost)]

/-- A field that is left out when it is none. -/
def optionalField (k : String) : Option Int64 → List (String × Json)
  | some n => [(k, int64Json n)]
  | none => []

def AttackSpec.fields (a : AttackSpec) : List (String × Json) :=
  [("name", .string a.name), ("completion_time", int64Json a.completionTime),
    ("success_probability", .number (.float a.successProbability))] ++
  optionalField "activation_cost" a.activationCost ++
  optionalField "proportional_cost" a.proportionalCost ++
  (if a.defenses.isEmpty then [] else [("defenses", .array (a.defenses.map .string))])

mutual

def Goal.toJson : Goal → Json
  | .attack a => .object (("type", .string "attack") :: a.fields)
  | .defense d => .object (("type", .string "defense") :: d.fields)
  | .subgoal name refinement children reset =>
    .object [("type", .string "subgoal"), ("name", .string name),
      ("operation", refinement.toJson), ("children", .array (goalsToJson children)),
      ("reset", .bool reset)]

def goalsToJson : List Goal → List Json
  | [] => []
  | g :: rest => g.toJson :: goalsToJson rest

end

def toJson (s : Scenario) : Json :=
  .object ([("defenses", .array (s.defenses.map fun d => .object d.fields)),
    ("root", s.root.toJson)] ++
    match s.maxArity with
    | some n => [("max_arity", .number (.integer n.toNat))]
    | none => [])

/-! ## Taking plain JSON apart -/

/-- The value of a key that is there at most once. -/
def uniqueField? (members : List (String × Json)) (k : String) : Option (Option Json) :=
  match members.filter fun m => m.1 = k with
  | [] => some none
  | [(_, v)] => some (some v)
  | _ => none

/-- The values of the fields of a record, each there or missing: by their keys in an object, by their
positions in an array. -/
def slots? (fields : List String) : Json → Option (List (Option Json))
  | .object members => fields.mapM (uniqueField? members)
  | .array items =>
    if items.length ≤ fields.length then
      some (items.map some ++ List.replicate (fields.length - items.length) none)
    else none
  | _ => none

/-- A field that may be missing. -/
def orElse (default : α) (view : Json → Option α) : Option Json → Option α
  | none => some default
  | some v => view v

/-- A field that may be missing or `null`. -/
def optional (view : Json → Option α) : Option Json → Option (Option α) :=
  orElse none (asNullable? view)

/-- A field that has to be there. -/
def required (view : Json → Option α) (slot : Option Json) : Option α := slot.bind view

def DefenseSpec.ofJson? (v : Json) : Option DefenseSpec := do
  let [name, period, probability, cost] ←
    slots? ["name", "period", "success_probability", "cost"] v | none
  return ⟨← required asString? name, ← required asInt64? period, ← required asFloat? probability,
    ← orElse 0 asInt64? cost⟩

def AttackSpec.ofJson? (v : Json) : Option AttackSpec := do
  let [name, time, probability, activation, proportional, defenses] ←
    slots? ["name", "completion_time", "success_probability", "activation_cost",
      "proportional_cost", "defenses"] v | none
  return ⟨← required asString? name, ← required asInt64? time, ← required asFloat? probability,
    ← optional asInt64? activation, ← optional asInt64? proportional,
    ← orElse [] (asList? asString?) defenses⟩

/-- A keyword, or an object whose only key is a keyword with a value that is `null` or empty. -/
def refinementOfJson? : Json → Option Refinement
  | .string s => Refinement.ofKeyword? s
  | .object [(k, .null)] => Refinement.ofKeyword? k
  | .object [(k, .object [])] => Refinement.ofKeyword? k
  | _ => none

/-- The three kinds of nodes. -/
inductive Kind where
  | attack
  | defense
  | subgoal
deriving DecidableEq, Repr

def Kind.ofKeyword? (s : String) : Option Kind :=
  if s = "attack" then some .attack
  else if s = "defense" then some .defense
  else if s = "subgoal" then some .subgoal
  else none

/-- A keyword or the number of the kind. -/
def Kind.ofJson? : Json → Option Kind
  | .string s => Kind.ofKeyword? s
  | .number (.integer n) =>
    if n = 0 then some .attack else if n = 1 then some .defense
    else if n = 2 then some .subgoal else none
  | _ => none

/-- The kind of a node, and the record of its other fields. An object keeps its field `type`, which
no record asks for. -/
def split? : Json → Option (Kind × Json)
  | .object members => do
    let tag ← (← uniqueField? members "type")
    return (← Kind.ofJson? tag, .object members)
  | .array (tag :: items) => do return (← Kind.ofJson? tag, .array items)
  | _ => none

/-- A node with everything below it, at most `depth` nodes deep. -/
def Goal.ofJson? : Nat → Json → Option Goal
  | 0, _ => none
  | depth + 1, v => do
    let (kind, record) ← split? v
    match kind with
    | .attack => return .attack (← AttackSpec.ofJson? record)
    | .defense => return .defense (← DefenseSpec.ofJson? record)
    | .subgoal =>
      let [name, operation, children, reset] ←
        slots? ["name", "operation", "children", "reset"] record | none
      return .subgoal (← required asString? name) (← required refinementOfJson? operation)
        (← required (asList? (Goal.ofJson? depth)) children) (← orElse false asBool? reset)

/-! ## Reading -/

/-- The kind of the root, which is a keyword. -/
def readTag : Reader Json := scalar fun v => (v.asString?.bind Kind.ofKeyword?).map fun _ => v

/-- The members of the root read so far, and its kind if it is among them. -/
structure RootMembers where
  tag : Option Json
  members : Array (String × Json)

def readRootMember (depth : Nat) (k : String) (s : RootMembers) : Reader RootMembers :=
  fun ts => do
    if k = "type" then
      let (v, ts) ← once s.tag readTag ts
      return (⟨some v, s.members.push (k, v)⟩, ts)
    let ts ← colon ts
    let (v, ts) ← value depth ts
    return (⟨s.tag, s.members.push (k, v)⟩, ts)

/-- The root as plain JSON. -/
def readRootJson (depth : Nat) : Reader Json
  | .leftBrace :: ts => do
    let (s, ts) ← membersFrom ⟨none, #[]⟩ (readRootMember depth) ts
    return (.object s.members.toList, ts)
  | .leftBracket :: ts => do
    let (tag, ts) ← item? true readTag ts
    let tag ← need tag
    let (vs, ts) ← items (value depth) (ts.length + 1) false #[] ts
    return (.array (tag :: vs), ts)
  | ts => .error (refusal ts)

/-- The root, which stands inside one container. -/
def readRoot : Reader Goal := fun ts => do
  let (v, ts) ← readRootJson (maxDepth - 2) ts
  return (← need (Goal.ofJson? maxDepth v), ts)

/-- The fields of a defense read so far. -/
structure DefenseFields where
  name : Option String
  period : Option Int64
  successProbability : Option Binary64
  cost : Option Int64

def readDefenseMember (k : String) (f : DefenseFields) : Reader DefenseFields := fun ts => do
  if k = "name" then
    let (v, ts) ← once f.name Reader.string ts
    return ({ f with name := some v }, ts)
  if k = "period" then
    let (v, ts) ← once f.period int64 ts
    return ({ f with period := some v }, ts)
  if k = "success_probability" then
    let (v, ts) ← once f.successProbability float ts
    return ({ f with successProbability := some v }, ts)
  if k = "cost" then
    let (v, ts) ← once f.cost int64 ts
    return ({ f with cost := some v }, ts)
  skipMember f ts

def readDefense : Reader DefenseSpec
  | .leftBrace :: ts => do
    let (f, ts) ← membersFrom ⟨none, none, none, none⟩ readDefenseMember ts
    return (⟨← need f.name, ← need f.period, ← need f.successProbability, f.cost.getD 0⟩, ts)
  | .leftBracket :: ts => do
    let (name, ts) ← item? true Reader.string ts
    let name ← need name
    let (period, ts) ← item? false int64 ts
    let period ← need period
    let (probability, ts) ← item? false float ts
    let probability ← need probability
    let (cost, ts) ← item? false int64 ts
    let ts ← closeArray ts
    return (⟨name, period, probability, cost.getD 0⟩, ts)
  | ts => .error (refusal ts)

/-- The fields of a scenario read so far. -/
structure Fields where
  defenses : Option (List DefenseSpec)
  root : Option Goal
  maxArity : Option (Option UInt64)

def readMember (k : String) (f : Fields) : Reader Fields := fun ts => do
  if k = "defenses" then
    let (v, ts) ← once f.defenses (Reader.array readDefense) ts
    return ({ f with defenses := some v }, ts)
  if k = "root" then
    let (v, ts) ← once f.root readRoot ts
    return ({ f with root := some v }, ts)
  if k = "max_arity" then
    let (v, ts) ← once f.maxArity (nullable uint64) ts
    return ({ f with maxArity := some v }, ts)
  skipMember f ts

def read : Reader Scenario
  | .leftBrace :: ts => do
    let (f, ts) ← membersFrom ⟨none, none, none⟩ readMember ts
    return (⟨f.defenses.getD [], ← need f.root, f.maxArity.join⟩, ts)
  | .leftBracket :: ts => do
    let (defenses, ts) ← item? true (Reader.array readDefense) ts
    let (root, ts) ← item? false readRoot ts
    let root ← need root
    let (maxArity, ts) ← item? false (nullable uint64) ts
    let ts ← closeArray ts
    return (⟨defenses.getD [], root, maxArity.join⟩, ts)
  | ts => .error (refusal ts)

/-- The scenario of a text. -/
def parse (text : String) : Except Defect Scenario := whole read text

end AttackDefense.Scenario
