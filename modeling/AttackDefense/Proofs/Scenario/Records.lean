import AttackDefense.Scenario.Json
import AttackDefense.Proofs.Except
import AttackDefense.Proofs.Json.Yields

/-!
# Nodes taken apart and written

A node is taken apart from many forms and written in one.  The written form is taken apart to the
same node, it nests no deeper than the form that was read, and its numbers are those of the node:

    Goal.ofJson? depth v = some g → Goal.ofJson? depth g.toJson = some g       (Goal.ofJson?_toJson)
    Within depth v → Goal.ofJson? height v = some g → Within depth g.toJson     (Goal.within_toJson)
    AllNumbers FiniteNumber v → Goal.ofJson? height v = some g →
      ∀ x ∈ g.probabilities, x.isFinite                                (Goal.isFinite_probabilities)

An attack writes a list of defenses only if it has one, and then the form it was read from had a
list as well; this is why the depth cannot grow.
-/

namespace AttackDefense.Scenario

open Json Reader Decimal

/-! ## Fields -/

theorem asInt64?_int64Json (n : Int64) : (int64Json n).asInt64? = some n := by
  have hrange : Int64.minValue.toInt ≤ n.toInt ∧ n.toInt ≤ Int64.maxValue.toInt :=
    ⟨n.minValue_le_toInt, n.toInt_le⟩
  rw [int64Json, asInt64?, asNumber?, Option.bind_some, Number.asInt64?, Number.inRange?,
    if_pos hrange, Option.map_some, Int64.ofInt_toInt]

theorem asFloat?_float (x : Binary64) : (Json.number (.float x)).asFloat? = some x := rfl

theorem asList?_map {α : Type} {item : Json → Option α} {write : α → Json} {as : List α}
    (h : ∀ a ∈ as, item (write a) = some a) : asList? item (.array (as.map write)) = some as := by
  simp only [asList?, asArray?, Option.bind_some]
  induction as with
  | nil => rfl
  | cons a as ih =>
    rw [List.forall_mem_cons] at h
    simp [h.1, ih h.2]

/-! ## Records -/

theorem mapM_eq_some_iff {α β : Type} {f : α → Option β} {as : List α} {bs : List β} :
    as.mapM f = some bs ↔ List.Forall₂ (fun a b => f a = some b) as bs := by
  induction as generalizing bs with
  | nil => simp [eq_comm]
  | cons a as ih =>
    simp only [List.mapM_cons, Option.bind_eq_bind, Option.bind_eq_some_iff, ih,
      List.forall₂_cons_left_iff]
    constructor
    · rintro ⟨b, hb, bs, hbs, h⟩
      exact ⟨b, bs, hb, hbs, (Option.some.inj h).symm⟩
    · rintro ⟨b, bs, hb, hbs, rfl⟩
      exact ⟨b, hb, bs, hbs, rfl⟩

/-- A written defense is taken apart into its fields. -/
theorem DefenseSpec.ofJson?_fields (d : DefenseSpec) :
    DefenseSpec.ofJson? (.object (("type", .string "defense") :: d.fields)) = some d := by
  simp [DefenseSpec.ofJson?, slots?, uniqueField?, DefenseSpec.fields, required, orElse, asString?,
    asInt64?_int64Json, asFloat?_float]

/-- A field that is there or left out. -/
def slotField (k : String) (slot : Option Json) : List (String × Json) :=
  (slot.map (Prod.mk k)).toList

theorem uniqueField?_of_filter {members : List (String × Json)} {k : String} {slot : Option Json}
    (h : members.filter (fun m => m.1 = k) = slotField k slot) :
    uniqueField? members k = some slot := by
  unfold uniqueField?
  rw [h]
  cases slot <;> rfl

theorem filter_slotField (k k' : String) (slot : Option Json) :
    (slotField k slot).filter (fun m => m.1 = k') = if k = k' then slotField k slot else [] := by
  cases slot with
  | none => split <;> rfl
  | some v => split <;> simp [slotField, *]

theorem forall_mem_slotField {k : String} {slot : Option Json} {P : String × Json → Prop} :
    (∀ m ∈ slotField k slot, P m) ↔ ∀ v ∈ slot, P (k, v) := by
  cases slot <;> simp [slotField]

/-- The defenses of an attack, unless they are left out. -/
def AttackSpec.defensesSlot (a : AttackSpec) : Option Json :=
  if a.defenses.isEmpty then none else some (.array (a.defenses.map .string))

theorem AttackSpec.fields_eq (a : AttackSpec) :
    a.fields = [("name", .string a.name), ("completion_time", int64Json a.completionTime),
        ("success_probability", .number (.float a.successProbability))] ++
      slotField "activation_cost" (a.activationCost.map int64Json) ++
      slotField "proportional_cost" (a.proportionalCost.map int64Json) ++
      slotField "defenses" a.defensesSlot := by
  have hcost (k : String) (n : Option Int64) :
      optionalField k n = slotField k (n.map int64Json) := by cases n <;> rfl
  have hdefenses : (if a.defenses.isEmpty then []
      else [("defenses", Json.array (a.defenses.map .string))]) =
      slotField "defenses" a.defensesSlot := by
    unfold AttackSpec.defensesSlot
    split <;> rfl
  rw [AttackSpec.fields, hcost, hcost, hdefenses]

theorem AttackSpec.slots?_fields (a : AttackSpec) :
    slots? ["name", "completion_time", "success_probability", "activation_cost",
        "proportional_cost", "defenses"] (.object (("type", .string "attack") :: a.fields)) =
      some [some (.string a.name), some (int64Json a.completionTime),
        some (.number (.float a.successProbability)), a.activationCost.map int64Json,
        a.proportionalCost.map int64Json, a.defensesSlot] := by
  simp only [slots?, mapM_eq_some_iff, List.forall₂_cons, List.forall₂_nil_left_iff, and_true]
  refine ⟨?_, ?_, ?_, ?_, ?_, ?_⟩ <;> refine uniqueField?_of_filter ?_ <;>
    simp [AttackSpec.fields_eq, filter_slotField] <;> rfl

/-- A written attack is taken apart into its fields, those that were left out included. -/
theorem AttackSpec.ofJson?_fields (a : AttackSpec) :
    AttackSpec.ofJson? (.object (("type", .string "attack") :: a.fields)) = some a := by
  have hcost (n : Option Int64) : Scenario.optional asInt64? (n.map int64Json) = some n := by
    cases n with
    | none => rfl
    | some n =>
      have hview := asInt64?_int64Json n
      rw [int64Json] at hview
      simp [Scenario.optional, orElse, int64Json, asNullable?, hview]
  have hnames : orElse [] (asList? asString?) a.defensesSlot = some a.defenses := by
    unfold AttackSpec.defensesSlot
    split
    · next hempty => rw [List.isEmpty_iff.1 hempty, orElse]
    · exact asList?_map fun _ _ => rfl
  rw [AttackSpec.ofJson?, a.slots?_fields]
  simp [required, asString?, asInt64?_int64Json, asFloat?_float, hcost, hnames]

/-! ## Nodes -/

/-- How a node is taken apart, by its kind. -/
inductive Goal.From (depth : Nat) (v : Json) : Goal → Prop
  | attack {record : Json} {a : AttackSpec} (hsplit : split? v = some (.attack, record))
    (h : AttackSpec.ofJson? record = some a) : From depth v (.attack a)
  | defense {record : Json} {d : DefenseSpec} (hsplit : split? v = some (.defense, record))
    (h : DefenseSpec.ofJson? record = some d) : From depth v (.defense d)
  | subgoal {record : Json} {name operation reset : Option Json} {items : List Json}
    {s : String} {refinement : Refinement} {children : List Goal} {b : Bool}
    (hsplit : split? v = some (.subgoal, record))
    (hslots : slots? ["name", "operation", "children", "reset"] record =
      some [name, operation, some (.array items), reset])
    (hchildren : List.Forall₂ (fun v g => Goal.ofJson? depth v = some g) items children) :
    From depth v (.subgoal s refinement children b)

theorem exists_of_asList? {α : Type} {item : Json → Option α} {v : Json} {as : List α}
    (h : asList? item v = some as) :
    ∃ items, v = .array items ∧ List.Forall₂ (fun v a => item v = some a) items as := by
  cases v with
  | array items => exact ⟨items, rfl, mapM_eq_some_iff.1 h⟩
  | null | bool | number | string | object => cases h

theorem Goal.from_of_ofJson? {depth : Nat} {v : Json} {g : Goal}
    (h : Goal.ofJson? (depth + 1) v = some g) : Goal.From depth v g := by
  simp only [Goal.ofJson?, Option.bind_eq_bind, Option.bind_eq_some_iff] at h
  obtain ⟨⟨kind, record⟩, hsplit, h⟩ := h
  cases kind with
  | attack =>
    obtain ⟨a, ha, h⟩ := Option.bind_eq_some_iff.1 h
    cases h
    exact .attack hsplit ha
  | defense =>
    obtain ⟨d, hd, h⟩ := Option.bind_eq_some_iff.1 h
    cases h
    exact .defense hsplit hd
  | subgoal =>
    obtain ⟨slots, hslots, h⟩ := Option.bind_eq_some_iff.1 h
    split at h
    · simp only [Option.bind_eq_some_iff] at h
      obtain ⟨s, -, refinement, -, children, hchildren, b, -, h⟩ := h
      cases h
      obtain ⟨v, hv, hchildren⟩ := Option.bind_eq_some_iff.1 hchildren
      obtain ⟨items, rfl, hitems⟩ := exists_of_asList? hchildren
      subst hv
      exact .subgoal hsplit hslots hitems
    · cases h

theorem goalsToJson_eq_map (goals : List Goal) : goalsToJson goals = goals.map Goal.toJson := by
  induction goals with
  | nil => rfl
  | cons g goals ih => rw [goalsToJson, ih, List.map_cons]

theorem refinementOfJson?_toJson (r : Refinement) : refinementOfJson? r.toJson = some r := by
  cases r <;> rfl

/-- The kind of a written node stands in its field `type`. -/
theorem split?_object {tag : Json} {kind : Kind} {fields : List (String × Json)}
    (htag : Kind.ofJson? tag = some kind) (hfields : ∀ m ∈ fields, m.1 ≠ "type") :
    split? (.object (("type", tag) :: fields)) =
      some (kind, .object (("type", tag) :: fields)) := by
  have hnone : fields.filter (fun m => m.1 = "type") = [] :=
    List.filter_eq_nil_iff.2 fun m hm => by simpa using hfields m hm
  simp [split?, uniqueField?, hnone, htag]

theorem AttackSpec.key_ne_type (a : AttackSpec) : ∀ m ∈ a.fields, m.1 ≠ "type" := by
  simp only [a.fields_eq, List.forall_mem_append, List.forall_mem_cons, forall_mem_slotField]
  simp

theorem DefenseSpec.key_ne_type (d : DefenseSpec) : ∀ m ∈ d.fields, m.1 ≠ "type" := by
  simp [DefenseSpec.fields]

theorem Goal.ofJson?_attack (depth : Nat) (a : AttackSpec) :
    Goal.ofJson? (depth + 1) (Goal.attack a).toJson = some (.attack a) := by
  rw [Goal.ofJson?, Goal.toJson, split?_object rfl a.key_ne_type]
  simp [a.ofJson?_fields]

theorem Goal.ofJson?_defense (depth : Nat) (d : DefenseSpec) :
    Goal.ofJson? (depth + 1) (Goal.defense d).toJson = some (.defense d) := by
  rw [Goal.ofJson?, Goal.toJson, split?_object rfl d.key_ne_type]
  simp [d.ofJson?_fields]

/-- A written subgoal is taken apart if its children are. -/
theorem Goal.ofJson?_subgoal {depth : Nat} {children : List Goal}
    (h : ∀ g ∈ children, Goal.ofJson? depth g.toJson = some g) (name : String)
    (refinement : Refinement) (reset : Bool) :
    Goal.ofJson? (depth + 1) (Goal.subgoal name refinement children reset).toJson =
      some (.subgoal name refinement children reset) := by
  have hchildren : asList? (Goal.ofJson? depth) (.array (children.map Goal.toJson)) =
      some children := asList?_map h
  rw [Goal.ofJson?, Goal.toJson, goalsToJson_eq_map, split?_object rfl (by simp)]
  simp [uniqueField?, slots?, required, orElse, asString?, asBool?, hchildren,
    refinementOfJson?_toJson]

/-- **What was taken apart to a node is written so that it is taken apart to the same node.** -/
theorem Goal.ofJson?_toJson {depth : Nat} {v : Json} {g : Goal}
    (h : Goal.ofJson? depth v = some g) : Goal.ofJson? depth g.toJson = some g := by
  induction depth generalizing v g with
  | zero => cases h
  | succ depth ih =>
    cases Goal.from_of_ofJson? h with
    | attack => exact Goal.ofJson?_attack depth _
    | defense => exact Goal.ofJson?_defense depth _
    | subgoal _ _ hchildren =>
      refine Goal.ofJson?_subgoal (fun g hg => ?_) _ _ _
      obtain ⟨v, -, hv⟩ := exists_of_mem_right hchildren hg
      exact ih hv

/-! ## Parts of records -/

/-- The values that stand directly in a value. -/
def parts : Json → List Json
  | .array items => items
  | .object members => members.map Prod.snd
  | _ => []

/-- The fields of a record are parts of it. -/
theorem mem_parts_of_slots {fields : List String} {record v : Json} {slots : List (Option Json)}
    (h : slots? fields record = some slots) (hv : some v ∈ slots) : v ∈ parts record := by
  cases record with
  | null | bool | number | string => cases h
  | array items =>
    rw [slots?] at h
    split at h
    · cases h
      rcases List.mem_append.1 hv with hv | hv
      · obtain ⟨w, hw, hvw⟩ := List.mem_map.1 hv
        exact Option.some.inj hvw ▸ hw
      · cases List.eq_of_mem_replicate hv
    · cases h
  | object members =>
    obtain ⟨k, -, hk⟩ := exists_of_mem_right (mapM_eq_some_iff.1 h) hv
    unfold uniqueField? at hk
    split at hk
    · cases hk
    · next k' w heq =>
      cases hk
      have hmem : (k', v) ∈ members.filter fun m => m.1 = k := heq ▸ List.mem_singleton_self _
      exact List.mem_map_of_mem (List.mem_of_mem_filter hmem)
    · cases hk

theorem parts_subset_of_split {v record : Json} {kind : Kind}
    (h : split? v = some (kind, record)) : ∀ w ∈ parts record, w ∈ parts v := by
  cases v with
  | null | bool | number | string => cases h
  | array items =>
    cases items with
    | nil => cases h
    | cons tag items =>
      simp only [split?, Option.bind_eq_bind, Option.bind_eq_some_iff] at h
      obtain ⟨kind, -, h⟩ := h
      cases h
      exact fun w hw => List.mem_cons_of_mem _ hw
  | object members =>
    simp only [split?, Option.bind_eq_bind, Option.bind_eq_some_iff] at h
    obtain ⟨tag, -, tag, -, kind, -, h⟩ := h
    cases h
    exact fun w hw => hw

/-! ## Depth -/

/-- What stands in a node stands one container deeper. -/
theorem within_of_split {depth : Nat} {v record : Json} {kind : Kind} (hwithin : Within depth v)
    (h : split? v = some (kind, record)) :
    ∃ inner, depth = inner + 1 ∧ ∀ w ∈ parts record, Within inner w := by
  have hsubset := parts_subset_of_split h
  cases hwithin with
  | null | bool | number | string => cases h
  | @array inner items hitems => exact ⟨inner, rfl, fun w hw => hitems w (hsubset w hw)⟩
  | @object inner members hmembers =>
    refine ⟨inner, rfl, fun w hw => ?_⟩
    obtain ⟨m, hm, rfl⟩ := List.mem_map.1 (hsubset w hw)
    exact hmembers m hm

theorem DefenseSpec.within_fields {depth : Nat} (d : DefenseSpec) :
    ∀ m ∈ d.fields, Within depth m.2 := by
  simp only [DefenseSpec.fields, List.forall_mem_cons]
  exact ⟨.string, .number, .number, .number, by simp⟩

/-- Where the probability and the defenses of an attack come from. -/
theorem AttackSpec.exists_slots {record : Json} {a : AttackSpec}
    (h : AttackSpec.ofJson? record = some a) :
    ∃ slots, slots? ["name", "completion_time", "success_probability", "activation_cost",
        "proportional_cost", "defenses"] record = some slots ∧
      (∃ v, some v ∈ slots ∧ v.asFloat? = some a.successProbability) ∧
      (a.defenses ≠ [] → ∃ items, some (.array items) ∈ slots) := by
  simp only [AttackSpec.ofJson?, Option.bind_eq_bind, Option.bind_eq_some_iff] at h
  obtain ⟨slots, hslots, h⟩ := h
  split at h
  · next name time probability activation proportional defenses =>
    simp only [Option.bind_eq_some_iff] at h
    obtain ⟨_, -, _, -, x, hx, _, -, _, -, names, hnames, h⟩ := h
    cases h
    obtain ⟨v, rfl, hv⟩ := Option.bind_eq_some_iff.1 hx
    refine ⟨_, hslots, ⟨v, by simp, hv⟩, fun hne => ?_⟩
    cases defenses with
    | none => exact absurd (Option.some.inj hnames).symm hne
    | some w =>
      obtain ⟨items, rfl, -⟩ := exists_of_asList? hnames
      exact ⟨items, by simp⟩
  · cases h

theorem DefenseSpec.exists_slots {record : Json} {d : DefenseSpec}
    (h : DefenseSpec.ofJson? record = some d) :
    ∃ slots, slots? ["name", "period", "success_probability", "cost"] record = some slots ∧
      ∃ v, some v ∈ slots ∧ v.asFloat? = some d.successProbability := by
  simp only [DefenseSpec.ofJson?, Option.bind_eq_bind, Option.bind_eq_some_iff] at h
  obtain ⟨slots, hslots, h⟩ := h
  split at h
  · simp only [Option.bind_eq_some_iff] at h
    obtain ⟨_, -, _, -, x, hx, _, -, h⟩ := h
    cases h
    obtain ⟨v, rfl, hv⟩ := Option.bind_eq_some_iff.1 hx
    exact ⟨_, hslots, v, by simp, hv⟩
  · cases h

theorem within_array_strings {depth : Nat} (names : List String) :
    Within (depth + 1) (.array (names.map .string)) := by
  refine .array fun v hv => ?_
  obtain ⟨s, -, rfl⟩ := List.mem_map.1 hv
  exact .string

/-- An attack is written no deeper than it was read: it has a list of defenses only if it had one
before. -/
theorem AttackSpec.within_fields {depth : Nat} {record : Json} {a : AttackSpec}
    (hparts : ∀ w ∈ parts record, Within depth w) (h : AttackSpec.ofJson? record = some a) :
    ∀ m ∈ a.fields, Within depth m.2 := by
  obtain ⟨slots, hslots, -, hdefenses⟩ := AttackSpec.exists_slots h
  have hcost (n : Option Int64) : ∀ v ∈ n.map int64Json, Within depth v := by
    intro v hv
    obtain ⟨n, -, rfl⟩ := Option.map_eq_some_iff.1 hv
    exact .number
  have hlist : ∀ v ∈ a.defensesSlot, Within depth v := by
    unfold AttackSpec.defensesSlot
    split
    · simp
    · next hne =>
      obtain ⟨items, hitems⟩ := hdefenses (by simpa using hne)
      cases hparts _ (mem_parts_of_slots hslots hitems) with
      | array => simpa using within_array_strings a.defenses
  simp only [a.fields_eq, List.forall_mem_append, List.forall_mem_cons, forall_mem_slotField]
  exact ⟨⟨⟨⟨.string, .number, .number, by simp⟩, hcost _⟩, hcost _⟩, hlist⟩

/-- **A node is written no deeper than it was read.** -/
theorem Goal.within_toJson {depth height : Nat} {v : Json} {g : Goal}
    (hwithin : Within depth v) (h : Goal.ofJson? height v = some g) : Within depth g.toJson := by
  induction height generalizing depth v g with
  | zero => cases h
  | succ height ih =>
    cases Goal.from_of_ofJson? h with
    | attack hsplit ha =>
      obtain ⟨inner, rfl, hparts⟩ := within_of_split hwithin hsplit
      rw [Goal.toJson]
      exact .object (List.forall_mem_cons.2 ⟨.string, AttackSpec.within_fields hparts ha⟩)
    | @defense _ d hsplit =>
      obtain ⟨inner, rfl, -⟩ := within_of_split hwithin hsplit
      rw [Goal.toJson]
      exact .object (List.forall_mem_cons.2 ⟨.string, d.within_fields⟩)
    | @subgoal record _ _ _ items _ _ children _ hsplit hslots hchildren =>
      obtain ⟨inner, rfl, hparts⟩ := within_of_split hwithin hsplit
      have hitems : Within inner (.array items) :=
        hparts _ (mem_parts_of_slots hslots (by simp))
      cases hitems with
      | @array inner _ hitems =>
        rw [Goal.toJson, goalsToJson_eq_map]
        have hwritten : ∀ w ∈ children.map Goal.toJson, Within inner w := by
          intro w hw
          obtain ⟨g, hg, rfl⟩ := List.mem_map.1 hw
          obtain ⟨v, hv, hgoal⟩ := exists_of_mem_right hchildren hg
          exact ih (hitems v hv) hgoal
        refine .object ?_
        simp only [List.forall_mem_cons]
        exact ⟨.string, .string, .string, .array hwritten, .bool, by simp⟩

/-! ## Numbers -/

mutual

/-- The probabilities of a node and of everything below it. -/
def Goal.probabilities : Goal → List Binary64
  | .attack a => [a.successProbability]
  | .defense d => [d.successProbability]
  | .subgoal _ _ children _ => probabilitiesOf children

def probabilitiesOf : List Goal → List Binary64
  | [] => []
  | g :: rest => g.probabilities ++ probabilitiesOf rest

end

theorem probabilitiesOf_eq_flatMap (goals : List Goal) :
    probabilitiesOf goals = goals.flatMap Goal.probabilities := by
  induction goals with
  | nil => rfl
  | cons g goals ih => rw [probabilitiesOf, ih, List.flatMap_cons]

/-- All probabilities of a scenario. -/
def probabilities (s : Scenario) : List Binary64 :=
  s.defenses.map DefenseSpec.successProbability ++ s.root.probabilities

theorem allNumbers_parts {P : Number → Prop} {v : Json} (h : AllNumbers P v) :
    ∀ w ∈ parts v, AllNumbers P w := by
  cases h with
  | null | bool | number | string => nofun
  | array h => exact h
  | object h =>
    intro w hw
    obtain ⟨m, hm, rfl⟩ := List.mem_map.1 hw
    exact h m hm

theorem isFinite_of_asFloat? {v : Json} {x : Binary64} (hv : AllNumbers FiniteNumber v)
    (h : v.asFloat? = some x) : x.isFinite := by
  cases hv with
  | number hn =>
    cases h
    exact hn
  | null | bool | string | array | object => cases h

/-- The fields of a node have no other numbers than the node. -/
theorem allNumbers_of_slot {P : Number → Prop} {v record w : Json} {kind : Kind}
    {fields : List String} {slots : List (Option Json)} (hv : AllNumbers P v)
    (hsplit : split? v = some (kind, record)) (hslots : slots? fields record = some slots)
    (hw : some w ∈ slots) : AllNumbers P w :=
  allNumbers_parts hv w (parts_subset_of_split hsplit w (mem_parts_of_slots hslots hw))

/-- **A node taken from finite numbers has finite probabilities.** -/
theorem Goal.isFinite_probabilities {height : Nat} {v : Json} {g : Goal}
    (hv : AllNumbers FiniteNumber v) (h : Goal.ofJson? height v = some g) :
    ∀ x ∈ g.probabilities, x.isFinite := by
  induction height generalizing v g with
  | zero => cases h
  | succ height ih =>
    cases Goal.from_of_ofJson? h with
    | attack hsplit ha =>
      obtain ⟨slots, hslots, ⟨w, hw, hx⟩, -⟩ := AttackSpec.exists_slots ha
      rw [Goal.probabilities, List.forall_mem_singleton]
      exact isFinite_of_asFloat? (allNumbers_of_slot hv hsplit hslots hw) hx
    | defense hsplit hd =>
      obtain ⟨slots, hslots, w, hw, hx⟩ := DefenseSpec.exists_slots hd
      rw [Goal.probabilities, List.forall_mem_singleton]
      exact isFinite_of_asFloat? (allNumbers_of_slot hv hsplit hslots hw) hx
    | @subgoal _ _ _ _ items _ _ _ _ hsplit hslots hchildren =>
      have hitems : AllNumbers FiniteNumber (.array items) :=
        allNumbers_of_slot hv hsplit hslots (by simp)
      rw [Goal.probabilities, probabilitiesOf_eq_flatMap]
      intro x hx
      obtain ⟨g, hg, hx⟩ := List.mem_flatMap.1 hx
      obtain ⟨w, hw, hgoal⟩ := exists_of_mem_right hchildren hg
      exact ih (allNumbers_parts hitems w hw) hgoal x hx

theorem inRange_int64 (n : Int64) : InRange n.toInt := by
  have hlow : Int64.minValue.toInt = -(twoPow 63 : Int) := by decide
  have hhigh : Int64.maxValue.toInt < UInt64.size := by decide
  exact ⟨hlow ▸ n.minValue_le_toInt, Int.lt_of_le_of_lt n.toInt_le hhigh⟩

theorem allNumbers_int64Json (n : Int64) : AllNumbers LegibleNumber (int64Json n) :=
  .number (legibleNumber_integer (inRange_int64 n))

theorem DefenseSpec.allNumbers_fields {d : DefenseSpec}
    (h : LegibleNumber (.float d.successProbability)) :
    ∀ m ∈ d.fields, AllNumbers LegibleNumber m.2 := by
  simp only [DefenseSpec.fields, List.forall_mem_cons]
  exact ⟨.string _, allNumbers_int64Json _, .number h, allNumbers_int64Json _, by simp⟩

theorem AttackSpec.allNumbers_fields {a : AttackSpec}
    (h : LegibleNumber (.float a.successProbability)) :
    ∀ m ∈ a.fields, AllNumbers LegibleNumber m.2 := by
  have hcost (n : Option Int64) : ∀ v ∈ n.map int64Json, AllNumbers LegibleNumber v := by
    intro v hv
    obtain ⟨n, -, rfl⟩ := Option.map_eq_some_iff.1 hv
    exact allNumbers_int64Json n
  have hlist : ∀ v ∈ a.defensesSlot, AllNumbers LegibleNumber v := by
    intro v hv
    unfold AttackSpec.defensesSlot at hv
    split at hv
    · cases hv
    · cases hv
      refine .array fun w hw => ?_
      obtain ⟨s, -, rfl⟩ := List.mem_map.1 hw
      exact .string s
  simp only [a.fields_eq, List.forall_mem_append, List.forall_mem_cons, forall_mem_slotField]
  exact ⟨⟨⟨⟨.string _, allNumbers_int64Json _, .number h, by simp⟩, hcost _⟩, hcost _⟩, hlist⟩

/-- A node with legible probabilities is written legibly. -/
theorem Goal.allNumbers_toJson {height : Nat} {v : Json} {g : Goal}
    (hgoal : Goal.ofJson? height v = some g)
    (h : ∀ x ∈ g.probabilities, LegibleNumber (.float x)) : AllNumbers LegibleNumber g.toJson := by
  induction height generalizing v g with
  | zero => cases hgoal
  | succ height ih =>
    cases Goal.from_of_ofJson? hgoal with
    | attack =>
      rw [Goal.toJson]
      exact .object (List.forall_mem_cons.2
        ⟨.string _, AttackSpec.allNumbers_fields (h _ (by simp [Goal.probabilities]))⟩)
    | defense =>
      rw [Goal.toJson]
      exact .object (List.forall_mem_cons.2
        ⟨.string _, DefenseSpec.allNumbers_fields (h _ (by simp [Goal.probabilities]))⟩)
    | @subgoal record _ _ _ items _ _ children _ _ _ hchildren =>
      rw [Goal.toJson, goalsToJson_eq_map]
      rw [Goal.probabilities, probabilitiesOf_eq_flatMap] at h
      have hwritten : ∀ w ∈ children.map Goal.toJson, AllNumbers LegibleNumber w := by
        intro w hw
        obtain ⟨g, hg, rfl⟩ := List.mem_map.1 hw
        obtain ⟨v, -, hgoal⟩ := exists_of_mem_right hchildren hg
        exact ih hgoal fun x hx => h x (List.mem_flatMap.2 ⟨g, hg, hx⟩)
      refine .object ?_
      simp only [List.forall_mem_cons]
      exact ⟨.string _, .string _, .string _, .array hwritten, .bool _, by simp⟩

end AttackDefense.Scenario
