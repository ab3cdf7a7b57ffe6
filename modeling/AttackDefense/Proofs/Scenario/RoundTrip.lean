import AttackDefense.Proofs.Scenario.Readable

/-!
# A written scenario is read back

The fields of a written record are those that its reader asks for, in order, so the reader passes
through them one by one.  With what is known of a scenario that was read (`Readable`), the written
text is read to the same scenario:

    s.Readable → Reads read s.toJson.spelling s                                     (Readable.reads)
    parse text = .ok s → (∀ x ∈ s.probabilities, x.isFinite → ReadsBack x) →
      parse (compact s.toJson) = .ok s                                       (parse_compact_toJson)
-/

namespace AttackDefense.Scenario

open Json Reader Decimal

/-! ## Defenses -/

theorem folds_readDefenseMember (d : DefenseSpec) :
    Folds readDefenseMember ⟨none, none, none, none⟩ (spelledMembers d.fields)
      ⟨some d.name, some d.period, some d.successProbability, some d.cost⟩ := by
  have hinteger (n : Int64) : Reads int64 (int64Json n).spelling n :=
    reads_scalar (asInt64?_int64Json n)
  have hname : Reads (readDefenseMember "name" ⟨none, none, none, none⟩)
      (.colon :: (Json.string d.name).spelling) ⟨some d.name, none, none, none⟩ := by
    rw [readDefenseMember_eq, if_pos rfl]
    exact (reads_string d.name).field _
  have hperiod : Reads (readDefenseMember "period" ⟨some d.name, none, none, none⟩)
      (.colon :: (int64Json d.period).spelling) ⟨some d.name, some d.period, none, none⟩ := by
    rw [readDefenseMember_eq, if_neg (by decide), if_pos rfl]
    exact (hinteger d.period).field _
  have hprobability :
      Reads (readDefenseMember "success_probability" ⟨some d.name, some d.period, none, none⟩)
        (.colon :: (Json.number (.float d.successProbability)).spelling)
        ⟨some d.name, some d.period, some d.successProbability, none⟩ := by
    rw [readDefenseMember_eq, if_neg (by decide), if_neg (by decide), if_pos rfl]
    exact (reads_float d.successProbability).field _
  have hcost : Reads
      (readDefenseMember "cost" ⟨some d.name, some d.period, some d.successProbability, none⟩)
      (.colon :: (int64Json d.cost).spelling)
      ⟨some d.name, some d.period, some d.successProbability, some d.cost⟩ := by
    rw [readDefenseMember_eq, if_neg (by decide), if_neg (by decide), if_neg (by decide),
      if_pos rfl]
    exact (hinteger d.cost).field _
  exact .cons hname (.cons hperiod (.cons hprobability (.cons hcost (.nil _))))

/-- A written defense is read. -/
theorem reads_readDefense (d : DefenseSpec) :
    Reads readDefense (Json.object d.fields).spelling d := by
  intro rest
  obtain ⟨ts, htext, hmembers⟩ := (folds_readDefenseMember d).reads_object rest
  rw [htext, readDefense, hmembers]
  rfl

/-! ## The root -/

/-- Members other than the kind are read as in any object. -/
theorem folds_readRootMember {depth : Nat} {tag : Option Json} {done done' : Array (String × Json)}
    {ms : List (String × List Token)} (h : Folds (pushMember depth) done ms done')
    (hkeys : ∀ m ∈ ms, m.1 ≠ "type") :
    Folds (readRootMember depth) ⟨tag, done⟩ ms ⟨tag, done'⟩ := by
  induction h with
  | nil => exact .nil _
  | @cons k ts ms done₀ done₁ _ hread _ ih =>
    rw [List.forall_mem_cons] at hkeys
    have hmember : Reads (readRootMember depth k ⟨tag, done₀⟩) (.colon :: ts) ⟨tag, done₁⟩ := by
      intro rest
      rw [readRootMember_eq, if_neg hkeys.1, hread rest]
      rfl
    exact .cons hmember (ih hkeys.2)

theorem reads_readRootJson {depth : Nat} {tag : String} {kind : Kind}
    {fields : List (String × Json)} (htag : Kind.ofKeyword? tag = some kind)
    (hkeys : ∀ m ∈ fields, m.1 ≠ "type") (hwithin : ∀ m ∈ fields, Within depth m.2) :
    Reads (readRootJson depth) (Json.object (("type", .string tag) :: fields)).spelling
      (.object (("type", .string tag) :: fields)) := by
  have hkind : Reads readTag (Json.string tag).spelling (.string tag) :=
    reads_scalar (by simp [Scalar.toJson, asString?, htag])
  have hfields : Folds (readRootMember depth) ⟨some (.string tag), #[("type", .string tag)]⟩
      (spelledMembers fields) ⟨some (.string tag), #[("type", .string tag)] ++ fields.toArray⟩ := by
    refine folds_readRootMember (folds_pushMember _ fun m hm => reads_value (hwithin m hm)) ?_
    intro m hm
    obtain ⟨m', hm', rfl⟩ := List.mem_map.1 hm
    exact hkeys m' hm'
  have hall : Folds (readRootMember depth) ⟨none, #[]⟩
      (spelledMembers (("type", .string tag) :: fields))
      ⟨some (.string tag), #[("type", .string tag)] ++ fields.toArray⟩ := by
    refine .cons ?_ hfields
    rw [readRootMember_eq, if_pos rfl]
    exact hkind.field _
  intro rest
  obtain ⟨ts, htext, hmembers⟩ := hall.reads_object rest
  rw [htext, readRootJson, hmembers]
  simp [bind, Except.bind, pure, Except.pure]

/-- A node is written with its kind in front. -/
theorem Goal.exists_fields (g : Goal) :
    ∃ tag kind fields, g.toJson = .object (("type", .string tag) :: fields) ∧
      Kind.ofKeyword? tag = some kind ∧ ∀ m ∈ fields, m.1 ≠ "type" := by
  cases g with
  | attack a => exact ⟨_, .attack, _, by rw [Goal.toJson], rfl, a.key_ne_type⟩
  | defense d => exact ⟨_, .defense, _, by rw [Goal.toJson], rfl, d.key_ne_type⟩
  | subgoal => exact ⟨_, .subgoal, _, by rw [Goal.toJson], rfl, by simp⟩

/-- **A root that was read is written so that it is read again.** -/
theorem Goal.Readable.reads {g : Goal} (h : g.Readable) : Reads readRoot g.toJson.spelling g := by
  obtain ⟨tag, kind, fields, hjson, htag, hkeys⟩ := g.exists_fields
  have hwithin : Within (maxDepth - 2 + 1) (.object (("type", .string tag) :: fields)) :=
    hjson ▸ h.within
  have hgoal : Goal.ofJson? maxDepth (.object (("type", .string tag) :: fields)) = some g :=
    hjson ▸ h.ofJson
  have hread := reads_readRootJson htag hkeys fun m hm =>
    hwithin.of_object m (List.mem_cons_of_mem _ hm)
  intro rest
  rw [readRoot, hjson, hread rest]
  simp [bind, Except.bind, pure, Except.pure, hgoal, need]

/-! ## Numbers -/

/-- **A scenario of legible probabilities is written legibly.** -/
theorem Readable.allNumbers {s : Scenario} (h : s.Readable)
    (hlegible : ∀ x ∈ s.probabilities, LegibleNumber (.float x)) :
    AllNumbers LegibleNumber s.toJson := by
  rw [probabilities, List.forall_mem_append] at hlegible
  have hdefenses : ∀ w ∈ s.defenses.map fun d => Json.object d.fields,
      AllNumbers LegibleNumber w := by
    intro w hw
    obtain ⟨d, hd, rfl⟩ := List.mem_map.1 hw
    exact .object (DefenseSpec.allNumbers_fields (hlegible.1 _ (List.mem_map_of_mem hd)))
  have harity : ∀ n : UInt64, InRange n.toNat := fun n => by
    have hlow : -(twoPow 63 : Int) ≤ 0 := by decide
    have hhigh : n.toNat < UInt64.size := n.toNat_lt
    exact ⟨by omega, by omega⟩
  have hroot := Goal.allNumbers_toJson h.root.ofJson hlegible.2
  refine .object ?_
  rw [List.forall_mem_append]
  refine ⟨by simpa using ⟨.array hdefenses, hroot⟩, ?_⟩
  cases s.maxArity with
  | none => simp
  | some n => simpa using .number (legibleNumber_integer (harity n))

/-! ## The scenario -/

theorem reads_defenses (ds : List DefenseSpec) :
    Reads (Reader.array readDefense) (Json.array (ds.map fun d => .object d.fields)).spelling
      ds := by
  have hopens : ∀ ts ∈ (ds.map fun d => Json.object d.fields).map spelling, Opens ts := by
    intro ts hts
    obtain ⟨v, -, rfl⟩ := List.mem_map.1 hts
    exact opens_spelling v
  rw [spelling, itemSpellings_eq_map]
  refine reads_array ?_ hopens
  rw [List.forall₂_map_left_iff, List.forall₂_map_left_iff, List.forall₂_same]
  exact fun d _ => reads_readDefense d

/-- The members of a scenario that was read, written, are read. -/
theorem Readable.folds {s : Scenario} (h : s.Readable) :
    ∃ ms, s.toJson = .object ms ∧ Folds readMember ⟨none, none, none⟩ (spelledMembers ms)
      ⟨some s.defenses, some s.root, s.maxArity.map some⟩ := by
  have hdefenses : Reads (readMember "defenses" ⟨none, none, none⟩)
      (.colon :: (Json.array (s.defenses.map fun d => .object d.fields)).spelling)
      ⟨some s.defenses, none, none⟩ := by
    rw [readMember_eq, if_pos rfl]
    exact (reads_defenses s.defenses).field _
  have hroot : Reads (readMember "root" ⟨some s.defenses, none, none⟩)
      (.colon :: s.root.toJson.spelling) ⟨some s.defenses, some s.root, none⟩ := by
    rw [readMember_eq, if_neg (by decide), if_pos rfl]
    exact h.root.reads.field _
  have harity (n : UInt64) : Reads (readMember "max_arity" ⟨some s.defenses, some s.root, none⟩)
      (.colon :: (Json.number (.integer n.toNat)).spelling)
      ⟨some s.defenses, some s.root, some (some n)⟩ := by
    rw [readMember_eq, if_neg (by decide), if_neg (by decide), if_pos rfl]
    exact (reads_nullable_uint64 n).field _
  refine ⟨_, rfl, ?_⟩
  cases s.maxArity with
  | none => exact .cons hdefenses (.cons hroot (.nil _))
  | some n => exact .cons hdefenses (.cons hroot (.cons (harity n) (.nil _)))

/-- **A scenario that was read is written so that it is read again.** -/
theorem Readable.reads {s : Scenario} (h : s.Readable) : Reads read s.toJson.spelling s := by
  obtain ⟨ms, hjson, hfolds⟩ := h.folds
  have harity : (s.maxArity.map some).join = s.maxArity := by cases s.maxArity <;> rfl
  intro rest
  obtain ⟨ts, htext, hmembers⟩ := hfolds.reads_object rest
  rw [hjson, htext, read, hmembers]
  simp [bind, Except.bind, pure, Except.pure, need, harity]

/-- **A scenario that was read, from whatever form, is written so that reading it gives the same
scenario again**, and so writing it once more gives the same text.  The digits of its probabilities
have to be read back, which is not so for all numbers (`exists_not_readsBack`). -/
theorem parse_compact_toJson {text : String} {s : Scenario} (h : Scenario.parse text = .ok s)
    (hdigits : ∀ x ∈ s.probabilities, x.isFinite → ReadsBack x) :
    Scenario.parse (compact s.toJson) = .ok s := by
  have hs : s.Readable := (yields_read (finiteTokens_tokens text) (whole_eq_ok.1 h)).1
  have hfinite : ∀ x ∈ s.probabilities, x.isFinite := by
    rw [probabilities, List.forall_mem_append, List.forall_mem_map]
    exact ⟨hs.finite, hs.root.finite⟩
  exact hs.reads.whole_compact (hs.allNumbers fun x hx => (hdigits x hx (hfinite x hx)).legible)

/-! ### An example

Records as arrays, the kind of a child as a number, a key that is not known, fields that are missing
or `null`, and an operation with a value. -/

def terseText : String :=
  "[[[\"lock\",5,1]],\x7b\"type\":\"subgoal\",\"name\":\"vault\"," ++
    "\"operation\":\x7b\"and\":null\x7d," ++
    "\"children\":[[0,\"pick\",3,0.5,null]],\"note\":[]\x7d]"

def terse : Scenario where
  defenses := [⟨"lock", 5, Binary64.one, 0⟩]
  root := .subgoal "vault" .and [.attack ⟨"pick", 3, ⟨0x3fe0000000000000⟩, none, none, []⟩] false
  maxArity := none

def terseTokens : List Token :=
  [.leftBracket, .leftBracket, .leftBracket, .scalar (.string "lock"), .comma,
    .scalar (.number (.integer 5)), .comma, .scalar (.number (.integer 1)), .rightBracket,
    .rightBracket, .comma, .leftBrace, .scalar (.string "type"), .colon,
    .scalar (.string "subgoal"), .comma, .scalar (.string "name"), .colon,
    .scalar (.string "vault"), .comma, .scalar (.string "operation"), .colon, .leftBrace,
    .scalar (.string "and"), .colon, .scalar .null, .rightBrace, .comma,
    .scalar (.string "children"), .colon, .leftBracket, .leftBracket,
    .scalar (.number (.integer 0)), .comma, .scalar (.string "pick"), .comma,
    .scalar (.number (.integer 3)), .comma, .scalar (.number (.float ⟨0x3fe0000000000000⟩)),
    .comma, .scalar .null, .rightBracket, .rightBracket, .comma, .scalar (.string "note"), .colon,
    .leftBracket, .rightBracket, .rightBrace, .rightBracket]

theorem parse_compact_toJson_terse :
    Scenario.parse terseText = .ok terse ∧
      (∀ x ∈ terse.probabilities, x.isFinite → ReadsBack x) ∧
      Scenario.parse (compact terse.toJson) = .ok terse := by
  have htokens : tokens terseText = terseTokens := by decide +kernel
  have hparse : Scenario.parse terseText = .ok terse := by
    rw [Scenario.parse, whole_eq_ok, htokens]
    rfl
  have hdigits : ∀ x ∈ terse.probabilities, ReadsBack x := by decide +kernel
  exact ⟨hparse, fun x hx _ => hdigits x hx,
    parse_compact_toJson hparse fun x hx _ => hdigits x hx⟩

end AttackDefense.Scenario
