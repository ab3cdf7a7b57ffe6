import AttackDefense.Json.Reader
import AttackDefense.Proofs.Except
import AttackDefense.Proofs.Json.Spelling

/-!
# Reading written values

`Reads r ts a` says that a reader takes just the tokens `ts`, whatever follows them.  Readers of
arrays and objects do if the readers they are made of do; `Folds` follows the state that the members
of an object build up:

    Forall₂ (Reads item) tss as → Reads (Reader.array item) …                          (reads_array)
    Folds member s ms s' → Reads (membersFrom s member) …                             (Folds.reads)
    Within depth v → Reads (value depth) v.spelling v                                  (reads_value)
    Reads r v.spelling a → AllNumbers LegibleNumber v →
      whole r (compact v) = .ok a                                             (Reads.whole_compact)
-/

namespace AttackDefense.Json

open Decimal Reader

section

variable {α σ : Type} {r item : Reader α} {view : Json → Option α} {ts : List Token} {a : α}
  {as : List α} {tss : List (List Token)} {fuel : Nat}

/-- The reader takes just these tokens, whatever follows. -/
def Reads (r : Reader α) (ts : List Token) (a : α) : Prop :=
  ∀ rest, r (ts ++ rest) = .ok (a, rest)

theorem reads_scalar {s : Scalar} (h : view s.toJson = some a) :
    Reads (scalar view) [.scalar s] a := by
  intro rest
  simp [scalar, h]

/-- The member of a field: its value is read once and put into the state. -/
def field (seen : Option α) (r : Reader α) (set : α → σ) : Reader σ := fun ts => do
  let (v, ts) ← once seen r ts
  return (set v, ts)

/-- A field that was not read before. -/
theorem Reads.field (h : Reads r ts a) (set : α → σ) :
    Reads (field none r set) (.colon :: ts) (set a) := by
  intro rest
  have honce : once (none : Option α) r (.colon :: ts ++ rest) = .ok (a, rest) := h rest
  rw [Json.field, honce]
  rfl

/-! ## Arrays -/

/-- The tokens do not begin as the rest of an array does. -/
def Opens (ts : List Token) : Prop := ∃ t rest, ts = t :: rest ∧ t ≠ .rightBracket ∧ t ≠ .comma

theorem nextItem_true (h : Opens ts) (rest : List Token) :
    nextItem true (ts ++ rest) = .ok (some (ts ++ rest)) := by
  obtain ⟨t, ts, rfl, hbracket, hcomma⟩ := h
  cases t with
  | rightBracket => exact absurd rfl hbracket
  | comma => exact absurd rfl hcomma
  | leftBrace | rightBrace | leftBracket | colon | scalar | flawed | broken => rfl

theorem nextItem_false (h : Opens ts) (rest : List Token) :
    nextItem false (.comma :: (ts ++ rest)) = .ok (some (ts ++ rest)) := by
  obtain ⟨t, ts, rfl, hbracket, -⟩ := h
  cases t with
  | rightBracket => exact absurd rfl hbracket
  | comma | leftBrace | rightBrace | leftBracket | colon | scalar | flawed | broken => rfl

theorem intercalate_cons (ts : List Token) (tss : List (List Token)) :
    [Token.comma].intercalate (ts :: tss) = ts ++ tss.flatMap (.comma :: ·) := by
  induction tss generalizing ts with
  | nil => simp
  | cons ts' tss ih =>
    rw [List.intercalate_cons_cons, ih]
    simp

theorem length_le_flatMap (tss : List (List Token)) :
    tss.length ≤ (tss.flatMap (Token.comma :: ·)).length := by
  induction tss with
  | nil => exact Nat.zero_le _
  | cons ts tss ih =>
    simp only [List.flatMap_cons, List.length_append, List.length_cons]
    omega

/-- There are at least as many tokens as items. -/
theorem length_le_intercalate (hopens : ∀ ts ∈ tss, Opens ts) :
    tss.length ≤ ([Token.comma].intercalate tss).length := by
  cases tss with
  | nil => exact Nat.zero_le _
  | cons ts tss =>
    obtain ⟨t, ts, rfl, -⟩ := hopens ts List.mem_cons_self
    have hcommas := length_le_flatMap tss
    rw [intercalate_cons]
    simp only [List.length_append, List.length_cons]
    omega

/-- Items with a comma before each. -/
theorem items_false (h : List.Forall₂ (Reads item) tss as) (hopens : ∀ ts ∈ tss, Opens ts)
    (hfuel : tss.length < fuel) (done : Array α) (rest : List Token) :
    items item fuel false done (tss.flatMap (.comma :: ·) ++ .rightBracket :: rest) =
      .ok (done.toList ++ as, rest) := by
  induction h generalizing fuel done with
  | nil =>
    obtain ⟨fuel, rfl⟩ : ∃ n, fuel = n + 1 := ⟨fuel - 1, by simp at hfuel; omega⟩
    rw [List.append_nil]
    rfl
  | @cons ts a tss as hts _ ih =>
    obtain ⟨fuel, rfl⟩ : ∃ n, fuel = n + 1 := ⟨fuel - 1, by omega⟩
    rw [List.forall_mem_cons] at hopens
    have htext : (ts :: tss).flatMap (.comma :: ·) ++ Token.rightBracket :: rest =
        .comma :: (ts ++ (tss.flatMap (.comma :: ·) ++ .rightBracket :: rest)) := by
      simp
    have hitem := hts (tss.flatMap (.comma :: ·) ++ .rightBracket :: rest)
    have hrest := ih hopens.2 (Nat.lt_of_succ_lt_succ hfuel) (done.push a)
    rw [htext, items, nextItem_false hopens.1]
    simp only [bind, Except.bind, hitem, hrest]
    simp

/-- Items with commas between them. -/
theorem items_true (h : List.Forall₂ (Reads item) tss as) (hopens : ∀ ts ∈ tss, Opens ts)
    (hfuel : tss.length < fuel) (rest : List Token) :
    items item fuel true #[] ([.comma].intercalate tss ++ .rightBracket :: rest) =
      .ok (as, rest) := by
  obtain ⟨fuel, rfl⟩ : ∃ n, fuel = n + 1 := ⟨fuel - 1, by omega⟩
  cases h with
  | nil => rfl
  | @cons ts a tss as hts htss =>
    rw [List.forall_mem_cons] at hopens
    have htext : [Token.comma].intercalate (ts :: tss) ++ .rightBracket :: rest =
        ts ++ (tss.flatMap (.comma :: ·) ++ .rightBracket :: rest) := by
      rw [intercalate_cons, List.append_assoc]
    have hitem := hts (tss.flatMap (.comma :: ·) ++ .rightBracket :: rest)
    have hrest := items_false htss hopens.2 (Nat.lt_of_succ_lt_succ hfuel) (#[].push a) rest
    rw [htext, items, nextItem_true hopens.1]
    simp only [bind, Except.bind, hitem, hrest]
    simp

theorem items_intercalate (h : List.Forall₂ (Reads item) tss as) (hopens : ∀ ts ∈ tss, Opens ts)
    (rest : List Token) :
    items item (([.comma].intercalate tss ++ .rightBracket :: rest).length + 1) true #[]
      ([.comma].intercalate tss ++ .rightBracket :: rest) = .ok (as, rest) := by
  refine items_true h hopens ?_ rest
  have hlength := length_le_intercalate hopens
  rw [List.length_append]
  omega

/-- **An array of items that are read is read.** -/
theorem reads_array (h : List.Forall₂ (Reads item) tss as) (hopens : ∀ ts ∈ tss, Opens ts) :
    Reads (Reader.array item) (.leftBracket :: ([.comma].intercalate tss ++ [.rightBracket]))
      as := by
  intro rest
  have htext : Token.leftBracket :: ([.comma].intercalate tss ++ [.rightBracket]) ++ rest =
      .leftBracket :: ([.comma].intercalate tss ++ .rightBracket :: rest) := by
    simp
  rw [htext]
  exact items_intercalate h hopens rest

/-! ## Objects -/

/-- The tokens of a member. -/
def memberTokens (m : String × List Token) : List Token := .scalar (.string m.1) :: .colon :: m.2

/-- What the members of an object make of a state, one after the other. -/
inductive Folds (member : String → σ → Reader σ) : σ → List (String × List Token) → σ → Prop
  | nil (s : σ) : Folds member s [] s
  | cons {k : String} {ts : List Token} {ms : List (String × List Token)} {s s' s'' : σ}
    (h : Reads (member k s) (.colon :: ts) s') (hrest : Folds member s' ms s'') :
    Folds member s ((k, ts) :: ms) s''

variable {member : String → σ → Reader σ} {ms : List (String × List Token)} {s s' : σ}

/-- Members with a comma before each. -/
theorem Folds.members_false (h : Folds member s ms s') (hfuel : ms.length < fuel)
    (rest : List Token) :
    members member fuel false s (ms.flatMap (.comma :: memberTokens ·) ++ .rightBrace :: rest) =
      .ok (s', rest) := by
  induction h generalizing fuel with
  | nil s =>
    obtain ⟨fuel, rfl⟩ : ∃ n, fuel = n + 1 := ⟨fuel - 1, by simp at hfuel; omega⟩
    rfl
  | @cons k ts ms s s' s'' hread _ ih =>
    obtain ⟨fuel, rfl⟩ : ∃ n, fuel = n + 1 := ⟨fuel - 1, by omega⟩
    have htext : ((k, ts) :: ms).flatMap (Token.comma :: memberTokens ·) ++
        Token.rightBrace :: rest = .comma :: .scalar (.string k) ::
          (.colon :: ts ++ (ms.flatMap (.comma :: memberTokens ·) ++ .rightBrace :: rest)) := by
      simp [memberTokens]
    have hmember := hread (ms.flatMap (.comma :: memberTokens ·) ++ .rightBrace :: rest)
    have hrest := ih (Nat.lt_of_succ_lt_succ hfuel)
    rw [htext, members]
    simp only [nextKey, key, Except.map, bind, Except.bind, Bool.false_eq_true, if_false, hmember,
      hrest]

theorem Folds.members_true (h : Folds member s ms s') (hfuel : ms.length < fuel)
    (rest : List Token) :
    members member fuel true s
      ([.comma].intercalate (ms.map memberTokens) ++ .rightBrace :: rest) = .ok (s', rest) := by
  obtain ⟨fuel, rfl⟩ : ∃ n, fuel = n + 1 := ⟨fuel - 1, by omega⟩
  cases h with
  | nil => rfl
  | @cons k ts ms _ s₁ _ hread hms =>
    have htext : [Token.comma].intercalate (((k, ts) :: ms).map memberTokens) ++
        .rightBrace :: rest = .scalar (.string k) ::
          (.colon :: ts ++ (ms.flatMap (.comma :: memberTokens ·) ++ .rightBrace :: rest)) := by
      rw [List.map_cons, intercalate_cons, List.flatMap_map]
      simp [memberTokens]
    have hmember := hread (ms.flatMap (.comma :: memberTokens ·) ++ .rightBrace :: rest)
    have hrest := hms.members_false (Nat.lt_of_succ_lt_succ hfuel) rest
    rw [htext, members]
    simp only [nextKey, key, Except.map, bind, Except.bind, if_true, hmember, hrest]

/-- **An object whose members are read is read.** -/
theorem Folds.reads (h : Folds member s ms s') :
    Reads (membersFrom s member) ([.comma].intercalate (ms.map memberTokens) ++ [.rightBrace])
      s' := by
  intro rest
  have hopens : ∀ ts ∈ ms.map memberTokens, Opens ts := by
    intro ts hts
    obtain ⟨m, -, rfl⟩ := List.mem_map.1 hts
    exact ⟨_, _, rfl, nofun, nofun⟩
  have hlength := length_le_intercalate hopens
  have htext : [Token.comma].intercalate (ms.map memberTokens) ++ [.rightBrace] ++ rest =
      [.comma].intercalate (ms.map memberTokens) ++ .rightBrace :: rest := by
    simp
  rw [htext, membersFrom]
  refine h.members_true ?_ rest
  rw [List.length_map] at hlength
  rw [List.length_append]
  omega

end

/-! ## Any value -/

/-- At most so many containers stand inside one another. -/
inductive Within : Nat → Json → Prop
  | null {depth : Nat} : Within depth .null
  | bool {depth : Nat} {b : Bool} : Within depth (.bool b)
  | number {depth : Nat} {n : Number} : Within depth (.number n)
  | string {depth : Nat} {s : String} : Within depth (.string s)
  | array {depth : Nat} {items : List Json} (h : ∀ v ∈ items, Within depth v) :
    Within (depth + 1) (.array items)
  | object {depth : Nat} {members : List (String × Json)} (h : ∀ m ∈ members, Within depth m.2) :
    Within (depth + 1) (.object members)

theorem Within.of_object {depth : Nat} {ms : List (String × Json)}
    (h : Within (depth + 1) (.object ms)) : ∀ m ∈ ms, Within depth m.2 := by
  cases h with
  | object h => exact h

theorem opens_spelling (v : Json) : Opens v.spelling := by
  cases v <;> exact ⟨_, _, rfl, nofun, nofun⟩

theorem reads_value_scalar (depth : Nat) (s : Scalar) :
    Reads (value depth) [.scalar s] s.toJson := by
  intro rest
  cases depth <;> rfl

theorem reads_string (s : String) : Reads Reader.string (Json.string s).spelling s :=
  reads_scalar rfl

theorem reads_float (x : Binary64) : Reads Reader.float (Json.number (.float x)).spelling x :=
  reads_scalar rfl

theorem reads_nullable_uint64 (n : UInt64) :
    Reads (nullable uint64) (Json.number (.integer n.toNat)).spelling (some n) := by
  have hrange : (0 : Int) ≤ n.toNat ∧ (n.toNat : Int) ≤ UInt64.size - 1 := by
    have hlt : n.toNat < UInt64.size := n.toNat_lt
    omega
  have hview : Number.asUInt64? (.integer n.toNat) = some n := by
    rw [Number.asUInt64?, Number.inRange?, if_pos hrange]
    simp
  intro rest
  have hread : uint64 (.scalar (.number (.integer n.toNat)) :: rest) = .ok (n, rest) :=
    reads_scalar (s := .number (.integer n.toNat)) hview rest
  have hnullable : nullable uint64 (.scalar (.number (.integer n.toNat)) :: rest) =
      (uint64 (.scalar (.number (.integer n.toNat)) :: rest)).map
        fun taken => (some taken.1, taken.2) := rfl
  exact hnullable.trans (congrArg (Except.map _) hread)

/-- A member of a plain object, read from behind its key. -/
def pushMember (depth : Nat) (k : String) (done : Array (String × Json)) :
    Reader (Array (String × Json)) := fun ts => do
  let ts ← colon ts
  let (v, ts) ← value depth ts
  .ok (done.push (k, v), ts)

/-- The members of an object with their tokens. -/
def spelledMembers (ms : List (String × Json)) : List (String × List Token) :=
  ms.map fun m => (m.1, m.2.spelling)

/-- The members of a written object are read from behind its brace. -/
theorem Folds.reads_object {σ : Type} {member : String → σ → Reader σ} {s s' : σ}
    {ms : List (String × Json)} (h : Folds member s (spelledMembers ms) s') (rest : List Token) :
    ∃ ts, (Json.object ms).spelling ++ rest = .leftBrace :: ts ∧
      membersFrom s member ts = .ok (s', rest) := by
  refine ⟨_, ?_, h.reads rest⟩
  rw [spelling, memberSpellings_eq_map, spelledMembers, List.map_map]
  simp [Function.comp_def, memberTokens]

theorem folds_pushMember {depth : Nat} {ms : List (String × Json)} (done : Array (String × Json))
    (h : ∀ m ∈ ms, Reads (value depth) m.2.spelling m.2) :
    Folds (pushMember depth) done (spelledMembers ms) (done ++ ms.toArray) := by
  induction ms generalizing done with
  | nil => simpa [spelledMembers] using Folds.nil done
  | cons m ms ih =>
    rw [List.forall_mem_cons] at h
    have hread : Reads (pushMember depth m.1 done) (.colon :: m.2.spelling)
        (done.push (m.1, m.2)) := by
      intro rest
      have hvalue := h.1 rest
      simp only [pushMember, List.cons_append, colon, bind, Except.bind, hvalue]
    have hrest := ih (done.push (m.1, m.2)) h.2
    simpa [spelledMembers] using Folds.cons hread hrest

/-- **A value that nests no deeper is read.** -/
theorem reads_value {depth : Nat} {v : Json} (h : Within depth v) :
    Reads (value depth) v.spelling v := by
  induction h with
  | null => exact reads_value_scalar _ .null
  | bool => exact reads_value_scalar _ (.bool _)
  | number => exact reads_value_scalar _ (.number _)
  | string => exact reads_value_scalar _ (.string _)
  | @array depth vs _ ih =>
    intro rest
    have hitems : List.Forall₂ (Reads (value depth)) (vs.map spelling) vs := by
      rw [List.forall₂_map_left_iff, List.forall₂_same]
      exact ih
    have hopens : ∀ ts ∈ vs.map spelling, Opens ts := by
      intro ts hts
      obtain ⟨v, -, rfl⟩ := List.mem_map.1 hts
      exact opens_spelling v
    have htext : (Json.array vs).spelling ++ rest =
        .leftBracket :: ([.comma].intercalate (vs.map spelling) ++ .rightBracket :: rest) := by
      rw [spelling, itemSpellings_eq_map]
      simp
    rw [htext, value, items_intercalate hitems hopens]
    rfl
  | @object depth ms _ ih =>
    intro rest
    obtain ⟨ts, htext, hmembers⟩ := (folds_pushMember #[] ih).reads_object rest
    have hvalue : value (depth + 1) (.leftBrace :: ts) =
        (membersFrom #[] (pushMember depth) ts).map
          fun taken => (.object taken.1.toList, taken.2) := rfl
    rw [htext, hvalue, hmembers]
    simp [Except.map]

/-! ## Whole texts -/

theorem whole_eq_ok {α : Type} {r : Reader α} {text : String} {a : α} :
    whole r text = .ok a ↔ r (tokens text) = .ok (a, []) := by
  rw [whole, bind_eq_ok]
  constructor
  · rintro ⟨⟨a', rest⟩, hread, h⟩
    cases rest with
    | nil =>
      cases h
      exact hread
    | cons => cases h
  · intro hread
    exact ⟨(a, []), hread, rfl⟩

/-- What a reader takes off the tokens of a value it takes off the written value. -/
theorem Reads.whole_compact {α : Type} {r : Reader α} {v : Json} {a : α}
    (h : Reads r v.spelling a) (hlegible : AllNumbers LegibleNumber v) :
    whole r (compact v) = .ok a := by
  have hlexes := lexes_compact hlegible [] (by simp [Delimited])
  have htokens : tokens (compact v) = v.spelling ++ [] := by
    rw [List.append_nil, tokensOf_nil] at hlexes
    exact hlexes
  rw [whole_eq_ok, htokens]
  exact h []

/-! ## Digits -/

/-- A text that holds a number and nothing else. -/
theorem parse_eq_number_iff {text : String} {n : Number} :
    parse text = .ok (.number n) ↔ tokens text = [.scalar (.number n)] := by
  rw [parse, whole_eq_ok]
  generalize tokens text = ts
  constructor
  · intro hvalue
    unfold value at hvalue
    split at hvalue
    · obtain ⟨_, -, heq⟩ := map_eq_ok.1 hvalue
      cases heq
    · obtain ⟨_, -, heq⟩ := map_eq_ok.1 hvalue
      cases heq
    · unfold scalar at hvalue
      split at hvalue
      · next s rest _ _ =>
        cases s with
        | number =>
          cases hvalue
          rfl
        | null | bool | string => cases hvalue
      · cases hvalue
  · rintro rfl
    rfl

/-- The shortest digits of a number are read as that number. -/
def ReadsBack (x : Binary64) : Prop := parse (Number.text (.float x)) = .ok (.number (.float x))

theorem readsBack_iff {x : Binary64} :
    ReadsBack x ↔ tokens (Number.text (.float x)) = [.scalar (.number (.float x))] :=
  parse_eq_number_iff

instance (x : Binary64) : Decidable (ReadsBack x) := decidable_of_iff _ readsBack_iff.symm

/-- Reading rounds twice, and may miss a number of 16 digits by one. -/
theorem exists_not_readsBack : ∃ x : Binary64, x.isFinite ∧ ¬ ReadsBack x :=
  ⟨⟨4606320794451789277⟩, by decide +kernel⟩

/-- A number whose digits are read back is legible in any text. -/
theorem ReadsBack.legible {x : Binary64} (h : ReadsBack x) : LegibleNumber (.float x) := by
  have htokens : tokensOf (Number.text (.float x)).toList = [.scalar (.number (.float x))] :=
    readsBack_iff.1 h
  intro rest hrest
  have hsound : Unbroken (tokensOf (Number.text (.float x)).toList) := by
    rw [htokens]
    simp [Unbroken]
  rw [tokensOf_append hsound hrest, htokens]

end AttackDefense.Json
