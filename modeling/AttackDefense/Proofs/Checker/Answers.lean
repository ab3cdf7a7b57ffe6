import AttackDefense.Proofs.Checker.Blocks
import AttackDefense.Proofs.Except
import Mathlib.Data.List.Nodup

/-!
# Answers to single queries

What a report says about the formula of a query: it has an entry for it, and there the first estimate
or interval is the answer.  A query that has none has one fault, and `answer` tells which:

    Unanswered entries p f → ¬ Answered entries p                    (Unanswered.not_answered)
    Unanswered entries p f → Unanswered entries p g → f = g                (Unanswered.unique)
    Settles entries [p] (answer (entries.map Entry.block) r p.2 p.1) …        (settles_answer)

Where the queries asked are known, `Settles` leaves no choice of the fault: it is that of the first
one without an answer (`Settles.eq_error_iff`).
-/

namespace AttackDefense.Checker

open Decimal

/-! ## What a report says -/

section

variable (entries : List Entry)

/-- The body of the entry has what a query of this kind asks for. -/
def Entry.Answers (e : Entry) : QueryKind → Prop
  | .strategy => True
  | .expectedTime | .expectedCost => ∃ m, FirstIn EstimateAt e.body.toList m
  | .successProbability => ∃ m, FirstIn IntervalAt e.body.toList m

/-- What a query of a kind expects in a body. -/
def expectation : QueryKind → String
  | .successProbability => "a probability interval"
  | _ => "an expected value"

/-- The formula of the query has an entry with an answer. -/
def Answered (p : Query × Nat) : Prop := ∃ e ∈ entries, e.formula = p.2 ∧ e.Answers p.1.kind

/-- Why a query has no answer. -/
inductive Unanswered (p : Query × Nat) : Fault → Prop
  | output (h : ∀ e ∈ entries, e.formula ≠ p.2) : Unanswered p (.missingOutput p.2)
  | result {e : Entry} (he : e ∈ entries) (hp : e.formula = p.2) (h : ¬ e.Answers p.1.kind) :
    Unanswered p (.missingResult p.2 (expectation p.1.kind))

/-- The computation succeeds if all these queries are answered, and otherwise it has the fault of the
first one that is not. -/
structure Settles {β : Type} (asked : List (Query × Nat)) (x : Except Fault β) (P : β → Prop) :
    Prop where
  of_ok : ∀ b, x = .ok b → (∀ p ∈ asked, Answered entries p) ∧ P b
  of_error : ∀ f, x = .error f → ∃ before p after, asked = before ++ p :: after ∧
    (∀ q ∈ before, Answered entries q) ∧ Unanswered entries p f

end

section

variable {entries : List Entry} {p : Query × Nat} {f g : Fault} {α β : Type}
  {asked asked' : List (Query × Nat)} {x : Except Fault α} {P : α → Prop} {Q : β → Prop}

/-- Entries of one formula are one entry. -/
theorem eq_of_formula_eq {e e' : Entry} (hnodup : (entries.map Entry.formula).Nodup)
    (he : e ∈ entries) (he' : e' ∈ entries) (h : e.formula = e'.formula) : e = e' :=
  List.inj_on_of_nodup_map hnodup he he' h

theorem Unanswered.not_answered (hnodup : (entries.map Entry.formula).Nodup)
    (h : Unanswered entries p f) : ¬ Answered entries p := by
  rintro ⟨e, he, hp, hanswers⟩
  cases h with
  | output h => exact h e he hp
  | @result e' he' hp' h =>
    obtain rfl := eq_of_formula_eq hnodup he he' (hp.trans hp'.symm)
    exact h hanswers

/-- A query has only one fault. -/
theorem Unanswered.unique (h : Unanswered entries p f) (h' : Unanswered entries p g) : f = g := by
  cases h with
  | output h =>
    cases h' with
    | output => rfl
    | result he hp => exact absurd hp (h _ he)
  | result he hp =>
    cases h' with
    | output h => exact absurd hp (h _ he)
    | result => rfl

theorem settles_ok {a : α} (hasked : ∀ p ∈ asked, Answered entries p) (h : P a) :
    Settles entries asked (.ok a) P :=
  ⟨fun _ hb => Except.ok.inj hb ▸ ⟨hasked, h⟩, fun _ hf => (nomatch hf)⟩

theorem settles_error (hp : Unanswered entries p f) :
    Settles entries [p] (.error f : Except Fault α) P := by
  refine ⟨fun _ hb => (nomatch hb), fun g hg => ?_⟩
  obtain rfl := Except.error.inj hg
  exact ⟨[], p, [], rfl, by simp, hp⟩

/-- Of a list of queries only one can be the first without an answer. -/
theorem first_unanswered_unique (hnodup : (entries.map Entry.formula).Nodup)
    {before before' after after' : List (Query × Nat)} {p' : Query × Nat}
    (h : before ++ p :: after = before' ++ p' :: after')
    (hbefore : ∀ q ∈ before, Answered entries q) (hp : Unanswered entries p f)
    (hbefore' : ∀ q ∈ before', Answered entries q) (hp' : Unanswered entries p' g) : p = p' := by
  rcases List.append_eq_append_iff.1 h with ⟨l, rfl, hl⟩ | ⟨l, rfl, hl⟩
  · cases l with
    | nil => exact (List.cons.inj hl).1
    | cons q l =>
      obtain rfl : p = q := (List.cons.inj hl).1
      exact absurd (hbefore' p (by simp)) (hp.not_answered hnodup)
  · cases l with
    | nil => exact (List.cons.inj hl).1.symm
    | cons q l =>
      obtain rfl : p' = q := (List.cons.inj hl).1
      exact absurd (hbefore p' (by simp)) (hp'.not_answered hnodup)

/-- What settles queries has the fault of the first one without an answer, and no fault if there is
none. -/
theorem Settles.eq_error_iff (h : Settles entries asked x P)
    (hnodup : (entries.map Entry.formula).Nodup) :
    x = .error f ↔ ∃ before p after, asked = before ++ p :: after ∧
      (∀ q ∈ before, Answered entries q) ∧ Unanswered entries p f := by
  refine ⟨h.of_error f, ?_⟩
  rintro ⟨before, p, after, hasked, hbefore, hp⟩
  cases hx : x with
  | ok a =>
    have hanswered : Answered entries p := (h.of_ok a hx).1 p (by simp [hasked])
    exact absurd hanswered (hp.not_answered hnodup)
  | error g =>
    obtain ⟨before', p', after', hasked', hbefore', hp'⟩ := h.of_error g hx
    obtain rfl := first_unanswered_unique hnodup (hasked.symm.trans hasked') hbefore hp hbefore' hp'
    rw [hp'.unique hp]

theorem Settles.imp {P' : α → Prop} (h : Settles entries asked x P) (hP : ∀ a, P a → P' a) :
    Settles entries asked x P' :=
  ⟨fun a ha => ⟨(h.of_ok a ha).1, hP a (h.of_ok a ha).2⟩, h.of_error⟩

/-- The faults of a composed computation are those of its parts, in their order. -/
theorem Settles.bind {k : α → Except Fault β} (hx : Settles entries asked x P)
    (hk : ∀ a, P a → Settles entries asked' (k a) Q) :
    Settles entries (asked ++ asked') (x >>= k) Q := by
  constructor
  · intro b hb
    obtain ⟨a, ha, hka⟩ := bind_eq_ok.1 hb
    obtain ⟨hasked, hPa⟩ := hx.of_ok a ha
    obtain ⟨hasked', hQb⟩ := (hk a hPa).of_ok b hka
    exact ⟨List.forall_mem_append.2 ⟨hasked, hasked'⟩, hQb⟩
  · intro f hf
    rcases bind_eq_error.1 hf with hx' | ⟨a, ha, hka⟩
    · obtain ⟨before, p, after, rfl, hbefore, hp⟩ := hx.of_error f hx'
      exact ⟨before, p, after ++ asked', by simp, hbefore, hp⟩
    · obtain ⟨hasked, hPa⟩ := hx.of_ok a ha
      obtain ⟨before, p, after, rfl, hbefore, hp⟩ := (hk a hPa).of_error f hka
      exact ⟨asked ++ before, p, after, by simp, List.forall_mem_append.2 ⟨hasked, hbefore⟩, hp⟩

theorem Settles.map {k : α → β} (hx : Settles entries asked x P) (hk : ∀ a, P a → Q (k a)) :
    Settles entries asked (x.map k) Q := by
  have hbind : x.map k = x >>= fun a => .ok (k a) := by cases x <;> rfl
  rw [hbind, ← List.append_nil asked]
  exact hx.bind fun a ha => settles_ok (by simp) (hk a ha)

/-! ## Reading a match -/

/-- The first match of a pattern in the text, with its values. -/
def ValuesIn (At : List Char → List Char × List Char → Prop) (text : List Char)
    (x : Binary64 × Binary64) : Prop :=
  ∃ m, FirstIn At text m ∧ readNumeral m.1 = .ok x.1 ∧ readNumeral m.2 = .ok x.2

/-- A pattern of numerals is read with their values, or it is missed. -/
theorem readPair_firstMatch {At : List Char → List Char × List Char → Prop}
    {scan : List Char → Option (List Char × List Char)}
    (hscan : ∀ t m, scan t = some m ↔ At t m)
    (hnumerals : ∀ t m, At t m → IsNumeral m.1 ∧ IsNumeral m.2)
    (k : Nat) (expected : String) (text : List Char) :
    (∃ x, readPair k expected (firstMatch scan text) = .ok x ∧ ValuesIn At text x) ∨
      readPair k expected (firstMatch scan text) = .error (.missingResult k expected) ∧
        ¬ ∃ m, FirstIn At text m := by
  cases h : firstMatch scan text with
  | none =>
    refine .inr ⟨rfl, fun ⟨m, hm⟩ => ?_⟩
    rw [← firstMatch_eq_some_iff hscan, h] at hm
    cases hm
  | some m =>
    have hfirst := (firstMatch_eq_some_iff hscan).1 h
    obtain ⟨before, tail, -, hat, -⟩ := id hfirst
    obtain ⟨hn₁, hn₂⟩ := hnumerals tail m hat
    obtain ⟨x₁, hx₁⟩ := readNumeral_ok hn₁
    obtain ⟨x₂, hx₂⟩ := readNumeral_ok hn₂
    refine .inl ⟨(x₁, x₂), ?_, m, hfirst, hx₁, hx₂⟩
    simp only [readPair, hx₁, hx₂]
    rfl

theorem PairAt.numerals {mark between : String} {text n₁ n₂ rest : List Char}
    (h : PairAt mark between text n₁ n₂ rest) : IsNumeral n₁ ∧ IsNumeral n₂ := by
  obtain ⟨-, -, -, -, -, -, -, hn₁, hn₂⟩ := h
  exact ⟨hn₁, hn₂.1⟩

theorem prefix_of_estimate {t : List Char} {m : List Char × List Char}
    (h : takeEstimate t = some m) : "≈".toList <+: t := by
  obtain ⟨rest, b₁, b₂, b₃, -, -, -, rfl, -⟩ := takeEstimate_eq_some_iff.1 h
  exact List.prefix_append _ _

theorem prefix_of_interval {t : List Char} {m : List Char × List Char}
    (h : takeInterval t = some m) : "in [".toList <+: t := by
  obtain ⟨b, rest, -, b₁, b₂, b₃, -, -, -, rfl, -⟩ := takeInterval_eq_some_iff.1 h
  exact List.prefix_append _ _

theorem prefix_of_word {word : String} {t rest : List Char} (h : afterWord word t = some rest) :
    word.toList <+: t := by
  rw [afterWord_eq_some_iff.1 h]
  exact List.prefix_append _ _

/-- Words are mentioned in a block if they are in its body. -/
theorem mentions_block (e : Entry) : mentions "Formula is satisfied." e.block.text ↔
    "Formula is satisfied.".toList <:+: e.body.toList := by
  rw [← mentions_iff, mentions, mentions,
    firstMatch_block (fun _ _ h => prefix_of_word h) foreign_satisfied e]

/-! ## Adding an answer -/

variable {r r' : StrategyResult} {e : Entry}

def Estimate.pair (e : Estimate) : Binary64 × Binary64 := (e.mean, e.deviation)

/-- A value that is asked for is the first match in the entry, any other one is kept. -/
def Entry.Updates (e : Entry) (At : List Char → List Char × List Char → Prop) (asked : Prop)
    (old new : Option (Binary64 × Binary64)) : Prop :=
  (¬ asked → new = old) ∧ (asked → ∃ x, ValuesIn At e.body.toList x ∧ new = some x)

/-- The result is extended by what the entry says to a query of the kind. -/
structure Entry.Adds (e : Entry) (r : StrategyResult) (kind : QueryKind) (r' : StrategyResult) :
    Prop where
  strategy : r'.strategy = r.strategy
  satisfied : r'.satisfied ↔
    if kind = .strategy then "Formula is satisfied.".toList <:+: e.body.toList else r.satisfied
  time : e.Updates EstimateAt (kind = .expectedTime) (r.expectedTime.map Estimate.pair)
    (r'.expectedTime.map Estimate.pair)
  cost : e.Updates EstimateAt (kind = .expectedCost) (r.expectedCost.map Estimate.pair)
    (r'.expectedCost.map Estimate.pair)
  probability : e.Updates IntervalAt (kind = .successProbability) r.successProbability
    r'.successProbability

/-- Nothing is asked for. -/
theorem Entry.Updates.keep {At : List Char → List Char × List Char → Prop} {asked : Prop}
    {value : Option (Binary64 × Binary64)} (h : ¬ asked) : e.Updates At asked value value :=
  ⟨fun _ => rfl, fun hasked => absurd hasked h⟩

theorem Entry.Updates.found {At : List Char → List Char × List Char → Prop} {asked : Prop}
    {old : Option (Binary64 × Binary64)} {x : Binary64 × Binary64} (h : asked)
    (hx : ValuesIn At e.body.toList x) : e.Updates At asked old (some x) :=
  ⟨fun hnot => absurd h hnot, fun _ => ⟨x, hx, rfl⟩⟩

theorem readEstimate_block (k : Nat) (e : Entry) :
    (∃ x, readEstimate k e.block = .ok ⟨x.1, x.2⟩ ∧ ValuesIn EstimateAt e.body.toList x) ∨
      readEstimate k e.block = .error (.missingResult k "an expected value") ∧
        ¬ ∃ m, FirstIn EstimateAt e.body.toList m := by
  rw [readEstimate, firstMatch_block (fun _ _ h => prefix_of_estimate h) foreign_estimate e]
  have hnumerals (t : List Char) (m : List Char × List Char) :
      EstimateAt t m → IsNumeral m.1 ∧ IsNumeral m.2 := fun ⟨_, h⟩ => h.numerals
  rcases readPair_firstMatch (fun _ _ => takeEstimate_eq_some_iff) hnumerals k "an expected value"
    e.body.toList with ⟨x, hx, hvalues⟩ | ⟨hx, hnot⟩
  · exact .inl ⟨x, by rw [hx]; rfl, hvalues⟩
  · exact .inr ⟨by rw [hx]; rfl, hnot⟩

theorem readInterval_block (k : Nat) (e : Entry) :
    (∃ x, readInterval k e.block = .ok x ∧ ValuesIn IntervalAt e.body.toList x) ∨
      readInterval k e.block = .error (.missingResult k "a probability interval") ∧
        ¬ ∃ m, FirstIn IntervalAt e.body.toList m := by
  rw [readInterval, firstMatch_block (fun _ _ h => prefix_of_interval h) foreign_interval e]
  have hnumerals (t : List Char) (m : List Char × List Char) :
      IntervalAt t m → IsNumeral m.1 ∧ IsNumeral m.2 := fun ⟨_, _, _, h⟩ => h.numerals
  exact readPair_firstMatch (fun _ _ => takeInterval_eq_some_iff) hnumerals k
    "a probability interval" e.body.toList

/-- An entry with the answer adds it, any other one is reported. -/
theorem add_block (r : StrategyResult) (kind : QueryKind) (k : Nat) (e : Entry) :
    (∃ r', r.add kind k e.block = .ok r' ∧ e.Answers kind ∧ e.Adds r kind r') ∨
      r.add kind k e.block = .error (.missingResult k (expectation kind)) ∧ ¬ e.Answers kind := by
  cases kind with
  | strategy =>
    exact .inl ⟨_, rfl, trivial, rfl, mentions_block e, .keep nofun, .keep nofun, .keep nofun⟩
  | expectedTime =>
    rcases readEstimate_block k e with ⟨x, hx, hvalues⟩ | ⟨hx, hnot⟩
    · obtain ⟨m, hm, -⟩ := id hvalues
      exact .inl ⟨{ r with expectedTime := some ⟨x.1, x.2⟩ }, by rw [StrategyResult.add, hx]; rfl,
        ⟨m, hm⟩, rfl, .rfl, .found rfl hvalues, .keep nofun, .keep nofun⟩
    · exact .inr ⟨by rw [StrategyResult.add, hx]; rfl, hnot⟩
  | expectedCost =>
    rcases readEstimate_block k e with ⟨x, hx, hvalues⟩ | ⟨hx, hnot⟩
    · obtain ⟨m, hm, -⟩ := id hvalues
      exact .inl ⟨{ r with expectedCost := some ⟨x.1, x.2⟩ }, by rw [StrategyResult.add, hx]; rfl,
        ⟨m, hm⟩, rfl, .rfl, .keep nofun, .found rfl hvalues, .keep nofun⟩
    · exact .inr ⟨by rw [StrategyResult.add, hx]; rfl, hnot⟩
  | successProbability =>
    rcases readInterval_block k e with ⟨x, hx, hvalues⟩ | ⟨hx, hnot⟩
    · obtain ⟨m, hm, -⟩ := id hvalues
      exact .inl ⟨{ r with successProbability := some x }, by rw [StrategyResult.add, hx]; rfl,
        ⟨m, hm⟩, rfl, .rfl, .keep nofun, .keep nofun, .found rfl hvalues⟩
    · exact .inr ⟨by rw [StrategyResult.add, hx]; rfl, hnot⟩

theorem find?_block (entries : List Entry) (k : Nat) :
    (∃ e ∈ entries, e.formula = k ∧
      (entries.map Entry.block).find? (fun b => b.formula = k) = some e.block) ∨
    (∀ e ∈ entries, e.formula ≠ k) ∧
      (entries.map Entry.block).find? (fun b => b.formula = k) = none := by
  rw [List.find?_map]
  cases h : entries.find? ((fun b => decide (b.formula = k)) ∘ Entry.block) with
  | none =>
    refine .inr ⟨fun e he hk => List.find?_eq_none.1 h e he (decide_eq_true hk), rfl⟩
  | some e =>
    have hk := List.find?_some h
    exact .inl ⟨e, List.mem_of_find?_eq_some h, of_decide_eq_true hk, rfl⟩

/-- **What is asked is answered by the entry of the formula, or has a fault.** -/
theorem settles_answer (h : p.1.kind = .strategy ∨ r.satisfied) :
    Settles entries [p] (answer (entries.map Entry.block) r p.2 p.1)
      fun r' => ∃ e ∈ entries, e.formula = p.2 ∧ e.Adds r p.1.kind r' := by
  have hasked : ¬ (p.1.kind ≠ .strategy ∧ ¬ r.satisfied) := by
    rintro ⟨hkind, hr⟩
    exact h.elim hkind hr
  rw [answer, if_neg hasked]
  rcases find?_block entries p.2 with ⟨e, he, hp, hfind⟩ | ⟨hnone, hfind⟩
  · rw [hfind]
    rcases add_block r p.1.kind p.2 e with ⟨r', hr', hanswers, hadds⟩ | ⟨hr', hnot⟩
    · simp only [hr']
      exact settles_ok (by simpa using ⟨e, he, hp, hanswers⟩) ⟨e, he, hp, hadds⟩
    · simp only [hr']
      exact settles_error (.result he hp hnot)
  · rw [hfind]
    exact settles_error (.output hnone)

/-- Nothing is asked of a strategy that was not found. -/
theorem answer_of_not_satisfied {bs : List Block} (hkind : p.1.kind ≠ .strategy)
    (hr : r.satisfied = false) : answer bs r p.2 p.1 = .ok r := by
  rw [answer, if_pos ⟨hkind, by simp [hr]⟩]

end

end AttackDefense.Checker
