import AttackDefense.Proofs.Checker.Answers
import Mathlib.Data.List.SplitBy

/-!
# Results of strategies

The queries about one strategy stand together (`runs`), and the first of them asks whether there is
one.  If so the answers to the others are needed, and each is taken from the entry of its own number;
if not, nothing else in the report on them matters.  One step of this is `Faithful.concat`, a run is
`settles_run`, and a whole list of queries is

    ReportOf preamble entries → WellPosed queries → Settles entries (needed entries queries)
      (readReport (report preamble entries) queries) (Forall₂ (Faithful entries) (runs queries))
                                                                         (readReport_faithful)
-/

namespace AttackDefense.Checker

open Decimal

/-! ## Runs of queries -/

/-- The queries with the numbers of their formulas. -/
def numbered (queries : List Query) : List (Query × Nat) := queries.zipIdx 1

/-- The numbered queries, cut where the strategy changes. -/
def runs (queries : List Query) : List (List (Query × Nat)) :=
  (numbered queries).splitBy fun p q => p.1.strategy == q.1.strategy

/-- Every run begins with its only query that learns the strategy, and it has each other kind of query
at most once. -/
structure WellPosed (queries : List Query) : Prop where
  leads : ∀ run ∈ runs queries, ∃ p rest, run = p :: rest ∧ p.1.kind = .strategy
  nodup : ∀ run ∈ runs queries, (run.map (·.1.kind)).Nodup

def SameStrategy (p q : Query × Nat) : Prop := p.1.strategy = q.1.strategy

instance : Trans SameStrategy SameStrategy SameStrategy := ⟨Eq.trans⟩

instance : Std.Symm SameStrategy := ⟨fun _ _ => Eq.symm⟩

/-- All queries of a run are about one strategy. -/
theorem strategy_eq_of_mem_runs {queries : List Query} {run : List (Query × Nat)}
    (hrun : run ∈ runs queries) {p q : Query × Nat} (hp : p ∈ run) (hq : q ∈ run) :
    p.1.strategy = q.1.strategy := by
  have hchain : run.IsChain SameStrategy :=
    (List.isChain_of_mem_splitBy hrun).imp fun _ _ h => eq_of_beq h
  have hrefl : ∀ p ∈ run, SameStrategy p p := fun _ _ => rfl
  exact hchain.pairwise.forall_of_forall hrefl hp hq

theorem isChain_runs (queries : List Query) :
    (runs queries).IsChain fun run run' => ∀ p ∈ run, ∀ q ∈ run', p.1.strategy ≠ q.1.strategy := by
  refine (List.isChain_getLast_head_splitBy _ (numbered queries)).imp_of_mem_imp ?_
  rintro run run' hrun hrun' ⟨hne, hne', hlast⟩ p hp q hq heq
  rw [strategy_eq_of_mem_runs hrun hp (List.getLast_mem hne),
    strategy_eq_of_mem_runs hrun' hq (List.head_mem hne')] at heq
  exact ne_of_beq_false hlast heq

/-- A model asks about strategies with four queries for each, one of each kind. -/
theorem wellPosed_queries (m : Model) : WellPosed m.queries := by
  cases hgoal : m.goal with
  | none =>
    have hnil : runs m.queries = [] := by simp [runs, numbered, Model.queries, hgoal]
    constructor <;> simp [hnil]
  | some goal =>
    have hqueries : m.queries =
        (Model.objectives m.settings).flatMap fun o => o.queries m.settings goal := by
      simp [Model.queries, hgoal]
    cases htime : m.settings.timeLimit <;> cases hcost : m.settings.costLimit <;> constructor <;>
      simp [hqueries, runs, numbered, Model.objectives, Model.Objective.queries, htime, hcost,
        List.splitBy, List.splitBy.loop]

/-! ## What is needed, and what is reported -/

section

variable (entries : List Entry)

/-- The strategy of the run was found. -/
def Satisfied (run : List (Query × Nat)) : Prop :=
  ∃ p ∈ run, p.1.kind = .strategy ∧
    ∃ e ∈ entries, e.formula = p.2 ∧ "Formula is satisfied.".toList <:+: e.body.toList

instance (run : List (Query × Nat)) : Decidable (Satisfied entries run) :=
  inferInstanceAs (Decidable (∃ p ∈ run, _ ∧ ∃ e ∈ entries, _ ∧ _))

/-- The queries of a run that need an answer: all of them if the strategy was found. -/
def neededOf (run : List (Query × Nat)) : List (Query × Nat) :=
  if Satisfied entries run then run else run.filter (·.1.kind = .strategy)

/-- The queries that need an answer, in their order. -/
def needed (queries : List Query) : List (Query × Nat) := (runs queries).flatMap (neededOf entries)

/-- The value is the first match in the body for the query of a kind, and there is none without such
a query. -/
def Reports (At : List Char → List Char × List Char → Prop) (run : List (Query × Nat))
    (kind : QueryKind) (value : Option (Binary64 × Binary64)) : Prop :=
  (∀ p ∈ run, p.1.kind = kind → ∃ e ∈ entries, e.formula = p.2 ∧
    ∃ x, ValuesIn At e.body.toList x ∧ value = some x) ∧
  ((∀ p ∈ run, p.1.kind ≠ kind) → value = none)

/-- The result is what the report says about the strategy of the run. -/
structure Faithful (run : List (Query × Nat)) (r : StrategyResult) : Prop where
  strategy : ∀ p ∈ run, r.strategy = p.1.strategy
  satisfied : r.satisfied ↔ Satisfied entries run
  unknown : ¬ Satisfied entries run → r = .unknown r.strategy
  time : Satisfied entries run →
    Reports entries EstimateAt run .expectedTime (r.expectedTime.map Estimate.pair)
  cost : Satisfied entries run →
    Reports entries EstimateAt run .expectedCost (r.expectedCost.map Estimate.pair)
  probability : Satisfied entries run →
    Reports entries IntervalAt run .successProbability r.successProbability

end

/-! ## One run -/

section

variable {entries : List Entry} {run tail : List (Query × Nat)} {p : Query × Nat}
  {r r' : StrategyResult} {e : Entry} {kind : QueryKind}
  {At : List Char → List Char × List Char → Prop} {value value' : Option (Binary64 × Binary64)}

theorem satisfied_append (htail : ∀ p ∈ tail, p.1.kind ≠ .strategy) :
    Satisfied entries (run ++ tail) ↔ Satisfied entries run := by
  constructor
  · rintro ⟨q, hq, hkind, h⟩
    rcases List.mem_append.1 hq with hq | hq
    · exact ⟨q, hq, hkind, h⟩
    · exact absurd hkind (htail q hq)
  · rintro ⟨q, hq, h⟩
    exact ⟨q, List.mem_append_left _ hq, h⟩

/-- Nothing is reported for a kind that the run does not have. -/
theorem Reports.of_none (h : ∀ p ∈ run, p.1.kind ≠ kind) (hvalue : value = none) :
    Reports entries At run kind value :=
  ⟨fun p hp hkind => absurd hkind (h p hp), fun _ => hvalue⟩

/-- What is reported after one more query: the same for another kind, the answer for its kind. -/
theorem Reports.concat (h : Reports entries At run kind value)
    (hother : p.1.kind ≠ kind → value' = value)
    (hkind : p.1.kind = kind → (∀ q ∈ run, q.1.kind ≠ kind) ∧ ∃ e ∈ entries, e.formula = p.2 ∧
      ∃ x, ValuesIn At e.body.toList x ∧ value' = some x) :
    Reports entries At (run ++ [p]) kind value' := by
  by_cases hp : p.1.kind = kind
  · obtain ⟨hfresh, hanswer⟩ := hkind hp
    refine ⟨fun q hq hq' => ?_, fun hnot => absurd hp (hnot p (by simp))⟩
    rcases List.mem_append.1 hq with hq | hq
    · exact absurd hq' (hfresh q hq)
    · rw [List.mem_singleton.1 hq]
      exact hanswer
  · obtain rfl := hother hp
    refine ⟨fun q hq hq' => ?_, fun hnot => h.2 fun q hq => hnot q (List.mem_append_left _ hq)⟩
    rcases List.mem_append.1 hq with hq | hq
    · exact h.1 q hq hq'
    · exact absurd (List.mem_singleton.1 hq ▸ hq') hp

/-- **One more answer.** -/
theorem Faithful.concat (h : Faithful entries run r) (hsat : Satisfied entries run)
    (hstrategy : r.strategy = p.1.strategy) (hfresh : ∀ q ∈ run, q.1.kind ≠ p.1.kind)
    (he : e ∈ entries) (hp : e.formula = p.2) (hadds : e.Adds r p.1.kind r') :
    Faithful entries (run ++ [p]) r' := by
  have hkind : p.1.kind ≠ .strategy := by
    obtain ⟨q, hq, hq', -⟩ := hsat
    exact fun hp => hfresh q hq (hq'.trans hp.symm)
  have hconcat : Satisfied entries (run ++ [p]) ↔ Satisfied entries run :=
    satisfied_append (by simpa using hkind)
  have hall : ∀ q ∈ run ++ [p], r'.strategy = q.1.strategy := by
    intro q hq
    rw [hadds.strategy]
    rcases List.mem_append.1 hq with hq | hq
    · exact h.strategy q hq
    · rw [List.mem_singleton.1 hq, hstrategy]
  have hfound := hadds.satisfied
  rw [if_neg hkind, h.satisfied, ← hconcat] at hfound
  have hanswer {kind : QueryKind} (hk : p.1.kind = kind) : ∀ q ∈ run, q.1.kind ≠ kind := hk ▸ hfresh
  exact ⟨hall, hfound, fun hnot => absurd (hconcat.2 hsat) hnot,
    fun _ => (h.time hsat).concat hadds.time.1 fun hk => ⟨hanswer hk, e, he, hp, hadds.time.2 hk⟩,
    fun _ => (h.cost hsat).concat hadds.cost.1 fun hk => ⟨hanswer hk, e, he, hp, hadds.cost.2 hk⟩,
    fun _ => (h.probability hsat).concat hadds.probability.1
      fun hk => ⟨hanswer hk, e, he, hp, hadds.probability.2 hk⟩⟩

/-- The answer to a numbered query. -/
def ask (entries : List Entry) (r : StrategyResult) (p : Query × Nat) : Except Fault StrategyResult :=
  answer (entries.map Entry.block) r p.2 p.1

/-- The queries behind those that were answered, if the strategy was found. -/
theorem settles_tail (hsat : Satisfied entries run) (hrun : Faithful entries run r)
    (hstrategy : ∀ p ∈ tail, r.strategy = p.1.strategy)
    (hnodup : ((run ++ tail).map (·.1.kind)).Nodup) :
    Settles entries tail (tail.foldlM (ask entries) r) (Faithful entries (run ++ tail)) := by
  induction tail generalizing run r with
  | nil => exact settles_ok (List.forall_mem_nil _) (by simpa using hrun)
  | cons p tail ih =>
    rw [List.forall_mem_cons] at hstrategy
    have hfresh : ∀ q ∈ run, q.1.kind ≠ p.1.kind := by
      rw [List.map_append, List.map_cons, List.nodup_append] at hnodup
      exact fun q hq => hnodup.2.2 q.1.kind (List.mem_map_of_mem hq) p.1.kind List.mem_cons_self
    have hkind : p.1.kind ≠ .strategy := by
      obtain ⟨q, hq, hq', -⟩ := hsat
      exact fun hp => hfresh q hq (hq'.trans hp.symm)
    rw [List.foldlM_cons, ← List.singleton_append]
    refine (settles_answer (.inr (hrun.satisfied.2 hsat))).bind ?_
    rintro r' ⟨e, he, hp, hadds⟩
    rw [List.append_cons] at hnodup
    rw [← List.append_assoc]
    refine ih ((satisfied_append (by simpa using hkind)).2 hsat)
      (hrun.concat hsat hstrategy.1 hfresh he hp hadds) (fun q hq => ?_) hnodup
    rw [hadds.strategy]
    exact hstrategy.2 q hq

/-- Of a strategy that was not found nothing more is asked. -/
theorem foldlM_ask_of_not_satisfied (hr : r.satisfied = false)
    (hkind : ∀ p ∈ tail, p.1.kind ≠ .strategy) : tail.foldlM (ask entries) r = .ok r := by
  induction tail with
  | nil => rfl
  | cons p tail ih =>
    rw [List.forall_mem_cons] at hkind
    rw [List.foldlM_cons, ask, answer_of_not_satisfied hkind.1 hr]
    exact ih hkind.2

/-- The answer to the query that learns the strategy. -/
theorem settles_head (hentries : (entries.map Entry.formula).Nodup) (hkind : p.1.kind = .strategy) :
    Settles entries [p] (ask entries (.unknown p.1.strategy) p) (Faithful entries [p]) := by
  refine (settles_answer (.inl hkind)).imp ?_
  rintro r ⟨e, he, hp, hadds⟩
  rw [hkind] at hadds
  have hsat : r.satisfied ↔ Satisfied entries [p] := by
    rw [hadds.satisfied, if_pos rfl]
    constructor
    · exact fun h => ⟨p, List.mem_singleton_self p, hkind, e, he, hp, h⟩
    · rintro ⟨q, hq, -, e', he', hq', h⟩
      obtain rfl := List.mem_singleton.1 hq
      rwa [eq_of_formula_eq hentries he he' (hp.trans hq'.symm)]
  have htime : r.expectedTime.map Estimate.pair = none := hadds.time.1 nofun
  have hcost : r.expectedCost.map Estimate.pair = none := hadds.cost.1 nofun
  have hprobability : r.successProbability = none := hadds.probability.1 nofun
  have hother {kind : QueryKind} (h : QueryKind.strategy ≠ kind) : ∀ q ∈ [p], q.1.kind ≠ kind := by
    simpa [hkind] using h
  refine ⟨fun q hq => ?_, hsat, fun hnot => ?_, fun _ => .of_none (hother nofun) htime,
    fun _ => .of_none (hother nofun) hcost, fun _ => .of_none (hother nofun) hprobability⟩
  · rw [List.mem_singleton.1 hq]
    exact hadds.strategy
  have hfound : r.satisfied = false := Bool.eq_false_iff.2 fun h => hnot (hsat.1 h)
  obtain ⟨strategy, satisfied, time, cost, probability⟩ := r
  rw [Option.map_eq_none_iff] at htime hcost
  subst hfound htime hcost hprobability
  rfl

/-- **A run is answered as far as it is needed.** -/
theorem settles_run (hentries : (entries.map Entry.formula).Nodup) (hkind : p.1.kind = .strategy)
    (hstrategy : ∀ q ∈ tail, p.1.strategy = q.1.strategy)
    (hnodup : ((p :: tail).map (·.1.kind)).Nodup) :
    Settles entries (neededOf entries (p :: tail))
      ((p :: tail).foldlM (ask entries) (.unknown p.1.strategy)) (Faithful entries (p :: tail)) := by
  have htail : ∀ q ∈ tail, q.1.kind ≠ .strategy := by
    rw [List.map_cons, List.nodup_cons, hkind] at hnodup
    exact fun q hq h => hnodup.1 (h ▸ List.mem_map_of_mem hq)
  have hsat : Satisfied entries ([p] ++ tail) ↔ Satisfied entries [p] := satisfied_append htail
  rw [List.foldlM_cons]
  by_cases h : Satisfied entries (p :: tail)
  · rw [neededOf, if_pos h, ← List.singleton_append]
    refine (settles_head hentries hkind).bind fun r hr => ?_
    refine settles_tail (hsat.1 h) hr (fun q hq => ?_) hnodup
    rw [hr.strategy p List.mem_cons_self, hstrategy q hq]
  · have hneeded : neededOf entries (p :: tail) = [p] ++ [] := by
      rw [neededOf, if_neg h, List.filter_cons_of_pos (by simpa using hkind),
        List.filter_eq_nil_iff.2 (by simpa using htail)]
      rfl
    rw [hneeded]
    refine (settles_head hentries hkind).bind fun r hr => ?_
    have hfound : r.satisfied = false :=
      Bool.eq_false_iff.2 fun hr' => h (hsat.2 (hr.satisfied.1 hr'))
    rw [foldlM_ask_of_not_satisfied hfound htail]
    refine settles_ok (List.forall_mem_nil _)
      ⟨fun q hq => ?_, ?_, fun _ => hr.unknown (hsat.not.1 h), fun h' => absurd h' h,
        fun h' => absurd h' h, fun h' => absurd h' h⟩
    · rw [hr.strategy p List.mem_cons_self]
      rcases List.mem_cons.1 hq with rfl | hq
      · rfl
      · exact hstrategy q hq
    · exact hr.satisfied.trans hsat.symm

/-! ## All runs -/

variable {done : List StrategyResult}

/-- One more query, on the results so far. -/
def advance (entries : List Entry) (done : List StrategyResult) (p : Query × Nat) :
    Except Fault (List StrategyResult) :=
  match done with
  | r :: earlier =>
    if r.strategy = p.1.strategy then (ask entries r p).map (· :: earlier)
    else (ask entries (.unknown p.1.strategy) p).map (· :: done)
  | [] => (ask entries (.unknown p.1.strategy) p).map (· :: [])

theorem answers_eq_foldlM (done : List StrategyResult) (k : Nat) (queries : List Query) :
    answers (entries.map Entry.block) done k queries =
      ((queries.zipIdx k).foldlM (advance entries) done).map List.reverse := by
  have hmap (x : Except Fault StrategyResult) (earlier : List StrategyResult) (k : Nat)
      (queries : List Query) :
      (x >>= fun r => answers (entries.map Entry.block) (r :: earlier) k queries) =
        x.map (· :: earlier) >>= fun done => answers (entries.map Entry.block) done k queries := by
    cases x <;> rfl
  have hbind (x : Except Fault (List StrategyResult))
      (next : List StrategyResult → Except Fault (List StrategyResult)) :
      (x >>= next).map List.reverse = x >>= fun done => (next done).map List.reverse := by
    cases x <;> rfl
  induction queries generalizing done k with
  | nil => rfl
  | cons q queries ih =>
    rw [List.zipIdx_cons, List.foldlM_cons, hbind]
    simp only [answers, advance, ← ih]
    cases done with
    | nil => exact hmap (ask entries (.unknown q.strategy) (q, k)) [] (k + 1) queries
    | cons r earlier =>
      by_cases h : r.strategy = q.strategy
      · simp only [if_pos h]
        exact hmap (ask entries r (q, k)) earlier (k + 1) queries
      · simp only [if_neg h]
        exact hmap (ask entries (.unknown q.strategy) (q, k)) (r :: earlier) (k + 1) queries

theorem strategy_of_ask (h : ask entries r p = .ok r') : r'.strategy = r.strategy := by
  by_cases hasked : p.1.kind = .strategy ∨ r.satisfied
  · obtain ⟨-, e, -, -, hadds⟩ := (settles_answer hasked).of_ok r' h
    exact hadds.strategy
  · rw [not_or, Bool.not_eq_true] at hasked
    rw [ask, answer_of_not_satisfied hasked.1 hasked.2] at h
    cases h
    rfl

theorem advance_of_ne (h : ∀ r ∈ done.head?, r.strategy ≠ p.1.strategy) :
    advance entries done p = (ask entries (.unknown p.1.strategy) p).map (· :: done) := by
  cases done with
  | nil => rfl
  | cons r earlier => rw [advance, if_neg (h r rfl)]

/-- Queries of the strategy of the last result extend it. -/
theorem foldlM_advance (hstrategy : ∀ p ∈ tail, r.strategy = p.1.strategy) :
    tail.foldlM (advance entries) (r :: done) =
      (tail.foldlM (ask entries) r).map (· :: done) := by
  induction tail generalizing r with
  | nil => rfl
  | cons p tail ih =>
    rw [List.forall_mem_cons] at hstrategy
    rw [List.foldlM_cons, List.foldlM_cons, advance, if_pos hstrategy.1]
    cases h : ask entries r p with
    | error f => rfl
    | ok r' => exact ih fun q hq => (strategy_of_ask h).trans (hstrategy.2 q hq)

/-- The queries of another strategy make a new result. -/
theorem foldlM_advance_run (hdone : ∀ r ∈ done.head?, r.strategy ≠ p.1.strategy)
    (hstrategy : ∀ q ∈ tail, p.1.strategy = q.1.strategy) :
    (p :: tail).foldlM (advance entries) done =
      ((p :: tail).foldlM (ask entries) (.unknown p.1.strategy)).map (· :: done) := by
  rw [List.foldlM_cons, List.foldlM_cons, advance_of_ne hdone]
  cases h : ask entries (.unknown p.1.strategy) p with
  | error f => rfl
  | ok r => exact foldlM_advance fun q hq => (strategy_of_ask h).trans (hstrategy q hq)

/-- A run of queries as a report is asked about them. -/
structure IsRun (run : List (Query × Nat)) : Prop where
  leads : ∃ p rest, run = p :: rest ∧ p.1.kind = .strategy
  nodup : (run.map (·.1.kind)).Nodup
  strategy_eq : ∀ p ∈ run, ∀ q ∈ run, p.1.strategy = q.1.strategy

/-- **Every run has its result, up to the first query without a needed answer.** -/
theorem settles_runs {rs : List (List (Query × Nat))}
    (hentries : (entries.map Entry.formula).Nodup) (hruns : ∀ run ∈ rs, IsRun run)
    (hchain : rs.IsChain fun run run' => ∀ p ∈ run, ∀ q ∈ run', p.1.strategy ≠ q.1.strategy)
    (hdone : ∀ r ∈ done.head?, ∀ run ∈ rs.head?, ∀ p ∈ run, r.strategy ≠ p.1.strategy) :
    Settles entries (rs.flatMap (neededOf entries)) (rs.flatten.foldlM (advance entries) done)
      fun out => ∃ new, out = new.reverse ++ done ∧ List.Forall₂ (Faithful entries) rs new := by
  induction rs generalizing done with
  | nil => exact settles_ok (List.forall_mem_nil _) ⟨[], rfl, .nil⟩
  | cons run rs ih =>
    rw [List.forall_mem_cons] at hruns
    obtain ⟨⟨p, tail, rfl, hkind⟩, hnodup, hstrategy⟩ := hruns.1
    have hsame : ∀ q ∈ tail, p.1.strategy = q.1.strategy :=
      fun q hq => hstrategy p List.mem_cons_self q (List.mem_cons_of_mem p hq)
    rw [List.flatMap_cons, List.flatten_cons, List.foldlM_append,
      foldlM_advance_run (fun r hr => hdone r hr _ rfl p List.mem_cons_self) hsame]
    have hrun := (settles_run hentries hkind hsame hnodup).map
      (Q := fun out => ∃ r, out = r :: done ∧ Faithful entries (p :: tail) r)
      fun r hr => ⟨r, rfl, hr⟩
    refine hrun.bind ?_
    rintro _ ⟨r, rfl, hr⟩
    have hnext : ∀ r' ∈ (r :: done).head?, ∀ run ∈ rs.head?, ∀ q ∈ run,
        r'.strategy ≠ q.1.strategy := by
      rintro r' hr' run hrun q hq
      obtain rfl : r = r' := Option.some.inj hr'
      rw [hr.strategy p List.mem_cons_self]
      exact hchain.rel_head? hrun p List.mem_cons_self q hq
    refine (ih hruns.2 hchain.tail hnext).imp ?_
    rintro _ ⟨new, rfl, hnew⟩
    exact ⟨r :: new, by simp, .cons hr hnew⟩

end

/-- **A report is read back faithfully.**  The queries of models are well posed; and of a report with
entries for some formulas in some order, with any text around, either every strategy has its result,
or the first query without a needed answer is the fault.  It is exactly then. -/
theorem readReport_faithful {preamble : String} {entries : List Entry} {queries : List Query}
    (hreport : ReportOf preamble entries) (hqueries : WellPosed queries) :
    (∀ m : Model, WellPosed m.queries) ∧
      Settles entries (needed entries queries) (readReport (report preamble entries) queries)
        (List.Forall₂ (Faithful entries) (runs queries)) ∧
      ∀ f, readReport (report preamble entries) queries = .error f ↔
        ∃ before p after, needed entries queries = before ++ p :: after ∧
          (∀ q ∈ before, Answered entries q) ∧ Unanswered entries p f := by
  suffices hsettles : Settles entries (needed entries queries)
      (readReport (report preamble entries) queries)
      (List.Forall₂ (Faithful entries) (runs queries)) from
    ⟨wellPosed_queries, hsettles, fun f => hsettles.eq_error_iff hreport.nodup⟩
  have hruns : ∀ run ∈ runs queries, IsRun run := fun run hrun =>
    ⟨hqueries.leads run hrun, hqueries.nodup run hrun,
      fun p hp q hq => strategy_eq_of_mem_runs hrun hp hq⟩
  have hflatten : (runs queries).flatten = queries.zipIdx 1 := List.flatten_splitBy _ _
  rw [readReport, blocks_report hreport, answers_eq_foldlM, ← hflatten]
  refine (settles_runs hreport.nodup hruns (isChain_runs queries) (by simp)).map ?_
  rintro _ ⟨new, rfl, hnew⟩
  simpa using hnew

theorem not_hasHeader_of_word {text : String} (h : ¬ headerWord.toList <:+: text.toList) :
    ¬ HasHeader text := by
  rintro ⟨s, d, t, htext, -⟩
  exact h ⟨s, d :: t, by simpa using htext.symm⟩

/-- Queries about two strategies. -/
def cheapAndFast : List Query :=
  [⟨"cheap", .strategy, "", ""⟩, ⟨"cheap", .expectedTime, "", ""⟩, ⟨"fast", .strategy, "", ""⟩,
    ⟨"fast", .successProbability, "", ""⟩]

/-- One strategy is found and one is not; the entries do not stand in the order of the queries. -/
def cheapNotFast : List Entry :=
  [⟨3, " -- Formula is NOT satisfied."⟩, ⟨1, " -- Formula is satisfied."⟩,
    ⟨2, ": E(max) ≈ 186.215 ± 2.11387 (95% CI)"⟩]

/-- What is read: the time of the strategy that was found, and nothing of the other one. -/
def cheapResults : List StrategyResult :=
  [⟨"cheap", true, some ⟨⟨0x406746e147ae147b⟩, ⟨0x4000e934acaff6d3⟩⟩, none, none⟩,
    ⟨"fast", false, none, none, none⟩]

/-- The estimate is read as the doubles next to 186.215 and 2.11387. -/
theorem readReport_faithful_cheap :
    ReportOf "Options" cheapNotFast ∧ WellPosed cheapAndFast ∧
      readReport (report "Options" cheapNotFast) cheapAndFast = .ok cheapResults ∧
      (∀ p ∈ needed cheapNotFast cheapAndFast, Answered cheapNotFast p) ∧
      List.Forall₂ (Faithful cheapNotFast) (runs cheapAndFast) cheapResults := by
  have hreport : ReportOf "Options" cheapNotFast := by
    refine ⟨?_, by decide, by decide, ?_, ?_, by decide⟩
    · simp only [report, cheapNotFast, List.map_cons, List.map_nil, String.join_cons,
        String.join_nil, Entry.text, String.toList_append, header_toList]
      decide
    · exact not_hasHeader_of_word (by decide)
    · simp only [cheapNotFast, List.forall_mem_cons]
      exact ⟨not_hasHeader_of_word (by decide +kernel),
        not_hasHeader_of_word (by decide +kernel),
        not_hasHeader_of_word (by decide +kernel), by simp⟩
  have hqueries : WellPosed cheapAndFast := by
    constructor <;> simp [cheapAndFast, runs, numbered, List.splitBy, List.splitBy.loop]
  have hread : readReport (report "Options" cheapNotFast) cheapAndFast = .ok cheapResults := by
    rw [readReport, blocks_report hreport]
    decide +kernel
  obtain ⟨_, hsettles, _⟩ := readReport_faithful hreport hqueries
  exact ⟨hreport, hqueries, hread, hsettles.of_ok _ hread⟩

end AttackDefense.Checker
