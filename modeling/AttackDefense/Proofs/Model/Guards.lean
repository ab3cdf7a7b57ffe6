import AttackDefense.Model.Declaration
import AttackDefense.Model.Template
import AttackDefense.Proofs.Automaton.Reachable
import AttackDefense.Proofs.Graph.Followers
import Mathlib.Data.Real.Basic
import Mathlib.Tactic.NormNum

/-!
# Guards let time go on

While the attacker waits, the invariant of the location keeps the clocks of all defenses and of the
attacks underway within their durations.  When one of these clocks has reached its duration, time
cannot pass, so something has to be possible.  An attack that is due may always finish.  A defense
that is due waits for those of its followers that are due, and they stand behind it:

    g.defenses = before ++ d :: later, d is due, nothing in later is →
      (m.defenseGuard d).Holds m x                                          (holds_defenseGuard)

So the last of the defenses that are due may act.  The order of the defenses is all that this needs;
the durations may be any, also after periods have been overridden.  They are the constants that the
model declares (`mem_declared_duration`).
-/

namespace AttackDefense.Model

open AttackDefense.Graph Automaton

variable {m model : Model}

/-! ## Overriding periods -/

/-- A call that is refused overrides nothing. -/
theorem safe_periodCall (name : String) (period : UInt32) : (periodCall name period).Safe := by
  unfold periodCall
  refine Call.quiet_get.bind_safe fun m => ?_
  cases m.graph.tree.find? name with
  | none => exact (Call.quiet_throw _).safe
  | some d =>
    refine (Call.quiet_check _).bind_safe fun _ => (Call.quiet_demand _ _).bind_safe fun _ => ?_
    exact (Call.quiet_demand _ _).bind_safe fun _ => (Call.certain_set _).safe

theorem setPeriod_eq_ok {name : String} {period : UInt32} :
    m.setPeriod name period = .ok model ↔ ∃ d, m.graph.tree.find? name = some d ∧
      m.graph.tree.isDefense d ∧ d ∈ m.graph.defenses ∧ period ≠ 0 ∧
      { m with periods := m.periods.insert d period } = model := by
  unfold setPeriod periodCall
  rw [map_eq_ok, Call.outcome_get_bind]
  cases m.graph.tree.find? name with
  | none => exact ⟨nofun, nofun⟩
  | some d =>
    have hwrite (model : Model) :
        (set model : Call Fault Model Unit).outcome m = .ok (model, ()) := rfl
    have hdefense : (∃ x, m.graph.tree.expectDefense d = .ok x) ↔ m.graph.tree.isDefense d := by
      simp only [Tree.expectDefense_eq_ok, Tree.isDefense, Option.isSome_iff_exists]
    simp only [Option.some.injEq, exists_eq_left', Call.outcome_check_bind, bind_eq_ok,
      Call.outcome_demand_bind_eq_ok, hwrite, Except.ok.injEq, exists_and_right, hdefense]
    constructor
    · rintro ⟨r, ⟨hd, hlisted, hperiod, rfl⟩, rfl⟩
      exact ⟨hd, hlisted, hperiod, rfl⟩
    · rintro ⟨hd, hlisted, hperiod, rfl⟩
      exact ⟨_, ⟨hd, hlisted, hperiod, rfl⟩, rfl⟩

/-- The second model arises from the first by overriding periods. -/
inductive Overridden (m : Model) : Model → Prop
  | refl : Overridden m m
  | set {m₁ m₂ : Model} {name : String} {period : UInt32} : Overridden m m₁ →
    m₁.setPeriod name period = .ok m₂ → Overridden m m₂

theorem Overridden.automaton_eq (h : m.Overridden model) : model.automaton = m.automaton := by
  induction h with
  | refl => rfl
  | set _ hset ih =>
    obtain ⟨_, _, _, _, _, rfl⟩ := setPeriod_eq_ok.1 hset
    exact ih

theorem Overridden.settings_eq (h : m.Overridden model) : model.settings = m.settings := by
  induction h with
  | refl => rfl
  | set _ hset ih =>
    obtain ⟨_, _, _, _, _, rfl⟩ := setPeriod_eq_ok.1 hset
    exact ih

/-! ## Durations -/

/-- The completion time of the attack of a name, or the period in the model of the defense of it. -/
def durationOf (m : Model) (name : String) : Nat :=
  match m.graph.tree.find? name with
  | none => 0
  | some id =>
    match m.graph.tree.attack? id with
    | some a => a.completionTime.toNat
    | none => (m.period id).toNat

theorem durationOf_attack (hg : m.graph.Sound) {id : NodeId} {a : Attack}
    (h : m.graph.tree.attack? id = some a) : m.durationOf a.name = a.completionTime.toNat := by
  have hfind : m.graph.tree.find? a.name = some id :=
    (hg.tree.find?_iff _ _).2 ⟨_, Tree.attack?_eq_some.1 h, rfl⟩
  unfold durationOf
  rw [hfind]
  dsimp only
  rw [h]

theorem durationOf_defense (hg : m.graph.Sound) {id : NodeId} {d : Defense}
    (h : m.graph.tree.defense? id = some d) : m.durationOf d.name = (m.period id).toNat := by
  have hnode : m.graph.tree.node? id = some (.defense d) := Tree.defense?_eq_some.1 h
  have hfind : m.graph.tree.find? d.name = some id := (hg.tree.find?_iff _ _).2 ⟨_, hnode, rfl⟩
  have hattack : m.graph.tree.attack? id = none := by
    rw [Tree.attack?, hnode]
    rfl
  unfold durationOf
  rw [hfind]
  dsimp only
  rw [hattack]

/-- The second line of a section of nodes declares the durations. -/
theorem mem_declared {first second : Line} {rest : Section} {item : Item}
    (h : first :: second :: rest ∈ m.sections) (hi : item ∈ second.items) : item ∈ m.declared :=
  List.mem_flatMap.2
    ⟨second, List.mem_flatten.2 ⟨_, h, List.mem_cons_of_mem _ List.mem_cons_self⟩, hi⟩

/-- The durations of all attacks and defenses are declared. -/
theorem mem_declared_duration (hg : m.graph.Sound) {id : NodeId}
    (h : id ∈ m.graph.attacks ++ m.graph.defenses) :
    .constant (.duration (m.graph.name id)) (toString (m.durationOf (m.graph.name id))) ∈
      m.declared := by
  rcases List.mem_append.1 h with h | h
  · obtain ⟨a, ha⟩ := Tree.isAttack_iff.1 (hg.mem_attacks.1 h).2
    have hattack := Tree.attack?_eq_some.2 ha
    have hname : m.graph.name id = a.name := by simp [Graph.name, Tree.name, ha, Node.name]
    have hmem : a ∈ m.graph.attacks.filterMap m.graph.tree.attack? :=
      List.mem_filterMap.2 ⟨id, h, hattack⟩
    have hsection : attackSection (m.graph.attacks.filterMap m.graph.tree.attack?) ∈
        m.sections := by
      apply List.mem_append_left
      apply List.mem_append_right
      rw [if_neg fun hnil => List.ne_nil_of_mem hmem (List.isEmpty_iff.1 hnil)]
      exact List.mem_singleton.2 rfl
    rw [hname, durationOf_attack hg hattack]
    exact mem_declared hsection (List.mem_map.2 ⟨_, List.mem_map.2 ⟨a, hmem, rfl⟩, rfl⟩)
  · obtain ⟨d, hd⟩ := Tree.isDefense_iff.1 (hg.isDefense_of_mem_defenses h)
    have hdefense := Tree.defense?_eq_some.2 hd
    have hname : m.graph.name id = d.name := by simp [Graph.name, Tree.name, hd, Node.name]
    have hmem : (d, m.period id) ∈ m.graph.defenses.filterMap fun id =>
        (m.graph.tree.defense? id).map fun defense => (defense, m.period id) :=
      List.mem_filterMap.2 ⟨id, h, by rw [hdefense]; rfl⟩
    have hsection : defenseSection (m.graph.defenses.filterMap fun id =>
        (m.graph.tree.defense? id).map fun defense => (defense, m.period id)) ∈ m.sections := by
      apply List.mem_append_right
      rw [if_neg fun hnil => List.ne_nil_of_mem hmem (List.isEmpty_iff.1 hnil)]
      exact List.mem_singleton.2 rfl
    rw [hname, durationOf_defense hg hdefense]
    exact mem_declared hsection (List.mem_map.2 ⟨_, List.mem_map.2 ⟨_, hmem, rfl⟩, rfl⟩)

/-! ## What conditions mean -/

/-- The condition holds when the clocks show `x`. -/
def Guard.Atom.Holds (m : Model) (x : Clock → ℝ) : Guard.Atom → Prop
  | .due node => m.durationOf node ≤ x (.of node)
  | .notDue node => x (.of node) < m.durationOf node
  | .paid => 1 ≤ x .payment

def Guard.Holds (m : Model) (x : Clock → ℝ) (guard : Guard) : Prop :=
  ∀ atom ∈ guard, atom.Holds m x

/-- The condition holds when the clocks show `x`.  How fast a clock runs does not depend on what the
clocks show. -/
def Invariant.Conjunct.Holds (m : Model) (x : Clock → ℝ) : Invariant.Conjunct → Prop
  | .notPast node => x (.of node) ≤ m.durationOf node
  | .unpaid => x .payment ≤ 1
  | .stopped _ | .costRate _ => True

def Invariant.Holds (m : Model) (x : Clock → ℝ) (i : Invariant) : Prop :=
  ∀ conjunct ∈ i.conjuncts, conjunct.Holds m x

/-- In a waiting state the invariant is about the clocks of all defenses and of the attacks that are
underway. -/
theorem holds_invariant_iff {s : State} (hphase : s.phase = .waiting) (haccepting : ¬ s.accepting)
    {x : Clock → ℝ} : (m.invariant s).Holds m x ↔ ∀ id ∈ m.graph.defenses ++ s.key.activated,
      x (.of (m.graph.name id)) ≤ m.durationOf (m.graph.name id) := by
  unfold invariant
  dsimp only
  rw [if_neg haccepting, hphase]
  simp [Invariant.Holds, Invariant.Conjunct.Holds, or_imp, forall_and]

/-! ## The last defense that is due -/

/-- A node is due when its clock has reached its duration. -/
def Due (m : Model) (x : Clock → ℝ) (id : NodeId) : Prop :=
  m.durationOf (m.graph.name id) ≤ x (.of (m.graph.name id))

/-- Of the members of a list with some property there is a last one. -/
theorem exists_last {α : Type} {p : α → Prop} {l : List α} (h : ∃ a ∈ l, p a) :
    ∃ before a later, l = before ++ a :: later ∧ p a ∧ ∀ b ∈ later, ¬ p b := by
  induction l with
  | nil => simp at h
  | cons a l ih =>
    by_cases hl : ∃ b ∈ l, p b
    · obtain ⟨before, b, later, rfl, hb, hlater⟩ := ih hl
      exact ⟨a :: before, b, later, rfl, hb, hlater⟩
    · obtain ⟨b, hb, hp⟩ := h
      rcases List.mem_cons.1 hb with rfl | hb
      · exact ⟨[], b, l, rfl, hp, fun c hc hpc => hl ⟨c, hc, hpc⟩⟩
      · exact absurd ⟨b, hb, hp⟩ hl

theorem holds_defenseGuard (hg : m.graph.Built) {before later : List NodeId} {d : NodeId}
    (hd : m.graph.defenses = before ++ d :: later) {x : Clock → ℝ} (hdue : m.Due x d)
    (hlater : ∀ f ∈ later, ¬ m.Due x f) : (m.defenseGuard d).Holds m x := by
  intro atom hatom
  unfold defenseGuard at hatom
  rcases List.mem_cons.1 hatom with rfl | hatom
  · exact hdue
  · obtain ⟨f, hf, rfl⟩ := List.mem_map.1 hatom
    rw [hg.followers_eq hd] at hf
    exact not_le.1 (hlater f (List.mem_filter.1 hf).1)

/-! ## Waiting states -/

/-- An attack waits for its own clock, and that is the only guard at its transition. -/
theorem guard_mem_labels_finish {source : Phase} {a : NodeId} {guard : Guard} :
    .guard guard ∈ (m.labels source (.finish a)).1 ↔ guard = [.due (m.graph.name a)] := by
  simp [labels]

/-- A defense waits for its own clock and for its followers, whether it has anything to strike or
not. -/
theorem guard_mem_labels_defense {source : Phase} {d : NodeId} {guard : Guard} {move : Move}
    (hmove : move = .strike d ∨ move = .idle d) :
    .guard guard ∈ (m.labels source move).1 ↔ guard = m.defenseGuard d := by
  rcases hmove with rfl | rfl
  all_goals simp [labels]

/-- An edge leaves the state at which an attack that is underway finishes or a defense acts.  Only
one guard stands at its transition, that of the attack or of the defense, and it holds. -/
def Enabled (m : Model) (x : Clock → ℝ) (i : StateId) (s : State) : Prop :=
  ∃ e ∈ m.automaton.edges.toList, e.source = i ∧ ∃ guard : Guard,
    ((∃ a ∈ s.key.activated, e.move = .finish a ∧ guard = [.due (m.graph.name a)]) ∨
      ∃ d ∈ m.graph.defenses, (e.move = .strike d ∨ e.move = .idle d) ∧
        guard = m.defenseGuard d) ∧
    (∀ u, .guard u ∈ (m.labels s.phase e.move).1 ↔ u = guard) ∧ guard.Holds m x

section

variable {i : StateId} {s : State} {x : Clock → ℝ} (hm : m.automaton.Unfolds m.graph)
  (hs : m.automaton.state? i = some s) (hphase : s.phase = .waiting)

include hm hs hphase

/-- Each move of the waiting state has an edge. -/
theorem exists_edge_of_mem_moves {e : Move × Option (Phase × Configuration)}
    (he : e ∈ m.graph.moves .waiting s.configuration) :
    ∃ edge ∈ m.automaton.edges.toList, edge.source = i ∧ edge.move = e.1 := by
  obtain ⟨edge, hedge, hsource, hmove, _⟩ :=
    exists_of_mem_right (hm.rows i s hs) (hphase.symm ▸ he)
  refine ⟨edge, ?_, hsource, hmove⟩
  rw [← hm.edges]
  exact List.mem_flatMap.2 ⟨i, List.mem_range.2 (StateTable.lt_size_of_get? hs), hedge⟩

/-- If defenses are due, the last of them may act. -/
theorem enabled_of_due_defense (hg : m.graph.Built) (hdue : ∃ d ∈ m.graph.defenses, m.Due x d) :
    m.Enabled x i s := by
  obtain ⟨before, d, later, hd, hdue, hlater⟩ := exists_last hdue
  have hmem : d ∈ m.graph.defenses := by simp [hd]
  obtain ⟨e, he, hsource, hmove⟩ :=
    exists_edge_of_mem_moves hm hs hphase (mem_moves_waiting.2 (.inr ⟨d, hmem, rfl⟩))
  have hacts : e.move = .strike d ∨ e.move = .idle d := by
    rw [hmove]
    unfold strikeMove
    split <;> simp
  exact ⟨e, he, hsource, m.defenseGuard d, .inr ⟨d, hmem, hacts, rfl⟩,
    fun _ => guard_mem_labels_defense hacts, holds_defenseGuard hg hd hdue hlater⟩

/-- An attack that is due may finish. -/
theorem enabled_of_due_attack {a : NodeId} (ha : a ∈ m.graph.attacks)
    (hunderway : a ∈ s.key.activated) (hdue : m.Due x a) : m.Enabled x i s := by
  obtain ⟨e, he, hsource, hmove⟩ := exists_edge_of_mem_moves hm hs hphase
    (mem_moves_waiting.2 (.inl ⟨a, ha, NodeSet.mem_ofList.2 hunderway, rfl⟩))
  refine ⟨e, he, hsource, [.due (m.graph.name a)], .inl ⟨a, hunderway, hmove, rfl⟩,
    fun _ => hmove ▸ guard_mem_labels_finish, ?_⟩
  intro atom hatom
  obtain rfl := List.mem_singleton.1 hatom
  exact hdue

end

end AttackDefense.Model

namespace AttackDefense.Automaton

open AttackDefense.Graph Model

variable {g : Graph} {m : Automaton} {model : Model}

/-- **Guards never block time.**  Take an automaton, a model of it in which any periods have been
overridden, a waiting state, and what the clocks show.  The model declares the duration of each
attack and defense, and the invariant of the location says that the clocks of all defenses and of the
attacks underway are within their durations.  If it holds and one of these clocks has reached its
duration, some transition leaves the location at which an attack underway finishes or a defense acts.
One guard stands at it: that the attack is due, or that the defense is due and none of its followers
is.  This guard holds. -/
theorem guards_never_block_time (hg : g.Built) {maxStates : Nat} (h : build g maxStates = .ok m)
    {settings : QuerySettings} (hmodel : (ofAutomaton m settings).Overridden model)
    {i : StateId} {s : State} (hs : m.state? i = some s) (hphase : s.phase = .waiting)
    (x : Clock → ℝ) :
    (∀ id ∈ g.attacks ++ g.defenses, .constant (.duration (g.name id))
      (toString (model.durationOf (g.name id))) ∈ model.declared) ∧
    ((model.invariant s).Holds model x ↔ ∀ id ∈ g.defenses ++ s.key.activated,
      x (.of (g.name id)) ≤ model.durationOf (g.name id)) ∧
    ((model.invariant s).Holds model x →
      (∃ id ∈ g.defenses ++ s.key.activated,
        x (.of (g.name id)) = model.durationOf (g.name id)) →
      ∃ e ∈ m.edges.toList, e.source = i ∧ ∃ guard : Guard,
        ((∃ a ∈ s.key.activated, e.move = .finish a ∧ guard = [.due (g.name a)]) ∨
          ∃ d ∈ g.defenses, (e.move = .strike d ∨ e.move = .idle d) ∧
            guard = .due (g.name d) :: (g.followers d).map fun f => .notDue (g.name f)) ∧
        (∀ u, .guard u ∈ (model.labels s.phase e.move).1 ↔ u = guard) ∧ guard.Holds model x) := by
  have hm := unfolds_of_build hg.sound h
  obtain rfl : model.automaton = m := hmodel.automaton_eq
  obtain rfl : model.graph = g := hm.graph
  have haccepting : ¬ s.accepting := by
    rw [congrArg State.accepting (hm.states i s hs).1.eq_stateOf]
    simp [stateOf, hphase]
  refine ⟨fun id hid => mem_declared_duration hg.sound hid,
    holds_invariant_iff hphase haccepting, ?_⟩
  rintro _ ⟨id, hid, hbound⟩
  by_cases hdefense : ∃ d ∈ model.graph.defenses, model.Due x d
  · exact enabled_of_due_defense hm hs hphase hg hdefense
  · have hdue : model.Due x id := hbound.ge
    have hunderway : id ∈ s.key.activated := by
      rcases List.mem_append.1 hid with hid | hid
      · exact absurd ⟨id, hid, hdue⟩ hdefense
      · exact hid
    have hattack := ((hm.states i s hs).2.regular hg.sound).grounded.activated id
      (NodeSet.mem_ofList.2 hunderway)
    exact enabled_of_due_attack hm hs hphase hattack hunderway hdue

/-- In the office, with the patrol as often as the alarm, both are due at once. -/
theorem guards_never_block_time_office : ∃ m model i s, build office 15 = .ok m ∧
    (ofAutomaton m .standard).setPeriod "patrol" 5 = .ok model ∧ m.state? i = some s ∧
    s.key = ⟨.waiting, [3], [2]⟩ ∧ (model.invariant s).Holds model (fun _ => 5) ∧
    ∃ e ∈ m.edges.toList, e.source = i ∧ ∃ guard : Guard,
      ((∃ a ∈ s.key.activated, e.move = .finish a ∧ guard = [.due (office.name a)]) ∨
        ∃ d ∈ office.defenses, (e.move = .strike d ∨ e.move = .idle d) ∧
          guard = .due (office.name d) ::
            (office.followers d).map fun f => .notDue (office.name f)) ∧
      (∀ u, .guard u ∈ (model.labels s.phase e.move).1 ↔ u = guard) ∧
      guard.Holds model fun _ => 5 := by
  obtain ⟨m, hm⟩ := exists_build_office
  have hunfolds := unfolds_of_build built_office.sound hm
  obtain ⟨i, s, hs, hkey⟩ := hunfolds.exists_state_iff.2 reachableKey_office
  let model : Model := ⟨m, .standard, (∅ : Std.HashMap NodeId UInt32).insert 1 5⟩
  have hgraph : model.graph = office := hunfolds.graph
  have hsound : model.graph.Sound := hgraph ▸ built_office.sound
  have halarm : model.graph.tree.defense? 0 = some ⟨"alarm", 5, .one, 1⟩ := by rw [hgraph]; rfl
  have hpatrol : model.graph.tree.defense? 1 = some ⟨"patrol", 7, .one, 1⟩ := by rw [hgraph]; rfl
  have hsteal : model.graph.tree.attack? 3 = some ⟨"steal", 10, .one, none, none, [0, 1]⟩ := by
    rw [hgraph]
    rfl
  have hset : (ofAutomaton m .standard).setPeriod "patrol" 5 = .ok model := by
    refine setPeriod_eq_ok.2 ⟨1, ?_, Option.isSome_of_eq_some hpatrol, ?_, by decide, rfl⟩
    · exact (hsound.tree.find?_iff _ _).2 ⟨_, Tree.defense?_eq_some.1 hpatrol, rfl⟩
    · show 1 ∈ model.graph.defenses
      rw [hgraph]
      decide
  have halarm_due : model.durationOf "alarm" = 5 :=
    (durationOf_defense hsound halarm).trans (by simp [period, model, halarm])
  have hpatrol_due : model.durationOf "patrol" = 5 :=
    (durationOf_defense hsound hpatrol).trans (by simp [period, model])
  have hsteal_due : model.durationOf "steal" = 10 := durationOf_attack hsound hsteal
  obtain ⟨_, hiff, hnever⟩ := guards_never_block_time built_office hm (.set .refl hset) hs
    (congrArg StateKey.phase hkey) fun _ => 5
  have hholds : (model.invariant s).Holds model fun _ => 5 := by
    have hnames : ∀ id ∈ office.defenses ++ s.key.activated,
        office.name id ∈ ["alarm", "patrol", "steal"] := by
      rw [hkey]
      decide
    rw [hiff]
    intro id hid
    have hname := hnames id hid
    simp only [List.mem_cons, List.not_mem_nil, or_false] at hname
    rcases hname with h | h | h
    · rw [h, halarm_due]
      norm_num
    · rw [h, hpatrol_due]
      norm_num
    · rw [h, hsteal_due]
      norm_num
  refine ⟨m, model, i, s, hm, hset, hs, hkey, hholds, hnever hholds ⟨1, by simp [office], ?_⟩⟩
  rw [show office.name 1 = "patrol" from rfl, hpatrol_due]
  norm_num

end AttackDefense.Automaton
