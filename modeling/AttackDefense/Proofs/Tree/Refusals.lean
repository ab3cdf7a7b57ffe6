import AttackDefense.Proofs.Tree.Sound

/-!
# Nodes that are refused

Each of the three calls that add a node makes all its checks first.  So it is refused for the first
thing that is wrong with the node, and then the tree is as it was:

    (attackCall a).Safe                                                      (safe_attackCall)

The faults, in the order in which they are looked for: the number of the node, the nodes that it
refers to, its number of children, its name (`addAttack_eq_error`, `addDefense_eq_error`,
`addSubgoal_eq_error`).
-/

namespace AttackDefense.Tree

variable {t : Tree} {fault : Fault}

/-! ## No trace -/

/-- The name is checked before the tree is changed. -/
theorem safe_insertCall (t : Tree) (node : Node) (h : ∀ c ∈ node.children, c < t.size) :
    (t.insertCall node h).Safe := by
  have hwrite : Call.Certain (do set (t.withNode node h); return t.size : Call Fault Tree NodeId) :=
    (Call.certain_set _).bind fun _ => Call.certain_pure _
  unfold insertCall
  exact (Call.quiet_demand _ _).bind_safe fun _ => (Call.quiet_demand _ _).bind_safe fun _ =>
    hwrite.safe

theorem safe_attackCall (a : Attack) : (attackCall a).Safe := by
  unfold attackCall
  refine Call.quiet_get.bind_safe fun t => (Call.quiet_check _).bind_safe fun _ => ?_
  exact (Call.quiet_check _).bind_safe fun _ => t.safe_insertCall _ _

theorem safe_defenseCall (d : Defense) : (defenseCall d).Safe := by
  unfold defenseCall
  refine Call.quiet_get.bind_safe fun t => (Call.quiet_check _).bind_safe fun _ => ?_
  exact (Call.quiet_demand _ _).bind_safe fun _ => t.safe_insertCall _ _

theorem safe_subgoalCall (name : String) (refinement : Refinement) (members : List NodeId)
    (reset : Bool) : (subgoalCall name refinement members reset).Safe := by
  unfold subgoalCall
  refine Call.quiet_get.bind_safe fun t => (Call.quiet_check _).bind_safe fun _ => ?_
  refine (Call.quiet_demand _ _).bind_safe fun _ => (Call.quiet_demand _ _).bind_safe fun _ => ?_
  exact t.safe_insertCall _ _

/-! ## The first fault -/

theorem insert_eq_error {node : Node} {h : ∀ c ∈ node.children, c < t.size} :
    t.insert node h = .error fault ↔
      (¬ isIdentifier node.name ∧ .tree (.invalidName node.name) = fault) ∨
      (isIdentifier node.name ∧ t.find? node.name ≠ none ∧
        .tree (.duplicateName node.name) = fault) := by
  have hwrite : Call.outcome (do set (t.withNode node h); return t.size) t =
      (.ok (t.withNode node h, t.size) : Except Fault (Tree × NodeId)) := rfl
  unfold insert insertCall
  rw [Call.outcome_demand_bind_eq_error, Call.outcome_demand_bind_eq_error, hwrite]
  simp only [reduceCtorEq, and_false, or_false]

theorem checkProbability_eq_error {name : String} {p : Decimal.Binary64} :
    checkProbability name p = .error fault ↔
      ¬ p.isProbability ∧ .number (.probability name p) = fault := by
  unfold checkProbability
  split <;> simp_all

theorem expectNode_eq_error {id : NodeId} :
    t.expectNode id = .error fault ↔ ¬ t.has id ∧ .tree (.unknownNode id) = fault := by
  unfold expectNode
  split <;> simp_all

theorem expectDefense_eq_error {id : NodeId} :
    t.expectDefense id = .error fault ↔
      ¬ t.isDefense id ∧ t.wrongKind id "a defense" = fault := by
  unfold expectDefense isDefense
  cases t.defense? id <;> simp

theorem addAttack_eq_error {a : Attack} :
    t.addAttack a = .error fault ↔
      (¬ a.successProbability.isProbability ∧
        .number (.probability a.name a.successProbability) = fault) ∨
      (a.successProbability.isProbability ∧ ∃ before d after, a.defenses = before ++ d :: after ∧
        (∀ e ∈ before, t.isDefense e) ∧ ¬ t.isDefense d ∧ t.wrongKind d "a defense" = fault) ∨
      (a.successProbability.isProbability ∧ (∀ d ∈ a.defenses, t.isDefense d) ∧
        t.insert (.attack a) (t.children_attack_lt a) = .error fault) := by
  unfold addAttack attackCall
  rw [Call.outcome_get_bind]
  simp only [Call.outcome_check_bind, bind_eq_error, checkProbability_eq_error,
    checkProbability_eq_ok, forM_eq_error, forM_eq_ok, map_expectDefense_eq_ok, map_eq_error,
    expectDefense_eq_error, and_or_left, exists_const]
  rfl

theorem addDefense_eq_error {d : Defense} :
    t.addDefense d = .error fault ↔
      (¬ d.successProbability.isProbability ∧
        .number (.probability d.name d.successProbability) = fault) ∨
      (d.successProbability.isProbability ∧ d.period = 0 ∧ .number (.zeroPeriod d.name) = fault) ∨
      (d.successProbability.isProbability ∧ d.period ≠ 0 ∧
        t.insert (.defense d) (t.children_defense_lt d) = .error fault) := by
  unfold addDefense defenseCall
  rw [Call.outcome_get_bind]
  simp only [Call.outcome_check_bind, bind_eq_error, checkProbability_eq_error,
    checkProbability_eq_ok, Call.outcome_demand_bind_eq_error, not_not, and_or_left, exists_const,
    ne_eq]
  rfl

theorem addSubgoal_eq_error {name : String} {refinement : Refinement} {members : List NodeId}
    {reset : Bool} :
    t.addSubgoal name refinement members reset = .error fault ↔
      let s := t.subgoalOver name refinement members reset
      let arity := s.children.length
      (∃ before x after, members = before ++ x :: after ∧ (∀ y ∈ before, t.has y) ∧ ¬ t.has x ∧
        .tree (.unknownNode x) = fault) ∨
      (∀ x ∈ members, t.has x) ∧
        ((arity = 0 ∨ t.maxArity < arity) ∧ .tree (.arity name arity t.maxArity) = fault ∨
        (arity ≠ 0 ∧ arity ≤ t.maxArity) ∧
          ((refinement = .edge ∧ arity ≠ 1) ∧ .tree (.edgeArity name arity) = fault ∨
          (refinement = .edge → arity = 1) ∧
            t.insert (.subgoal s) (fun _ h => children_subgoalOver_lt h) = .error fault)) := by
  unfold addSubgoal subgoalCall
  rw [Call.outcome_get_bind]
  simp only [Call.outcome_check_bind, bind_eq_error, forM_eq_error, forM_eq_ok, expectNode_eq_ok,
    expectNode_eq_error, Call.outcome_demand_bind_eq_error, exists_const, not_and_or, not_not,
    Nat.not_le, Classical.not_imp, ne_eq]
  rfl

end AttackDefense.Tree
