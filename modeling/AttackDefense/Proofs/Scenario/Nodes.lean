import AttackDefense.Proofs.Tree.Sound
import AttackDefense.Scenario.Build

/-!
# Single nodes of a scenario

A defense or an attack of a scenario is added as the node that it describes: of the same name and
probability, with the same numbers, and the defenses of an attack are the nodes that have their
names in the tree so far.

    addAttack t a = .ok (t', id) ↔
      ∃ attack, a.Describes t attack ∧ t.addAttack attack = .ok (t', id)          (addAttack_eq_ok)

It is refused for its first number that does not fit into 32 bits, then for the first name that no
node has, and then as the node that it describes (`addDefense_eq_error`, `addAttack_eq_error`).
-/

namespace AttackDefense.Scenario

variable {t t' : Tree} {id : NodeId} {fault : Fault}

/-! ## Numbers -/

/-- The number fits into 32 bits. -/
def FitsWord (value : Int64) : Prop := 0 ≤ value.toInt ∧ value.toInt < UInt32.size

theorem fitsWord_iff {value : Int64} : FitsWord value ↔ ∃ n : UInt32, value.toInt = n.toNat := by
  have hsize : UInt32.size = 2 ^ 32 := rfl
  constructor
  · rintro ⟨hneg, hlarge⟩
    have hword : (UInt32.ofNat value.toInt.toNat).toNat = value.toInt.toNat :=
      UInt32.toNat_ofNat_of_lt' (by omega)
    exact ⟨_, by rw [hword, Int.toNat_of_nonneg hneg]⟩
  · rintro ⟨n, hn⟩
    have hlt := n.toNat_lt
    exact ⟨by omega, by omega⟩

theorem nonNegative_eq_ok {node field : String} {value : Int64} {n : UInt32} :
    nonNegative node field value = .ok n ↔ value.toInt = n.toNat := by
  have hfits : value.toInt = n.toNat → FitsWord value := fun h => fitsWord_iff.2 ⟨n, h⟩
  unfold nonNegative
  dsimp only
  split
  · next hneg => exact iff_of_false nofun fun h => Int.not_le.2 hneg (hfits h).1
  · next hneg =>
    split
    · next hlarge => exact iff_of_false nofun fun h => Int.not_lt.2 hlarge (hfits h).2
    · next hlarge =>
      have hword : (UInt32.ofNat value.toInt.toNat).toNat = value.toInt.toNat :=
        UInt32.toNat_ofNat_of_lt' (by omega)
      rw [Except.ok.injEq, ← UInt32.toNat_inj, hword]
      omega

theorem exists_nonNegative_iff {node field : String} {value : Int64} :
    (∃ n, nonNegative node field value = .ok n) ↔ FitsWord value := by
  simp only [nonNegative_eq_ok, fitsWord_iff]

/-- A number that is refused is told to be negative or too large, with its node and field. -/
theorem nonNegative_eq_error {node field : String} {value : Int64} :
    nonNegative node field value = .error fault ↔
      (value.toInt < 0 ∧ .number (.negative node field value.toInt) = fault) ∨
      (UInt32.size ≤ value.toInt ∧ .number (.tooLarge node field value.toInt) = fault) := by
  unfold nonNegative
  dsimp only
  split
  · next hneg =>
    have hlarge : ¬ (UInt32.size : Int) ≤ value.toInt := by omega
    simp only [hneg, hlarge, true_and, false_and, or_false, Except.error.injEq]
  · next hneg =>
    split
    · next hlarge => simp only [hneg, hlarge, true_and, false_and, false_or, Except.error.injEq]
    · next hlarge => simp only [hneg, hlarge, false_and, or_false, reduceCtorEq]

/-- A number that may be missing is taken over, or is missing. -/
theorem mapM_nonNegative_eq_ok {node field : String} {value : Option Int64} {n : Option UInt32} :
    value.mapM (nonNegative node field) = .ok n ↔
      value.map Int64.toInt = n.map fun n => (n.toNat : Int) := by
  cases value with
  | none => cases n <;> simp [pure, Except.pure]
  | some v =>
    show (nonNegative node field v).map some = .ok n ↔ _
    rw [map_eq_ok]
    simp only [nonNegative_eq_ok]
    cases n <;> simp

theorem exists_mapM_nonNegative_iff {node field : String} {value : Option Int64} :
    (∃ n, value.mapM (nonNegative node field) = .ok n) ↔ ∀ v ∈ value, FitsWord v := by
  simp only [mapM_nonNegative_eq_ok]
  cases value with
  | none => exact iff_of_true ⟨none, rfl⟩ nofun
  | some v =>
    simp only [Option.mem_some_iff, forall_eq', fitsWord_iff]
    constructor
    · rintro ⟨_ | n, hn⟩
      · cases hn
      · exact ⟨n, Option.some.inj hn⟩
    · rintro ⟨n, hn⟩
      exact ⟨some n, congrArg some hn⟩

theorem mapM_nonNegative_eq_error {node field : String} {value : Option Int64} :
    value.mapM (nonNegative node field) = .error fault ↔
      ∃ v ∈ value, nonNegative node field v = .error fault := by
  cases value with
  | none => simp [pure, Except.pure]
  | some v =>
    show (nonNegative node field v).map some = .error fault ↔ _
    simp [map_eq_error]

/-! ## Names -/

theorem resolve_eq_ok {name : String} : resolve t name = .ok id ↔ t.find? name = some id := by
  unfold resolve
  split <;> simp_all

theorem resolve_eq_error {name : String} :
    resolve t name = .error fault ↔ t.find? name = none ∧ .tree (.unknownName name) = fault := by
  unfold resolve
  split <;> simp_all

/-! ## Defenses -/

/-- What a description of a defense says of it. -/
structure DefenseSpec.Describes (d : DefenseSpec) (defense : Defense) : Prop where
  name : defense.name = d.name
  period : d.period.toInt = defense.period.toNat
  probability : defense.successProbability = d.successProbability
  cost : d.cost.toInt = defense.cost.toNat

/-- The defense described, from its numbers. -/
theorem DefenseSpec.exists_describes_iff {d : DefenseSpec} {p : Defense → Prop} :
    (∃ defense, d.Describes defense ∧ p defense) ↔
      ∃ period, nonNegative d.name "period" d.period = .ok period ∧
      ∃ cost, nonNegative d.name "cost" d.cost = .ok cost ∧
      p ⟨d.name, period, d.successProbability, cost⟩ := by
  simp only [nonNegative_eq_ok]
  constructor
  · rintro ⟨⟨_, period, _, cost⟩, ⟨rfl, hperiod, rfl, hcost⟩, h⟩
    exact ⟨period, hperiod, cost, hcost, h⟩
  · rintro ⟨period, hperiod, cost, hcost, h⟩
    exact ⟨_, ⟨rfl, hperiod, rfl, hcost⟩, h⟩

theorem addDefense_eq_ok {d : DefenseSpec} :
    addDefense t d = .ok (t', id) ↔
      ∃ defense, d.Describes defense ∧ t.addDefense defense = .ok (t', id) := by
  unfold addDefense
  simp only [bind_eq_ok, DefenseSpec.exists_describes_iff]

/-- A description of a defense is refused for its first number that does not fit, or as the defense
that it describes. -/
theorem addDefense_eq_error {d : DefenseSpec} :
    addDefense t d = .error fault ↔
      nonNegative d.name "period" d.period = .error fault ∨
      (FitsWord d.period ∧ nonNegative d.name "cost" d.cost = .error fault) ∨
      ∃ defense, d.Describes defense ∧ t.addDefense defense = .error fault := by
  unfold addDefense
  simp only [bind_eq_error, DefenseSpec.exists_describes_iff, and_or_left, exists_or,
    exists_and_right, exists_nonNegative_iff]

/-! ## Attacks -/

/-- What a description of an attack says of it, over the nodes added so far. -/
structure AttackSpec.Describes (t : Tree) (a : AttackSpec) (attack : Attack) : Prop where
  name : attack.name = a.name
  completionTime : a.completionTime.toInt = attack.completionTime.toNat
  probability : attack.successProbability = a.successProbability
  activationCost :
    a.activationCost.map Int64.toInt = attack.activationCost.map fun n => (n.toNat : Int)
  proportionalCost :
    a.proportionalCost.map Int64.toInt = attack.proportionalCost.map fun n => (n.toNat : Int)
  defenses : List.Forall₂ (fun name id => t.find? name = some id) a.defenses attack.defenses

/-- The attack described, from its numbers and the nodes of the names. -/
theorem AttackSpec.exists_describes_iff {a : AttackSpec} {p : Attack → Prop} :
    (∃ attack, a.Describes t attack ∧ p attack) ↔
      ∃ time, nonNegative a.name "completion time" a.completionTime = .ok time ∧
      ∃ activation, a.activationCost.mapM (nonNegative a.name "activation cost") = .ok activation ∧
      ∃ rate, a.proportionalCost.mapM (nonNegative a.name "proportional cost") = .ok rate ∧
      ∃ defenses, a.defenses.mapM (resolve t) = .ok defenses ∧
      p ⟨a.name, time, a.successProbability, activation, rate, defenses⟩ := by
  simp only [nonNegative_eq_ok, mapM_nonNegative_eq_ok, mapM_eq_ok, resolve_eq_ok]
  constructor
  · rintro ⟨⟨_, time, _, activation, rate, defenses⟩,
      ⟨rfl, htime, rfl, hactivation, hrate, hdefenses⟩, h⟩
    exact ⟨time, htime, activation, hactivation, rate, hrate, defenses, hdefenses, h⟩
  · rintro ⟨time, htime, activation, hactivation, rate, hrate, defenses, hdefenses, h⟩
    exact ⟨_, ⟨rfl, htime, rfl, hactivation, hrate, hdefenses⟩, h⟩

theorem addAttack_eq_ok {a : AttackSpec} :
    addAttack t a = .ok (t', id) ↔
      ∃ attack, a.Describes t attack ∧ t.addAttack attack = .ok (t', id) := by
  unfold addAttack
  simp only [bind_eq_ok, AttackSpec.exists_describes_iff]

/-- A description of an attack is refused for its first number that does not fit, for its first name
that no node has, or as the attack that it describes. -/
theorem addAttack_eq_error {a : AttackSpec} :
    addAttack t a = .error fault ↔
      nonNegative a.name "completion time" a.completionTime = .error fault ∨
      (FitsWord a.completionTime ∧
        ∃ v ∈ a.activationCost, nonNegative a.name "activation cost" v = .error fault) ∨
      (FitsWord a.completionTime ∧ (∀ v ∈ a.activationCost, FitsWord v) ∧
        ∃ v ∈ a.proportionalCost, nonNegative a.name "proportional cost" v = .error fault) ∨
      (FitsWord a.completionTime ∧ (∀ v ∈ a.activationCost, FitsWord v) ∧
        (∀ v ∈ a.proportionalCost, FitsWord v) ∧
        ∃ before name after, a.defenses = before ++ name :: after ∧
          (∀ other ∈ before, ∃ id, t.find? other = some id) ∧ t.find? name = none ∧
          .tree (.unknownName name) = fault) ∨
      ∃ attack, a.Describes t attack ∧ t.addAttack attack = .error fault := by
  have hnames : a.defenses.mapM (resolve t) = .error fault ↔
      ∃ before name after, a.defenses = before ++ name :: after ∧
        (∀ other ∈ before, ∃ id, t.find? other = some id) ∧ t.find? name = none ∧
        .tree (.unknownName name) = fault := by
    simp only [mapM_eq_error, resolve_eq_ok, resolve_eq_error]
  unfold addAttack
  simp only [bind_eq_error, hnames, mapM_nonNegative_eq_error, AttackSpec.exists_describes_iff,
    and_or_left, exists_or, exists_and_right, exists_nonNegative_iff, exists_mapM_nonNegative_iff]

end AttackDefense.Scenario
