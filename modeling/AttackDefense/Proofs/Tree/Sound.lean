import AttackDefense.Proofs.Call
import AttackDefense.Tree.Parents

/-!
# Trees that can be built

`Built t` says that `t` arises from an empty tree by adding nodes and assigning parents, in any
order and with any arguments; an assignment that ends with a conflict counts too.  `Sound t` is the
invariant of these operations:

    t.Built → t.Sound                                              (Built.sound)

A sound tree knows the number of every name, refers to nodes of the right kind only, keeps the
bounds on numbers of children, probabilities and periods, and has assigned no parent that does not
list the child.
-/

namespace AttackDefense.Tree

variable {t t' : Tree}

/-! ## Invariant -/

/-- The tree arises by adding nodes and assigning parents. -/
inductive Built : Tree → Prop
  | empty (maxArity : Nat) : Built (Tree.empty maxArity)
  | attack {t t' : Tree} {a : Attack} {id : NodeId} :
    Built t → t.addAttack a = .ok (t', id) → Built t'
  | defense {t t' : Tree} {d : Defense} {id : NodeId} :
    Built t → t.addDefense d = .ok (t', id) → Built t'
  | subgoal {t t' : Tree} {name : String} {refinement : Refinement} {members : List NodeId}
    {reset : Bool} {id : NodeId} :
    Built t → t.addSubgoal name refinement members reset = .ok (t', id) → Built t'
  | parents {t : Tree} (root : NodeId) : Built t → Built (t.setParents root).1

/-- What holds of a subgoal at a number: its children and defenses come earlier and are of the
right kinds, and their number is allowed. -/
structure SubgoalFits (t : Tree) (id : NodeId) (s : Subgoal) : Prop where
  attacks : ∀ c ∈ s.attackChildren, c < id ∧ t.isAttack c
  subgoals : ∀ c ∈ s.subgoalChildren, c < id ∧ t.isSubgoal c
  defenses : ∀ d ∈ s.defenses, d < id ∧ t.isDefense d
  nonempty : s.children ≠ []
  arity : s.children.length ≤ t.maxArity
  edge : s.refinement = .edge → s.children.length = 1

/-- What holds of a node at a number. -/
def Fits (t : Tree) (id : NodeId) : Node → Prop
  | .attack a => a.successProbability.isProbability ∧ ∀ d ∈ a.defenses, d < id ∧ t.isDefense d
  | .defense d => d.successProbability.isProbability ∧ d.period ≠ 0
  | .subgoal s => t.SubgoalFits id s

structure Sound (t : Tree) : Prop where
  parents_size : t.parents.size = t.size
  find?_iff : ∀ name id, t.find? name = some id ↔ ∃ node, t.node? id = some node ∧ node.name = name
  identifier : ∀ id node, t.node? id = some node → isIdentifier node.name
  fits : ∀ id node, t.node? id = some node → t.Fits id node
  parent : ∀ c p, t.parent? c = some p → c ∈ t.children p

/-! ## Kinds -/

theorem isAttack_iff {id : NodeId} : t.isAttack id ↔ ∃ a, t.node? id = some (.attack a) := by
  unfold isAttack attack?
  rcases t.node? id with _ | (a | d | s) <;> simp [Node.asAttack?]

theorem isDefense_iff {id : NodeId} : t.isDefense id ↔ ∃ d, t.node? id = some (.defense d) := by
  unfold isDefense defense?
  rcases t.node? id with _ | (a | d | s) <;> simp [Node.asDefense?]

theorem isSubgoal_iff {id : NodeId} : t.isSubgoal id ↔ ∃ s, t.node? id = some (.subgoal s) := by
  unfold isSubgoal subgoal?
  rcases t.node? id with _ | (a | d | s) <;> simp [Node.asSubgoal?]

theorem subgoal?_eq_some {id : NodeId} {s : Subgoal} :
    t.subgoal? id = some s ↔ t.node? id = some (.subgoal s) := by
  unfold subgoal?
  rcases t.node? id with _ | (a | d | s) <;> simp [Node.asSubgoal?]

theorem attack?_eq_some {id : NodeId} {a : Attack} :
    t.attack? id = some a ↔ t.node? id = some (.attack a) := by
  unfold attack?
  rcases t.node? id with _ | (a | d | s) <;> simp [Node.asAttack?]

theorem defense?_eq_some {id : NodeId} {d : Defense} :
    t.defense? id = some d ↔ t.node? id = some (.defense d) := by
  unfold defense?
  rcases t.node? id with _ | (a | d | s) <;> simp [Node.asDefense?]

theorem mem_children_iff {c p : NodeId} :
    c ∈ t.children p ↔ ∃ s, t.subgoal? p = some s ∧ c ∈ s.children := by
  simp only [subgoal?_eq_some, children]
  rcases t.node? p with _ | (a | d | s) <;> simp [Node.children]

theorem not_isDefense_of_isAttack {id : NodeId} (h : t.isAttack id) : ¬ t.isDefense id := by
  rw [isDefense_iff]
  obtain ⟨a, ha⟩ := isAttack_iff.1 h
  simp [ha]

theorem not_isSubgoal_of_isAttack {id : NodeId} (h : t.isAttack id) : ¬ t.isSubgoal id := by
  rw [isSubgoal_iff]
  obtain ⟨a, ha⟩ := isAttack_iff.1 h
  simp [ha]

theorem not_isAttack_of_isDefense {id : NodeId} (h : t.isDefense id) : ¬ t.isAttack id :=
  fun ha => not_isDefense_of_isAttack ha h

theorem not_isSubgoal_of_isDefense {id : NodeId} (h : t.isDefense id) : ¬ t.isSubgoal id := by
  rw [isSubgoal_iff]
  obtain ⟨d, hd⟩ := isDefense_iff.1 h
  simp [hd]

/-! ## More nodes -/

/-- Every node is still there. -/
def Extends (t t' : Tree) : Prop := ∀ id node, t.node? id = some node → t'.node? id = some node

theorem Extends.isAttack (h : t.Extends t') {id : NodeId} (ha : t.isAttack id) : t'.isAttack id := by
  obtain ⟨a, ha⟩ := isAttack_iff.1 ha
  exact isAttack_iff.2 ⟨a, h _ _ ha⟩

theorem Extends.isDefense (h : t.Extends t') {id : NodeId} (hd : t.isDefense id) :
    t'.isDefense id := by
  obtain ⟨d, hd⟩ := isDefense_iff.1 hd
  exact isDefense_iff.2 ⟨d, h _ _ hd⟩

theorem Extends.isSubgoal (h : t.Extends t') {id : NodeId} (hs : t.isSubgoal id) :
    t'.isSubgoal id := by
  obtain ⟨s, hs⟩ := isSubgoal_iff.1 hs
  exact isSubgoal_iff.2 ⟨s, h _ _ hs⟩

theorem Extends.children (h : t.Extends t') {c p : NodeId} (hc : c ∈ t.children p) :
    c ∈ t'.children p := by
  simp only [mem_children_iff, subgoal?_eq_some] at hc ⊢
  obtain ⟨s, hs, hc⟩ := hc
  exact ⟨s, h _ _ hs, hc⟩

theorem Extends.fits (h : t.Extends t') (harity : t'.maxArity = t.maxArity) {id : NodeId}
    {node : Node} (hf : t.Fits id node) : t'.Fits id node := by
  cases node with
  | attack a => exact ⟨hf.1, fun d hd => ⟨(hf.2 d hd).1, h.isDefense (hf.2 d hd).2⟩⟩
  | defense d => exact hf
  | subgoal s =>
    exact {
      attacks := fun c hc => ⟨(hf.attacks c hc).1, h.isAttack (hf.attacks c hc).2⟩
      subgoals := fun c hc => ⟨(hf.subgoals c hc).1, h.isSubgoal (hf.subgoals c hc).2⟩
      defenses := fun d hd => ⟨(hf.defenses d hd).1, h.isDefense (hf.defenses d hd).2⟩
      nonempty := hf.nonempty
      arity := harity ▸ hf.arity
      edge := hf.edge }

/-! ## Adding a node -/

theorem insert_eq_ok {node : Node} {h : ∀ c ∈ node.children, c < t.size} {id : NodeId} :
    t.insert node h = .ok (t', id) ↔ isIdentifier node.name ∧ t.find? node.name = none ∧
      t.withNode node h = t' ∧ t.size = id := by
  have hwrite : Call.outcome (do set (t.withNode node h); return t.size) t =
      (.ok (t.withNode node h, t.size) : Except Fault (Tree × NodeId)) := rfl
  unfold insert insertCall
  rw [Call.outcome_demand_bind_eq_ok, Call.outcome_demand_bind_eq_ok, hwrite]
  simp only [Except.ok.injEq, Prod.mk.injEq]

section

variable {node : Node} (h : ∀ c ∈ node.children, c < t.size)

theorem node?_size (t : Tree) : t.node? t.size = none := by
  simp [node?, size]

theorem node?_withNode (x : NodeId) :
    (t.withNode node h).node? x = if x = t.size then some node else t.node? x := by
  rw [node?, withNode, Array.getElem?_push]
  rfl

theorem extends_withNode : t.Extends (t.withNode node h) := by
  intro x other hx
  rw [node?_withNode, if_neg]
  · exact hx
  · rintro rfl
    rw [node?_size] at hx
    cases hx

theorem parent?_withNode (c : NodeId) : (t.withNode node h).parent? c = t.parent? c := by
  unfold parent? withNode
  rw [Array.getElem?_push]
  split
  · next hc => simp [hc]
  · rfl

theorem find?_withNode (name : String) :
    (t.withNode node h).find? name = if node.name = name then some t.size else t.find? name := by
  rw [find?, withNode, Std.HashMap.getElem?_insert]
  by_cases hn : node.name = name <;> simp [hn, find?]

theorem find?_empty (maxArity : Nat) (name : String) : (Tree.empty maxArity).find? name = none := by
  simp [find?, Tree.empty]

theorem Sound.find?_withNode_iff (hs : t.Sound) (hnew : t.find? node.name = none) (name : String)
    (x : NodeId) : (t.withNode node h).find? name = some x ↔
      ∃ other, (t.withNode node h).node? x = some other ∧ other.name = name := by
  have hold : t.find? name = some x ↔ ∃ other, t.node? x = some other ∧ other.name = name :=
    hs.find?_iff name x
  rw [find?_withNode, node?_withNode]
  by_cases hx : x = t.size
  · -- the new number has the new name only
    subst hx
    rw [node?_size] at hold
    by_cases hn : node.name = name
    · simp [hn]
    · simp [hn, hold]
  · by_cases hn : node.name = name
    · -- the new name was not known before
      have hnone : ¬ ∃ other, t.node? x = some other ∧ other.name = name := by
        rw [← hold, ← hn, hnew]
        simp
      rw [if_pos hn, if_neg hx]
      exact ⟨fun he => absurd (Option.some.inj he).symm hx, fun he => absurd he hnone⟩
    · simp [hn, hx, hold]

theorem Sound.withNode (hs : t.Sound) (hname : isIdentifier node.name)
    (hnew : t.find? node.name = none) (hf : t.Fits t.size node) : (t.withNode node h).Sound where
  parents_size := by
    unfold Tree.withNode size
    rw [Array.size_push, Array.size_push, hs.parents_size, size]
  find?_iff := hs.find?_withNode_iff h hnew
  identifier := by
    intro x other hx
    rw [node?_withNode] at hx
    split at hx
    · cases hx
      exact hname
    · exact hs.identifier x other hx
  fits := by
    intro x other hx
    apply (extends_withNode h).fits rfl
    rw [node?_withNode] at hx
    split at hx
    · next hxt =>
      cases hx
      exact hxt ▸ hf
    · exact hs.fits x other hx
  parent := by
    intro c p hc
    rw [parent?_withNode] at hc
    exact (extends_withNode h).children (hs.parent c p hc)

end

theorem Sound.insert (hs : t.Sound) {node : Node} {h : ∀ c ∈ node.children, c < t.size}
    {id : NodeId} (hi : t.insert node h = .ok (t', id)) (hf : t.Fits t.size node) : t'.Sound := by
  obtain ⟨hname, hnew, rfl, _⟩ := insert_eq_ok.1 hi
  exact hs.withNode h hname hnew hf

/-! ## The three kinds of nodes -/

theorem checkProbability_eq_ok {name : String} {p : Decimal.Binary64} {u : Unit} :
    checkProbability name p = .ok u ↔ p.isProbability := by
  unfold checkProbability
  split <;> simp_all

theorem lt_size_of_isDefense {id : NodeId} (h : t.isDefense id) : id < t.size := by
  obtain ⟨d, hd⟩ := isDefense_iff.1 h
  exact lt_size_of_isSome (by rw [hd]; rfl)

theorem expectDefense_eq_ok {id : NodeId} {d : Defense} :
    t.expectDefense id = .ok d ↔ t.defense? id = some d := by
  unfold expectDefense
  cases t.defense? id <;> simp

theorem map_expectDefense_eq_ok {id : NodeId} {u : Unit} :
    (t.expectDefense id).map (fun _ => ()) = .ok u ↔ t.isDefense id := by
  rw [map_eq_ok, isDefense, Option.isSome_iff_exists]
  simp [expectDefense_eq_ok]

theorem expectNode_eq_ok {id : NodeId} {u : Unit} : t.expectNode id = .ok u ↔ t.has id := by
  unfold expectNode
  split <;> simp_all

theorem addAttack_eq_ok {a : Attack} {id : NodeId} :
    t.addAttack a = .ok (t', id) ↔ a.successProbability.isProbability ∧
      (∀ d ∈ a.defenses, t.isDefense d) ∧
      t.insert (.attack a) (t.children_attack_lt a) = .ok (t', id) := by
  unfold addAttack attackCall
  rw [Call.outcome_get_bind]
  simp only [Call.outcome_check_bind, bind_eq_ok, checkProbability_eq_ok, forM_eq_ok,
    map_expectDefense_eq_ok]
  exact ⟨fun ⟨_, hp, _, hd, h⟩ => ⟨hp, hd, h⟩, fun ⟨hp, hd, h⟩ => ⟨(), hp, (), hd, h⟩⟩

theorem addDefense_eq_ok {d : Defense} {id : NodeId} :
    t.addDefense d = .ok (t', id) ↔ d.successProbability.isProbability ∧ d.period ≠ 0 ∧
      t.insert (.defense d) (t.children_defense_lt d) = .ok (t', id) := by
  unfold addDefense defenseCall
  rw [Call.outcome_get_bind, Call.outcome_check_bind, bind_eq_ok]
  simp only [checkProbability_eq_ok, Call.outcome_demand_bind_eq_ok]
  exact ⟨fun ⟨_, hp, h⟩ => ⟨hp, h⟩, fun ⟨hp, h⟩ => ⟨(), hp, h⟩⟩

theorem addSubgoal_eq_ok {name : String} {refinement : Refinement} {members : List NodeId}
    {reset : Bool} {id : NodeId} :
    t.addSubgoal name refinement members reset = .ok (t', id) ↔
      (∀ x ∈ members, t.has x) ∧
      (t.subgoalOver name refinement members reset).children ≠ [] ∧
      (t.subgoalOver name refinement members reset).children.length ≤ t.maxArity ∧
      (refinement = .edge → (t.subgoalOver name refinement members reset).children.length = 1) ∧
      t.insert (.subgoal (t.subgoalOver name refinement members reset))
        (fun _ h => children_subgoalOver_lt h) = .ok (t', id) := by
  unfold addSubgoal subgoalCall
  rw [Call.outcome_get_bind, Call.outcome_check_bind, bind_eq_ok]
  simp only [forM_eq_ok, expectNode_eq_ok, Call.outcome_demand_bind_eq_ok, ne_eq,
    List.length_eq_zero_iff, and_assoc]
  exact ⟨fun ⟨_, hall, h⟩ => ⟨hall, h⟩, fun ⟨hall, h⟩ => ⟨(), hall, h⟩⟩

/-! ### Nodes with a new name -/

theorem addAttack_of_new {a : Attack} (hp : a.successProbability.isProbability)
    (hdefenses : ∀ d ∈ a.defenses, t.isDefense d) (hname : isIdentifier a.name)
    (hnew : t.find? a.name = none) :
    t.addAttack a = .ok (t.withNode (.attack a) (t.children_attack_lt a), t.size) :=
  addAttack_eq_ok.2 ⟨hp, hdefenses, insert_eq_ok.2 ⟨hname, hnew, rfl, rfl⟩⟩

theorem Built.withAttack (h : Built t) {a : Attack} (hp : a.successProbability.isProbability)
    (hdefenses : ∀ d ∈ a.defenses, t.isDefense d) (hname : isIdentifier a.name)
    (hnew : t.find? a.name = none) :
    Built (t.withNode (.attack a) (t.children_attack_lt a)) :=
  .attack h (addAttack_of_new hp hdefenses hname hnew)

theorem addDefense_of_new {d : Defense} (hp : d.successProbability.isProbability)
    (hperiod : d.period ≠ 0) (hname : isIdentifier d.name) (hnew : t.find? d.name = none) :
    t.addDefense d = .ok (t.withNode (.defense d) (t.children_defense_lt d), t.size) :=
  addDefense_eq_ok.2 ⟨hp, hperiod, insert_eq_ok.2 ⟨hname, hnew, rfl, rfl⟩⟩

theorem Built.withDefense (h : Built t) {d : Defense} (hp : d.successProbability.isProbability)
    (hperiod : d.period ≠ 0) (hname : isIdentifier d.name) (hnew : t.find? d.name = none) :
    Built (t.withNode (.defense d) (t.children_defense_lt d)) :=
  .defense h (addDefense_of_new hp hperiod hname hnew)

section

variable {name : String} {refinement : Refinement} {members : List NodeId} {reset : Bool}
  (hmembers : ∀ x ∈ members, t.has x)
  (hne : (t.subgoalOver name refinement members reset).children ≠ [])
  (harity : (t.subgoalOver name refinement members reset).children.length ≤ t.maxArity)
  (hedge : refinement = .edge →
    (t.subgoalOver name refinement members reset).children.length = 1)
  (hname : isIdentifier name) (hnew : t.find? name = none)

include hmembers hne harity hedge hname hnew

theorem addSubgoal_of_new : t.addSubgoal name refinement members reset =
    .ok (t.withNode (.subgoal (t.subgoalOver name refinement members reset))
      (fun _ h => children_subgoalOver_lt h), t.size) :=
  addSubgoal_eq_ok.2 ⟨hmembers, hne, harity, hedge, insert_eq_ok.2 ⟨hname, hnew, rfl, rfl⟩⟩

theorem Built.withSubgoal (h : Built t) :
    Built (t.withNode (.subgoal (t.subgoalOver name refinement members reset))
      fun _ h => children_subgoalOver_lt h) :=
  .subgoal h (addSubgoal_of_new hmembers hne harity hedge hname hnew)

end

theorem Sound.addAttack (hs : t.Sound) {a : Attack} {id : NodeId}
    (h : t.addAttack a = .ok (t', id)) : t'.Sound := by
  obtain ⟨hp, hd, h⟩ := addAttack_eq_ok.1 h
  exact hs.insert h ⟨hp, fun d hmem => ⟨lt_size_of_isDefense (hd d hmem), hd d hmem⟩⟩

theorem Sound.addDefense (hs : t.Sound) {d : Defense} {id : NodeId}
    (h : t.addDefense d = .ok (t', id)) : t'.Sound := by
  obtain ⟨hp, hperiod, h⟩ := addDefense_eq_ok.1 h
  exact hs.insert h ⟨hp, hperiod⟩

theorem Sound.addSubgoal (hs : t.Sound) {name : String} {refinement : Refinement}
    {members : List NodeId} {reset : Bool} {id : NodeId}
    (h : t.addSubgoal name refinement members reset = .ok (t', id)) : t'.Sound := by
  obtain ⟨_, hne, harity, hedge, h⟩ := addSubgoal_eq_ok.1 h
  refine hs.insert h ?_
  exact {
    attacks := fun c hc =>
      ⟨lt_size_of_isAttack (List.mem_filter.1 hc).2, (List.mem_filter.1 hc).2⟩
    subgoals := fun c hc =>
      ⟨lt_size_of_isSubgoal (List.mem_filter.1 hc).2, (List.mem_filter.1 hc).2⟩
    defenses := fun d hd =>
      ⟨lt_size_of_isDefense (List.mem_filter.1 hd).2, (List.mem_filter.1 hd).2⟩
    nonempty := hne
    arity := harity
    edge := hedge }

end AttackDefense.Tree
