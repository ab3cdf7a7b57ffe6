import AttackDefense.Proofs.Tree.Sound

/-!
# Other periods

`t.withPeriods f` is the tree `t` in which the defenses of some names have other periods.  Only the
defenses themselves show it: kinds, names, children, parents, walks and refusals are what they are in
`t`, which is what the simp lemmas below say function by function.  And it is a tree that the same
additions and assignments lead to, as long as no period is zero:

    t.Built → (∀ name, f name ≠ some 0) → (t.withPeriods f).Built              (Built.withPeriods)
-/

namespace AttackDefense

variable (f : String → Option UInt32)

/-! ## Nodes -/

/-- The defense with the period that its name has, if it has one. -/
def Defense.withPeriod (d : Defense) : Defense := { d with period := (f d.name).getD d.period }

variable {f} in
theorem Defense.period_withPeriod_ne_zero (d : Defense) (hf : ∀ name, f name ≠ some 0)
    (hperiod : d.period ≠ 0) : (d.withPeriod f).period ≠ 0 := by
  cases hname : f d.name with
  | none => simpa [withPeriod, hname] using hperiod
  | some p =>
    have hp : p ≠ 0 := fun h => hf d.name (h ▸ hname)
    simpa [withPeriod, hname] using hp

/-- Attacks and subgoals have no period. -/
def Node.withPeriod : Node → Node
  | .defense d => .defense (d.withPeriod f)
  | node => node

namespace Node

variable (n : Node)

@[simp] theorem name_withPeriod : (n.withPeriod f).name = n.name := by cases n <;> rfl

@[simp] theorem children_withPeriod : (n.withPeriod f).children = n.children := by
  cases n <;> rfl

@[simp] theorem defenses_withPeriod : (n.withPeriod f).defenses = n.defenses := by
  cases n <;> rfl

@[simp] theorem isReset_withPeriod : (n.withPeriod f).isReset = n.isReset := by cases n <;> rfl

@[simp] theorem asAttack?_withPeriod : (n.withPeriod f).asAttack? = n.asAttack? := by
  cases n <;> rfl

@[simp] theorem asSubgoal?_withPeriod : (n.withPeriod f).asSubgoal? = n.asSubgoal? := by
  cases n <;> rfl

theorem asDefense?_withPeriod :
    (n.withPeriod f).asDefense? = n.asDefense?.map (Defense.withPeriod f) := by
  cases n <;> rfl

end Node

namespace Tree

/-- The tree in which the defenses of some names have other periods. -/
def withPeriods (t : Tree) : Tree where
  nodes := t.nodes.map (Node.withPeriod f)
  parents := t.parents
  names := t.names
  maxArity := t.maxArity
  child_lt := by
    intro id node hnode c hc
    rw [Array.getElem?_map] at hnode
    obtain ⟨n, hn, rfl⟩ := Option.map_eq_some_iff.1 hnode
    exact t.child_lt id n hn c (by simpa using hc)

variable (t : Tree)

/-! ## Looking up -/

@[simp] theorem size_withPeriods : (t.withPeriods f).size = t.size := Array.size_map

theorem node?_withPeriods (id : NodeId) :
    (t.withPeriods f).node? id = (t.node? id).map (Node.withPeriod f) := Array.getElem?_map

@[simp] theorem has_withPeriods : (t.withPeriods f).has = t.has := by
  funext id
  unfold has
  rw [size_withPeriods]

@[simp] theorem find?_withPeriods : (t.withPeriods f).find? = t.find? := rfl

@[simp] theorem name_withPeriods : (t.withPeriods f).name = t.name := by
  funext id
  simp [name, node?_withPeriods, Function.comp_def]

@[simp] theorem children_withPeriods : (t.withPeriods f).children = t.children := by
  funext id
  simp [children, node?_withPeriods, Function.comp_def]

@[simp] theorem defensesOf_withPeriods : (t.withPeriods f).defensesOf = t.defensesOf := by
  funext id
  simp [defensesOf, node?_withPeriods, Function.comp_def]

@[simp] theorem isReset_withPeriods : (t.withPeriods f).isReset = t.isReset := by
  funext id
  unfold isReset
  rw [node?_withPeriods]
  cases t.node? id <;> simp

@[simp] theorem parent?_withPeriods : (t.withPeriods f).parent? = t.parent? := rfl

@[simp] theorem attack?_withPeriods : (t.withPeriods f).attack? = t.attack? := by
  funext id
  unfold attack?
  rw [node?_withPeriods]
  cases t.node? id <;> simp

@[simp] theorem subgoal?_withPeriods : (t.withPeriods f).subgoal? = t.subgoal? := by
  funext id
  unfold subgoal?
  rw [node?_withPeriods]
  cases t.node? id <;> simp

theorem defense?_withPeriods (id : NodeId) :
    (t.withPeriods f).defense? id = (t.defense? id).map (Defense.withPeriod f) := by
  unfold defense?
  rw [node?_withPeriods]
  cases t.node? id with
  | none => rfl
  | some n => exact n.asDefense?_withPeriod f

@[simp] theorem isAttack_withPeriods : (t.withPeriods f).isAttack = t.isAttack := by
  funext id
  simp [isAttack]

@[simp] theorem isSubgoal_withPeriods : (t.withPeriods f).isSubgoal = t.isSubgoal := by
  funext id
  simp [isSubgoal]

@[simp] theorem isDefense_withPeriods : (t.withPeriods f).isDefense = t.isDefense := by
  funext id
  simp [isDefense, defense?_withPeriods]

@[simp] theorem wrongKind_withPeriods : (t.withPeriods f).wrongKind = t.wrongKind := by
  funext id expected
  unfold wrongKind
  rw [node?_withPeriods]
  cases t.node? id <;> simp

@[simp] theorem expectAttack_withPeriods : (t.withPeriods f).expectAttack = t.expectAttack := by
  funext id
  simp [expectAttack]

theorem expectDefense_withPeriods (id : NodeId) :
    (t.withPeriods f).expectDefense id = (t.expectDefense id).map (Defense.withPeriod f) := by
  unfold expectDefense
  rw [defense?_withPeriods, wrongKind_withPeriods]
  cases t.defense? id <;> rfl

/-! ## Walks -/

theorem depthFirstFrom_withPeriods (visited : Array NodeId) (stack : List NodeId) :
    (t.withPeriods f).depthFirstFrom visited stack = t.depthFirstFrom visited stack := by
  fun_induction t.depthFirstFrom visited stack with
  | case1 visited => rw [depthFirstFrom]
  | case2 visited id stack ih => rw [depthFirstFrom, children_withPeriods, ih]

@[simp] theorem depthFirst_withPeriods : (t.withPeriods f).depthFirst = t.depthFirst := by
  funext start
  rw [depthFirst, depthFirstFrom_withPeriods, depthFirst]

@[simp] theorem depthFirstWithDefenses_withPeriods :
    (t.withPeriods f).depthFirstWithDefenses = t.depthFirstWithDefenses := by
  funext start
  have hlisting : Listing.addNode (t.withPeriods f) = Listing.addNode t := by
    funext l id
    simp [Listing.addNode]
  simp [depthFirstWithDefenses, hlisting]

@[simp] theorem ancestors_withPeriods : (t.withPeriods f).ancestors = t.ancestors := by
  funext id
  fun_induction t.ancestors id with
  | case1 id hparent => rw [ancestors, parent?_withPeriods, hparent]
  | case2 id p hparent hlater ih =>
    rw [ancestors, parent?_withPeriods, hparent]
    simpa [hlater] using ih
  | case3 id p hparent hearlier =>
    rw [ancestors, parent?_withPeriods, hparent]
    simp [hearlier]

/-! ## Parents -/

@[simp] theorem conflict_withPeriods : (t.withPeriods f).conflict = t.conflict := by
  funext node parent other
  simp [conflict]

theorem adopt_withPeriods (parent : NodeId) (parents : Array (Option NodeId)) (l : List NodeId) :
    (t.withPeriods f).adopt parent parents l = t.adopt parent parents l := by
  induction l generalizing parents with
  | nil => rfl
  | cons c rest ih => simp only [adopt, ih, conflict_withPeriods, name_withPeriods]

theorem assignFrom_withPeriods (parents : Array (Option NodeId)) (stack : List NodeId) :
    (t.withPeriods f).assignFrom parents stack = t.assignFrom parents stack := by
  fun_induction t.assignFrom parents stack with
  | case1 parents => rw [assignFrom]
  | case2 parents id stack _ _ hadopt =>
    rw [assignFrom, adopt_withPeriods, children_withPeriods, hadopt]
  | case3 parents id stack _ hadopt ih =>
    rw [assignFrom, adopt_withPeriods, children_withPeriods, hadopt]
    exact ih

theorem setParents_withPeriods (root : NodeId) :
    (t.withPeriods f).setParents root =
      ((t.setParents root).1.withPeriods f, (t.setParents root).2) := by
  unfold setParents
  rw [has_withPeriods, parent?_withPeriods, conflict_withPeriods]
  have hassign := t.assignFrom_withPeriods f t.parents [root]
  split
  · rfl
  · cases t.parent? root with
    | some p => rfl
    | none => exact congrArg (fun a => ({ t.withPeriods f with parents := a.1 }, a.2)) hassign

/-! ## The same additions -/

@[simp] theorem subgoalOver_withPeriods :
    (t.withPeriods f).subgoalOver = t.subgoalOver := by
  funext name refinement members reset
  simp [subgoalOver]

variable {t} {t' : Tree} {f}

theorem insert_withPeriods {n : Node} {h : ∀ c ∈ n.children, c < t.size} {id : NodeId}
    (hok : t.insert n h = .ok (t', id))
    (h' : ∀ c ∈ (n.withPeriod f).children, c < (t.withPeriods f).size) :
    (t.withPeriods f).insert (n.withPeriod f) h' = .ok (t'.withPeriods f, id) := by
  obtain ⟨hname, hnew, rfl, rfl⟩ := insert_eq_ok.1 hok
  refine insert_eq_ok.2 ⟨by simpa using hname, by simpa using hnew, ?_, by simp⟩
  simp [withPeriods, withNode, size]

theorem addAttack_withPeriods {a : Attack} {id : NodeId} (hok : t.addAttack a = .ok (t', id)) :
    (t.withPeriods f).addAttack a = .ok (t'.withPeriods f, id) := by
  obtain ⟨hp, hdefenses, hinsert⟩ := addAttack_eq_ok.1 hok
  exact addAttack_eq_ok.2 ⟨hp, by simpa using hdefenses, insert_withPeriods hinsert _⟩

theorem addDefense_withPeriods (hf : ∀ name, f name ≠ some 0) {d : Defense} {id : NodeId}
    (hok : t.addDefense d = .ok (t', id)) :
    (t.withPeriods f).addDefense (d.withPeriod f) = .ok (t'.withPeriods f, id) := by
  obtain ⟨hp, hperiod, hinsert⟩ := addDefense_eq_ok.1 hok
  exact addDefense_eq_ok.2
    ⟨hp, d.period_withPeriod_ne_zero hf hperiod, insert_withPeriods hinsert _⟩

theorem addSubgoal_withPeriods {name : String} {refinement : Refinement} {members : List NodeId}
    {reset : Bool} {id : NodeId} (hok : t.addSubgoal name refinement members reset = .ok (t', id)) :
    (t.withPeriods f).addSubgoal name refinement members reset = .ok (t'.withPeriods f, id) := by
  obtain ⟨hmembers, hne, harity, hedge, hinsert⟩ := addSubgoal_eq_ok.1 hok
  refine addSubgoal_eq_ok.2 ?_
  simp only [subgoalOver_withPeriods]
  exact ⟨by simpa using hmembers, hne, harity, hedge, insert_withPeriods hinsert _⟩

/-- **Rebuilding.**  The tree can be built with the other periods as well. -/
theorem Built.withPeriods (hf : ∀ name, f name ≠ some 0) (ht : t.Built) :
    (t.withPeriods f).Built := by
  induction ht with
  | empty maxArity =>
    have hempty : (Tree.empty maxArity).withPeriods f = Tree.empty maxArity := by
      simp [Tree.withPeriods, Tree.empty]
    rw [hempty]
    exact .empty maxArity
  | attack _ hadd ih => exact ih.attack (addAttack_withPeriods hadd)
  | defense _ hadd ih => exact ih.defense (addDefense_withPeriods hf hadd)
  | subgoal _ hadd ih => exact ih.subgoal (addSubgoal_withPeriods hadd)
  | parents root _ ih =>
    have hparents := ih.parents root
    rwa [setParents_withPeriods] at hparents

end Tree

end AttackDefense
