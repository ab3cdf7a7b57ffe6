import AttackDefense.Proofs.Scenario.Nested
import AttackDefense.Proofs.Scenario.Nodes
import AttackDefense.Proofs.Tree.Forest
import AttackDefense.Proofs.Tree.Refusals

/-!
# The tree of a scenario

All along the walk the nodes added form a forest, whose roots are the nodes without a subgoal so far
(`Step.forest`).  So every number that is handed on is a node, no subgoal gets a child that another
one has, and the parents can be assigned.  What is left to refuse are numbers, names, numbers of
children, and defenses that are none (`Refused.not_foreign`).  And the walk gives just what the
recursion over the description gives:

    s.toTree = s.nested                                                            (toTree_eq)
-/

namespace AttackDefense.Scenario

open Relation

variable {s : Scenario} {t t' : Tree} {id root : NodeId} {added : List NodeId} {fault : Fault}
  {w w' : Stage}

/-! ## The forest of the walk -/

/-- A defense that is declared waits for no subgoal. -/
theorem forest_of_addDefense (ht : t.Forest []) {d : DefenseSpec}
    (h : addDefense t d = .ok (t', id)) : t'.Forest [] := by
  obtain ⟨defense, _, h⟩ := addDefense_eq_ok.1 h
  refine (ht.addDefense h).dropDefense (Tree.isDefense_iff.2 ⟨defense, ?_⟩)
  obtain ⟨_, _, rfl, rfl⟩ := Tree.insert_eq_ok.1 (Tree.addDefense_eq_ok.1 h).2.2
  rw [Tree.node?_withNode, if_pos rfl]

theorem forest_of_declare (h : s.declare = .ok t) : t.Forest [] := by
  unfold declare at h
  have hempty := Tree.forest_empty ((s.maxArity.map UInt64.toNat).getD Tree.unboundedArity)
  -- the induction is on the defenses left, from whatever tree holds the ones before
  generalize Tree.empty _ = start at h hempty
  generalize s.defenses = ds at h
  induction ds generalizing start with
  | nil =>
    cases h
    exact hempty
  | cons d ds ih =>
    obtain ⟨t₁, hmap, h⟩ := bind_eq_ok.1 (List.foldlM_cons.symm.trans h)
    obtain ⟨⟨t₁, id⟩, hadd, rfl⟩ := map_eq_ok.1 hmap
    exact ih t₁ (forest_of_addDefense hempty hadd) h

/-- **Step.**  The nodes without a subgoal are the roots of the forest. -/
theorem Step.forest (h : Step w w') (hw : w.tree.Forest w.added) : w'.tree.Forest w'.added := by
  cases h with
  | attack hadd =>
    obtain ⟨_, _, hadd⟩ := addAttack_eq_ok.1 hadd
    exact hw.addAttack hadd
  | defense hadd =>
    obtain ⟨_, _, hadd⟩ := addDefense_eq_ok.1 hadd
    exact hw.addDefense hadd
  | enter => exact hw
  | @leave t t' id added stack name refinement count reset hadd =>
    have hsplit : t.Forest (added.take count ++ added.drop count) := by
      rwa [List.take_append_drop]
    exact hsplit.addSubgoal hadd

/-! ## What can be refused -/

/-- Faults that a description cannot cause: a node below two subgoals, a number that is no node, and
a root that is missing. -/
def Foreign : Fault → Prop
  | .tree (.conflictingParent ..) | .tree (.unknownNode _) | .tree (.rootNotSubgoal _) => True
  | _ => False

theorem not_foreign_of_nonNegative {node field : String} {value : Int64}
    (h : nonNegative node field value = .error fault) : ¬ Foreign fault := by
  rcases nonNegative_eq_error.1 h with ⟨_, rfl⟩ | ⟨_, rfl⟩
  all_goals exact not_false

theorem not_foreign_of_insert {node : Node} {hlt : ∀ c ∈ node.children, c < t.size}
    (h : t.insert node hlt = .error fault) : ¬ Foreign fault := by
  rcases Tree.insert_eq_error.1 h with ⟨_, rfl⟩ | ⟨_, _, rfl⟩
  all_goals exact not_false

theorem not_foreign_of_addDefense {d : DefenseSpec} (h : addDefense t d = .error fault) :
    ¬ Foreign fault := by
  rcases addDefense_eq_error.1 h with hperiod | ⟨_, hcost⟩ | ⟨_, _, h⟩
  · exact not_foreign_of_nonNegative hperiod
  · exact not_foreign_of_nonNegative hcost
  · rcases Tree.addDefense_eq_error.1 h with ⟨_, rfl⟩ | ⟨_, _, rfl⟩ | ⟨_, _, h⟩
    · exact not_false
    · exact not_false
    · exact not_foreign_of_insert h

/-- A node of another kind is refused by its name. -/
theorem not_foreign_wrongKind {node : Node} (hnode : t.node? id = some node) (expected : String) :
    ¬ Foreign (t.wrongKind id expected) := by
  rw [Tree.wrongKind, hnode]
  exact not_false

theorem not_foreign_of_addAttack (hs : t.Sound) {a : AttackSpec}
    (h : addAttack t a = .error fault) : ¬ Foreign fault := by
  rcases addAttack_eq_error.1 h with htime | ⟨_, _, _, hactivation⟩ | ⟨_, _, _, _, hrate⟩ |
    ⟨_, _, _, _, _, _, _, _, _, rfl⟩ | ⟨attack, hattack, h⟩
  · exact not_foreign_of_nonNegative htime
  · exact not_foreign_of_nonNegative hactivation
  · exact not_foreign_of_nonNegative hrate
  · exact not_false
  · rcases Tree.addAttack_eq_error.1 h with ⟨_, rfl⟩ | ⟨_, before, d, after, hsplit, _, _, rfl⟩ |
      ⟨_, _, h⟩
    · exact not_false
    · -- the number was found by a name, so it is that of a node
      have hd : d ∈ attack.defenses := by simp [hsplit]
      obtain ⟨name, _, hfind⟩ := exists_of_mem_right hattack.defenses hd
      obtain ⟨node, hnode, _⟩ := (hs.find?_iff name d).1 hfind
      exact not_foreign_wrongKind hnode _
    · exact not_foreign_of_insert h

theorem not_foreign_of_addSubgoal {name : String} {refinement : Refinement}
    {members : List NodeId} {reset : Bool} (hmembers : ∀ x ∈ members, x < t.size)
    (h : t.addSubgoal name refinement members reset = .error fault) : ¬ Foreign fault := by
  rcases Tree.addSubgoal_eq_error.1 h with ⟨before, x, after, rfl, _, hx, _⟩ |
    ⟨_, ⟨_, rfl⟩ | ⟨_, ⟨_, rfl⟩ | ⟨_, h⟩⟩⟩
  · exact absurd (decide_eq_true (hmembers x (by simp))) hx
  · exact not_false
  · exact not_false
  · exact not_foreign_of_insert h

theorem not_foreign_of_declare (h : s.declare = .error fault) : ¬ Foreign fault := by
  unfold declare at h
  generalize Tree.empty _ = start at h
  generalize s.defenses = ds at h
  induction ds generalizing start with
  | nil => cases h
  | cons d ds ih =>
    rcases bind_eq_error.1 (List.foldlM_cons.symm.trans h) with hadd | ⟨t₁, _, h⟩
    · exact not_foreign_of_addDefense (map_eq_error.1 hadd)
    · exact ih t₁ h

/-- Over a forest no node is refused for a number that is handed on. -/
theorem Refused.not_foreign (h : Refused w fault) (hw : w.tree.Forest w.added) :
    ¬ Foreign fault := by
  cases h with
  | attack hadd => exact not_foreign_of_addAttack hw.built.sound hadd
  | defense hadd => exact not_foreign_of_addDefense hadd
  | leave hadd =>
    refine not_foreign_of_addSubgoal (fun x hx => hw.has x ?_) hadd
    exact List.mem_of_mem_take (List.mem_reverse.1 hx)

/-! ## The whole walk -/

/-- The walk of a scenario comes past a stage. -/
def Passes (s : Scenario) (w : Stage) : Prop :=
  ∃ t, s.declare = .ok t ∧ ReflTransGen Step ⟨t, [], [.enter s.root]⟩ w

theorem Passes.forest (h : s.Passes w) : w.tree.Forest w.added := by
  obtain ⟨t, ht, hsteps⟩ := h
  induction hsteps with
  | refl => exact forest_of_declare ht
  | tail _ hstep ih => exact hstep.forest ih

theorem Passes.settles (h : s.Passes w) : Settles w.added.length w.stack := by
  obtain ⟨_, _, hsteps⟩ := h
  exact settles_of_steps hsteps

theorem addFrames_single (t : Tree) (added : List NodeId) (g : Goal) :
    addFrames t added [.enter g] = (g.addTo t).map fun (t', id) => (t', id :: added) := by
  rw [addFrames_enter]
  cases g.addTo t with
  | error e => rfl
  | ok r =>
    obtain ⟨t', id⟩ := r
    exact addFrames.eq_1 t' (id :: added)

/-- Adding the root by recursion ends where the walk does. -/
theorem passes_of_addTo (ht : s.declare = .ok t) (h : s.root.addTo t = .ok (t', root)) :
    s.Passes ⟨t', [root], []⟩ := by
  refine ⟨t, ht, steps_of_addFrames ?_⟩
  rw [addFrames_single, h]
  rfl

theorem refused_of_addTo (ht : s.declare = .ok t) (h : s.root.addTo t = .error fault) :
    ∃ w, s.Passes w ∧ Refused w fault := by
  have hframes : addFrames t [] [.enter s.root] = .error fault := by
    rw [addFrames_single, h]
    rfl
  obtain ⟨w, hsteps, hw⟩ := refused_of_addFrames hframes
  exact ⟨w, ⟨t, ht, hsteps⟩, hw⟩

theorem nested_eq_ok : s.nested = .ok (t, root) ↔ ∃ t₀ t', s.declare = .ok t₀ ∧
    s.root.addTo t₀ = .ok (t', root) ∧ t = (t'.setParents root).1 := by
  unfold nested
  simp only [bind_eq_ok, Prod.exists]
  constructor
  · rintro ⟨t₀, ht₀, t', root', hadd, h⟩
    cases h
    exact ⟨t₀, t', ht₀, hadd, rfl⟩
  · rintro ⟨t₀, t', ht₀, hadd, rfl⟩
    exact ⟨t₀, ht₀, t', root, hadd, rfl⟩

theorem refused_of_nested (h : s.nested = .error fault) :
    s.declare = .error fault ∨ ∃ w, s.Passes w ∧ Refused w fault := by
  rcases bind_eq_error.1 h with hdeclare | ⟨t, ht, h⟩
  · exact .inl hdeclare
  · rcases bind_eq_error.1 h with hadd | ⟨_, _, h⟩
    · exact .inr (refused_of_addTo ht hadd)
    · cases h

/-- The walk and the recursion agree. -/
theorem toTree_eq (s : Scenario) : s.toTree = s.nested := by
  apply bind_congr_ok (x := s.declare)
  intro t ht
  rw [addFrames_single]
  cases hadd : s.root.addTo t with
  | error e => rfl
  | ok r =>
    obtain ⟨t', root⟩ := r
    have hforest : t'.Forest [root] := (passes_of_addTo ht hadd).forest
    have hnone := hforest.setParents_eq_none (List.mem_singleton_self root)
    have hsplit : t'.setParents root = ((t'.setParents root).1, none) := Prod.ext rfl hnone
    simp only [Except.map, bind, Except.bind]
    rw [hsplit]

/-- **A scenario is read as it is nested.**  For every scenario the walk over frames gives the same
tree with the same numbers as the recursion over the description, or is refused with the same first
fault.  It ends: no sequence of steps is endless, and it comes to the last stage or to a frame that
is refused.  Whenever a subgoal is added there are at least as many nodes waiting as it takes, and
exactly one waits at the end.  In the tree no subgoal has a member twice, and the parents assigned
are just the subgoals.  And no description is refused for a second parent, a number that is no node,
or a missing root. -/
theorem toTree_eq_nested (s : Scenario) :
    s.toTree = s.nested ∧
    WellFounded (fun after before => Step before after) ∧
    (∀ w, s.Passes w →
      (∀ name refinement count reset stack,
        w.stack = .leave name refinement count reset :: stack → count ≤ w.added.length) ∧
      (w.stack = [] → ∃ root, w.added = [root])) ∧
    (∀ t root, s.toTree = .ok (t, root) →
      (∃ t', s.Passes ⟨t', [root], []⟩ ∧ t'.setParents root = (t, none)) ∧
      (∀ p sub, t.subgoal? p = some sub → (sub.children ++ sub.defenses).Nodup) ∧
      ∀ c p, t.parent? c = some p ↔ c ∈ t.children p) ∧
    ∀ fault, s.toTree = .error fault →
      (s.declare = .error fault ∨ ∃ w, s.Passes w ∧ Refused w fault) ∧
      (∀ node parent other, fault ≠ .tree (.conflictingParent node parent other)) ∧
      (∀ id, fault ≠ .tree (.unknownNode id)) ∧
      ∀ root, fault ≠ .tree (.rootNotSubgoal root) := by
  refine ⟨toTree_eq s, wellFounded_step, fun w hw => ⟨?_, ?_⟩, ?_, ?_⟩
  · intro name refinement count reset stack hstack
    have hsettles := hw.settles
    rw [hstack] at hsettles
    exact hsettles.1
  · intro hstack
    have hsettles := hw.settles
    rw [hstack] at hsettles
    exact List.length_eq_one_iff.1 hsettles
  · intro t root h
    rw [toTree_eq] at h
    obtain ⟨t₀, t', ht₀, hadd, rfl⟩ := nested_eq_ok.1 h
    have hpasses := passes_of_addTo ht₀ hadd
    have hforest : t'.Forest [root] := hpasses.forest
    refine ⟨⟨t', hpasses, ?_⟩, ?_, fun c p => hforest.parent?_setParents_iff⟩
    · exact Prod.ext rfl (hforest.setParents_eq_none (List.mem_singleton_self root))
    · intro p sub hsub
      rw [Tree.subgoal?_eq_some, Tree.node?_setParents, ← Tree.subgoal?_eq_some] at hsub
      exact hforest.distinct p sub hsub
  · intro fault h
    rw [toTree_eq] at h
    have hrefused := refused_of_nested h
    have hforeign : ¬ Foreign fault := by
      rcases hrefused with hdeclare | ⟨w, hpasses, hw⟩
      · exact not_foreign_of_declare hdeclare
      · exact hw.not_foreign hpasses.forest
    refine ⟨hrefused, ?_, ?_, ?_⟩
    · rintro _ _ _ rfl
      exact hforeign trivial
    · rintro _ rfl
      exact hforeign trivial
    · rintro _ rfl
      exact hforeign trivial

def lockSpec : DefenseSpec := ⟨"lock", 5, ⟨0x3fe0000000000000⟩, 1⟩

def forceSpec : AttackSpec := ⟨"force", 3, ⟨0x3fe0000000000000⟩, some 1, none, ["lock"]⟩

def barsSpec : DefenseSpec := ⟨"bars", 7, ⟨0x3fe0000000000000⟩, 2⟩

def climbSpec : AttackSpec := ⟨"climb", 4, ⟨0x3fe0000000000000⟩, none, some 2, ["bars", "lock"]⟩

def window : Goal := .subgoal "window" .and [.defense barsSpec, .attack climbSpec] false

/-- A shed is forced open or entered by its window.  The lock is declared ahead and the bars of the
window inline; the attacks name what guards them. -/
def shed : Scenario where
  defenses := [lockSpec]
  root := .subgoal "shed" .or [.attack forceSpec, window] false
  maxArity := none

def lock : Defense := ⟨"lock", 5, ⟨0x3fe0000000000000⟩, 1⟩

def force : Attack := ⟨"force", 3, ⟨0x3fe0000000000000⟩, some 1, none, [0]⟩

def bars : Defense := ⟨"bars", 7, ⟨0x3fe0000000000000⟩, 2⟩

def climb : Attack := ⟨"climb", 4, ⟨0x3fe0000000000000⟩, none, some 2, [2, 0]⟩

def lockTree : Tree := Tree.empty.withNode (.defense lock) (Tree.children_defense_lt _ lock)

def forceTree : Tree := lockTree.withNode (.attack force) (Tree.children_attack_lt _ force)

def barsTree : Tree := forceTree.withNode (.defense bars) (Tree.children_defense_lt _ bars)

def climbTree : Tree := barsTree.withNode (.attack climb) (Tree.children_attack_lt _ climb)

def windowTree : Tree :=
  climbTree.withNode (.subgoal (climbTree.subgoalOver "window" .and [2, 3] false))
    fun _ h => Tree.children_subgoalOver_lt h

def shedTree : Tree :=
  windowTree.withNode (.subgoal (windowTree.subgoalOver "shed" .or [1, 4] false))
    fun _ h => Tree.children_subgoalOver_lt h

/-- What is found by a name while the shed is built. -/
theorem find?_shed (name : String) :
    lockTree.find? name = (if "lock" = name then some 0 else none) ∧
    forceTree.find? name = (if "force" = name then some 1 else lockTree.find? name) ∧
    barsTree.find? name = (if "bars" = name then some 2 else forceTree.find? name) ∧
    climbTree.find? name = (if "climb" = name then some 3 else barsTree.find? name) ∧
    windowTree.find? name = (if "window" = name then some 4 else climbTree.find? name) := by
  refine ⟨?_, Tree.find?_withNode _ _, Tree.find?_withNode _ _, Tree.find?_withNode _ _,
    Tree.find?_withNode _ _⟩
  exact (Tree.find?_withNode _ _).trans (by rw [Tree.find?_empty]; rfl)

theorem addTo_window : window.addTo forceTree = .ok (windowTree, 4) := by
  have hbars : Goal.addTo forceTree (.defense barsSpec) = .ok (barsTree, 2) := by
    refine addDefense_eq_ok.2 ⟨bars, ⟨rfl, rfl, rfl, rfl⟩,
      Tree.addDefense_of_new (by decide) (by decide) (by decide) ?_⟩
    simp [find?_shed, bars]
  have hclimb : Goal.addTo barsTree (.attack climbSpec) = .ok (climbTree, 3) := by
    refine addAttack_eq_ok.2 ⟨climb, ⟨rfl, rfl, rfl, rfl, rfl, ?_⟩,
      Tree.addAttack_of_new (by decide) (by decide) (by decide) ?_⟩
    all_goals simp [find?_shed, climbSpec, climb]
  have hmembers : addGoals forceTree [.defense barsSpec, .attack climbSpec] =
      .ok (climbTree, [2, 3]) :=
    addGoals_cons_eq_ok.2 ⟨_, _, _, hbars, addGoals_cons_eq_ok.2 ⟨_, _, _, hclimb, rfl, rfl⟩, rfl⟩
  refine addTo_subgoal_eq_ok.2 ⟨climbTree, [2, 3], hmembers, Tree.addSubgoal_of_new
    (by decide) (by decide) (by decide) (by decide) (by decide) ?_⟩
  simp [find?_shed]

theorem nested_shed : shed.nested = .ok ((shedTree.setParents 5).1, 5) := by
  have hlock : addDefense Tree.empty lockSpec = .ok (lockTree, 0) :=
    addDefense_eq_ok.2 ⟨lock, ⟨rfl, rfl, rfl, rfl⟩,
      Tree.addDefense_of_new (by decide) (by decide) (by decide) (Tree.find?_empty _ _)⟩
  have hdeclare : shed.declare = .ok lockTree :=
    bind_eq_ok.2 ⟨lockTree, map_eq_ok.2 ⟨_, hlock, rfl⟩, rfl⟩
  have hforce : Goal.addTo lockTree (.attack forceSpec) = .ok (forceTree, 1) := by
    refine addAttack_eq_ok.2 ⟨force, ⟨rfl, rfl, rfl, rfl, rfl, ?_⟩,
      Tree.addAttack_of_new (by decide) (by decide) (by decide) ?_⟩
    all_goals simp [find?_shed, forceSpec, force]
  have hmembers : addGoals lockTree [.attack forceSpec, window] = .ok (windowTree, [1, 4]) :=
    addGoals_cons_eq_ok.2
      ⟨_, _, _, hforce, addGoals_cons_eq_ok.2 ⟨_, _, _, addTo_window, rfl, rfl⟩, rfl⟩
  refine nested_eq_ok.2 ⟨lockTree, shedTree, hdeclare, addTo_subgoal_eq_ok.2 ⟨windowTree, [1, 4],
    hmembers, Tree.addSubgoal_of_new (by decide) (by decide) (by decide) (by decide) (by decide) ?_⟩,
    rfl⟩
  simp [find?_shed]

/-- The six nodes of the shed with their numbers, and what the parents are. -/
theorem toTree_eq_nested_shed :
    ∃ t, shed.toTree = .ok (t, 5) ∧
      (∀ id, t.node? id = [.defense lock, .attack force, .defense bars, .attack climb,
        .subgoal ⟨"window", .and, [3], [], [2], false⟩,
        .subgoal ⟨"shed", .or, [1], [4], [], false⟩][id]?) ∧
      t.parent? 1 = some 5 ∧ t.parent? 3 = some 4 ∧ t.parent? 4 = some 5 ∧ t.parent? 5 = none := by
  obtain ⟨heq, _, _, htree, _⟩ := toTree_eq_nested shed
  have hok : shed.toTree = .ok ((shedTree.setParents 5).1, 5) := heq.trans nested_shed
  obtain ⟨_, _, hparent⟩ := htree _ _ hok
  have hchild : ∀ c p, c ∈ shedTree.children p → (shedTree.setParents 5).1.parent? c = some p := by
    intro c p hc
    rw [hparent, Tree.children_setParents]
    exact hc
  refine ⟨_, hok, fun id => ?_, hchild 1 5 (by decide), hchild 3 4 (by decide),
    hchild 4 5 (by decide), Tree.parent?_root_setParents (by decide +kernel)⟩
  rw [Tree.node?_setParents, Tree.node?, ← Array.getElem?_toList]
  rfl

end AttackDefense.Scenario
