import AttackDefense.Proofs.Except
import AttackDefense.Scenario.Build
import Mathlib.Logic.Relation

/-!
# The nested reading of a scenario

`Goal.addTo` adds a node by recursion over the description: first the children, one after the other,
then their subgoal over the numbers they got.  Working off the frame of a node does just that and
leaves its number on top of the nodes that wait for a subgoal:

    addFrames t added (.enter g :: stack) =
      g.addTo t >>= fun (t', id) => addFrames t' (id :: added) stack            (addFrames_enter)

The walk itself is a sequence of steps (`Step`) that cannot go on forever (`wellFounded_step`).
Entering promises one node, leaving takes as many as were promised (`Settles`): so a subgoal always
finds its children, and one node is left at the end.
-/

namespace AttackDefense.Scenario

open Relation

variable {t t' : Tree} {added added' : List NodeId} {stack : List Frame}

/-! ## Adding nodes by recursion -/

/-- The tree with the declared defenses only. -/
def declare (s : Scenario) : Except Fault Tree :=
  s.defenses.foldlM (fun t d => (addDefense t d).map Prod.fst)
    (Tree.empty ((s.maxArity.map UInt64.toNat).getD Tree.unboundedArity))

mutual

/-- Adds a node and everything below it. -/
def Goal.addTo (t : Tree) : Goal → Except Fault (Tree × NodeId)
  | .attack a => addAttack t a
  | .defense d => addDefense t d
  | .subgoal name refinement children reset => do
    let (t, ids) ← addGoals t children
    t.addSubgoal name refinement ids reset

/-- Adds some nodes and everything below them, one after the other. -/
def addGoals (t : Tree) : List Goal → Except Fault (Tree × List NodeId)
  | [] => .ok (t, [])
  | g :: rest => do
    let (t, id) ← g.addTo t
    let (t, ids) ← addGoals t rest
    return (t, id :: ids)

end

/-- The tree of a scenario and its root, by recursion over the description. -/
def nested (s : Scenario) : Except Fault (Tree × NodeId) := do
  let t ← s.declare
  let (t, root) ← s.root.addTo t
  return ((t.setParents root).1, root)

theorem addGoals_cons_eq_ok {g : Goal} {rest : List Goal} {ids : List NodeId} :
    addGoals t (g :: rest) = .ok (t', ids) ↔ ∃ t₁ id others, g.addTo t = .ok (t₁, id) ∧
      addGoals t₁ rest = .ok (t', others) ∧ id :: others = ids := by
  rw [addGoals]
  simp only [bind_eq_ok, Prod.exists]
  constructor
  · rintro ⟨t₁, id, hg, _, others, hrest, h⟩
    cases h
    exact ⟨t₁, id, others, hg, hrest, rfl⟩
  · rintro ⟨t₁, id, others, hg, hrest, rfl⟩
    exact ⟨t₁, id, hg, t', others, hrest, rfl⟩

theorem addTo_subgoal_eq_ok {name : String} {refinement : Refinement} {children : List Goal}
    {reset : Bool} {id : NodeId} :
    (Goal.subgoal name refinement children reset).addTo t = .ok (t', id) ↔
      ∃ t₁ ids, addGoals t children = .ok (t₁, ids) ∧
        t₁.addSubgoal name refinement ids reset = .ok (t', id) := by
  rw [Goal.addTo]
  simp only [bind_eq_ok, Prod.exists]

/-- Every node of a list gets a number. -/
theorem length_of_addGoals {goals : List Goal} {ids : List NodeId}
    (h : addGoals t goals = .ok (t', ids)) : ids.length = goals.length := by
  induction goals generalizing t ids with
  | nil =>
    cases h
    rfl
  | cons g rest ih =>
    obtain ⟨_, _, _, _, hrest, rfl⟩ := addGoals_cons_eq_ok.1 h
    rw [List.length_cons, List.length_cons, ih hrest]

/-! ## Frames and recursion -/

theorem take_reverse_append (ids added : List NodeId) :
    ((ids.reverse ++ added).take ids.length).reverse = ids := by
  rw [← List.length_reverse, List.take_left, List.reverse_reverse]

theorem drop_reverse_append (ids added : List NodeId) :
    (ids.reverse ++ added).drop ids.length = added := by
  rw [← List.length_reverse, List.drop_left]

mutual

/-- The frame of a node adds the node and everything below it. -/
theorem addFrames_enter (t : Tree) (added : List NodeId) (stack : List Frame) (g : Goal) :
    addFrames t added (.enter g :: stack) =
      g.addTo t >>= fun (t', id) => addFrames t' (id :: added) stack := by
  cases g with
  | attack a => rw [addFrames, Goal.addTo]
  | defense d => rw [addFrames, Goal.addTo]
  | subgoal name refinement children reset =>
    rw [addFrames, addFrames_enterAll, Goal.addTo, bind_assoc]
    apply bind_congr_ok
    rintro ⟨t', ids⟩ hids
    -- the children lie on top, last one first, and there are as many as the frame takes
    dsimp only
    rw [addFrames, ← length_of_addGoals hids, take_reverse_append, drop_reverse_append]

/-- The frames of some nodes add them one after the other. -/
theorem addFrames_enterAll (t : Tree) (added : List NodeId) (stack : List Frame)
    (goals : List Goal) :
    addFrames t added (enterAll goals ++ stack) =
      addGoals t goals >>= fun (t', ids) => addFrames t' (ids.reverse ++ added) stack := by
  cases goals with
  | nil => rfl
  | cons g rest =>
    have hcons : enterAll (g :: rest) ++ stack = .enter g :: (enterAll rest ++ stack) := rfl
    rw [hcons, addFrames_enter, addGoals, bind_assoc]
    apply bind_congr_ok
    rintro ⟨t', id⟩ _
    dsimp only
    rw [addFrames_enterAll, bind_assoc]
    apply bind_congr_ok
    rintro ⟨t'', ids⟩ _
    rw [pure_bind, List.reverse_cons, List.append_assoc]
    rfl

end

/-! ## Steps of the walk -/

/-- Where the walk stands: the tree so far, the nodes without a subgoal, and what is still to do. -/
structure Stage where
  tree : Tree
  added : List NodeId
  stack : List Frame

/-- One frame is worked off. -/
inductive Step : Stage → Stage → Prop
  | attack {t t' : Tree} {id : NodeId} {added : List NodeId} {stack : List Frame} {a : AttackSpec} :
    addAttack t a = .ok (t', id) →
    Step ⟨t, added, .enter (.attack a) :: stack⟩ ⟨t', id :: added, stack⟩
  | defense {t t' : Tree} {id : NodeId} {added : List NodeId} {stack : List Frame}
    {d : DefenseSpec} :
    addDefense t d = .ok (t', id) →
    Step ⟨t, added, .enter (.defense d) :: stack⟩ ⟨t', id :: added, stack⟩
  | enter {t : Tree} {added : List NodeId} {stack : List Frame} {name : String}
    {refinement : Refinement} {children : List Goal} {reset : Bool} :
    Step ⟨t, added, .enter (.subgoal name refinement children reset) :: stack⟩
      ⟨t, added, enterAll children ++ .leave name refinement children.length reset :: stack⟩
  | leave {t t' : Tree} {id : NodeId} {added : List NodeId} {stack : List Frame} {name : String}
    {refinement : Refinement} {count : Nat} {reset : Bool} :
    t.addSubgoal name refinement (added.take count).reverse reset = .ok (t', id) →
    Step ⟨t, added, .leave name refinement count reset :: stack⟩
      ⟨t', id :: added.drop count, stack⟩

/-- The frame on top cannot be worked off. -/
inductive Refused : Stage → Fault → Prop
  | attack {t : Tree} {added : List NodeId} {stack : List Frame} {a : AttackSpec} {fault : Fault} :
    addAttack t a = .error fault → Refused ⟨t, added, .enter (.attack a) :: stack⟩ fault
  | defense {t : Tree} {added : List NodeId} {stack : List Frame} {d : DefenseSpec}
    {fault : Fault} :
    addDefense t d = .error fault → Refused ⟨t, added, .enter (.defense d) :: stack⟩ fault
  | leave {t : Tree} {added : List NodeId} {stack : List Frame} {name : String}
    {refinement : Refinement} {count : Nat} {reset : Bool} {fault : Fault} :
    t.addSubgoal name refinement (added.take count).reverse reset = .error fault →
    Refused ⟨t, added, .leave name refinement count reset :: stack⟩ fault

variable {w w' : Stage}

/-- There is no endless walk, since a step leaves less to do. -/
theorem wellFounded_step : WellFounded fun after before => Step before after := by
  refine Subrelation.wf ?_ (measure fun w : Stage => stackWeight w.stack).wf
  intro after before h
  show stackWeight after.stack < stackWeight before.stack
  cases h with
  | attack _ | defense _ => simp [stackWeight, Frame.weight, Goal.frames]
  | leave _ => simp [stackWeight, Frame.weight]
  | enter =>
    simp only [stackWeight_append, stackWeight, Frame.weight, Goal.frames, framesOf_eq]
    omega

/-- A walk that gives a tree has worked off all frames. -/
theorem steps_of_addFrames (h : addFrames t added stack = .ok (t', added')) :
    ReflTransGen Step ⟨t, added, stack⟩ ⟨t', added', []⟩ := by
  fun_induction addFrames t added stack with
  | case1 t added =>
    cases h
    exact .refl
  | case2 t added a stack ih =>
    obtain ⟨⟨t₁, id⟩, hadd, h⟩ := bind_eq_ok.1 h
    exact .head (.attack hadd) (ih t₁ id h)
  | case3 t added d stack ih =>
    obtain ⟨⟨t₁, id⟩, hadd, h⟩ := bind_eq_ok.1 h
    exact .head (.defense hadd) (ih t₁ id h)
  | case4 t added name refinement children reset stack ih => exact .head .enter (ih h)
  | case5 t added name refinement count reset stack ih =>
    obtain ⟨⟨t₁, id⟩, hadd, h⟩ := bind_eq_ok.1 h
    exact .head (.leave hadd) (ih t₁ id h)

/-- A walk that is refused is so at the first frame that cannot be worked off. -/
theorem refused_of_addFrames {fault : Fault} (h : addFrames t added stack = .error fault) :
    ∃ w, ReflTransGen Step ⟨t, added, stack⟩ w ∧ Refused w fault := by
  fun_induction addFrames t added stack with
  | case1 t added => cases h
  | case2 t added a stack ih =>
    rcases bind_eq_error.1 h with hadd | ⟨⟨t₁, id⟩, hadd, h⟩
    · exact ⟨_, .refl, .attack hadd⟩
    · obtain ⟨w, hsteps, hw⟩ := ih t₁ id h
      exact ⟨w, .head (.attack hadd) hsteps, hw⟩
  | case3 t added d stack ih =>
    rcases bind_eq_error.1 h with hadd | ⟨⟨t₁, id⟩, hadd, h⟩
    · exact ⟨_, .refl, .defense hadd⟩
    · obtain ⟨w, hsteps, hw⟩ := ih t₁ id h
      exact ⟨w, .head (.defense hadd) hsteps, hw⟩
  | case4 t added name refinement children reset stack ih =>
    obtain ⟨w, hsteps, hw⟩ := ih h
    exact ⟨w, .head .enter hsteps, hw⟩
  | case5 t added name refinement count reset stack ih =>
    rcases bind_eq_error.1 h with hadd | ⟨⟨t₁, id⟩, hadd, h⟩
    · exact ⟨_, .refl, .leave hadd⟩
    · obtain ⟨w, hsteps, hw⟩ := ih t₁ id h
      exact ⟨w, .head (.leave hadd) hsteps, hw⟩

/-! ## Nodes at hand -/

/-- With so many nodes at hand, every subgoal finds its children, and one node is left at the end.
-/
def Settles : Nat → List Frame → Prop
  | n, [] => n = 1
  | n, .enter _ :: stack => Settles (n + 1) stack
  | n, .leave _ _ count _ :: stack => count ≤ n ∧ Settles (n - count + 1) stack

theorem settles_enterAll {n : Nat} {goals : List Goal} :
    Settles n (enterAll goals ++ stack) ↔ Settles (n + goals.length) stack := by
  induction goals generalizing n with
  | nil => rfl
  | cons g rest ih =>
    have hcons : Settles n (enterAll (g :: rest) ++ stack) ↔
        Settles (n + 1) (enterAll rest ++ stack) := Iff.rfl
    rw [hcons, ih, List.length_cons, Nat.add_assoc, Nat.add_comm 1]

/-- A step leaves the count in order. -/
theorem Step.settles (h : Step w w') (hw : Settles w.added.length w.stack) :
    Settles w'.added.length w'.stack := by
  cases h with
  | attack _ | defense _ => exact hw
  | enter =>
    -- entering promises one node; its children are taken again before it is added
    rw [settles_enterAll, Settles, Nat.add_sub_cancel]
    exact ⟨Nat.le_add_left _ _, hw⟩
  | leave _ =>
    rw [List.length_cons, List.length_drop]
    exact hw.2

/-- The count is in order all along the walk. -/
theorem settles_of_steps {g : Goal} (h : ReflTransGen Step ⟨t, [], [.enter g]⟩ w) :
    Settles w.added.length w.stack := by
  induction h with
  | refl => rfl
  | tail _ hstep ih => exact hstep.settles ih

end AttackDefense.Scenario
