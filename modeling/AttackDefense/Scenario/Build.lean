import AttackDefense.Scenario.Basic
import AttackDefense.Tree.Parents

/-!
# From a scenario to its tree

`Scenario.toTree` adds the declared defenses, then the nodes of the description, each subgoal behind
its children, and last assigns the parents below the root. The walk keeps what is still to do on a
stack of frames, and the nodes added but not yet taken by a subgoal on another.
-/

namespace AttackDefense.Scenario

/-- A number that fits into 32 bits. -/
def nonNegative (node field : String) (value : Int64) : Except Fault UInt32 :=
  let n := value.toInt
  if n < 0 then .error (.number (.negative node field n))
  else if UInt32.size ≤ n then .error (.number (.tooLarge node field n))
  else .ok (UInt32.ofNat n.toNat)

def addDefense (t : Tree) (d : DefenseSpec) : Except Fault (Tree × NodeId) := do
  let period ← nonNegative d.name "period" d.period
  let cost ← nonNegative d.name "cost" d.cost
  t.addDefense ⟨d.name, period, d.successProbability, cost⟩

/-- The defense of a name among the nodes added so far. -/
def resolve (t : Tree) (name : String) : Except Fault NodeId :=
  match t.find? name with
  | some id => .ok id
  | none => .error (.tree (.unknownName name))

def addAttack (t : Tree) (a : AttackSpec) : Except Fault (Tree × NodeId) := do
  let time ← nonNegative a.name "completion time" a.completionTime
  let activation ← a.activationCost.mapM (nonNegative a.name "activation cost")
  let proportional ← a.proportionalCost.mapM (nonNegative a.name "proportional cost")
  let defenses ← a.defenses.mapM (resolve t)
  t.addAttack ⟨a.name, time, a.successProbability, activation, proportional, defenses⟩

/-- What is still to do. -/
inductive Frame where
  /-- Add a node and everything below it. -/
  | enter (goal : Goal)
  /-- Add a subgoal over the last `count` nodes. -/
  | leave (name : String) (refinement : Refinement) (count : Nat) (reset : Bool)

mutual

/-- How many frames it takes to add a node and everything below it. -/
def Goal.frames : Goal → Nat
  | .attack _ | .defense _ => 1
  | .subgoal _ _ children _ => 2 + framesOf children

def framesOf : List Goal → Nat
  | [] => 0
  | g :: rest => g.frames + framesOf rest

end

def Frame.weight : Frame → Nat
  | .enter goal => goal.frames
  | .leave .. => 1

/-- The frames that add some nodes one after the other. -/
def enterAll (goals : List Goal) : List Frame := goals.map .enter

/-- How many frames it takes to work off a stack. -/
def stackWeight : List Frame → Nat
  | [] => 0
  | frame :: stack => frame.weight + stackWeight stack

theorem stackWeight_append (l m : List Frame) :
    stackWeight (l ++ m) = stackWeight l + stackWeight m := by
  induction l with
  | nil => simp [stackWeight]
  | cons frame l ih => simp [stackWeight, ih, Nat.add_assoc]

theorem framesOf_eq (goals : List Goal) : framesOf goals = stackWeight (enterAll goals) := by
  induction goals with
  | nil => rfl
  | cons g rest ih => simp [framesOf, enterAll, stackWeight, Frame.weight, ih]

/-- Works off a stack of frames; `added` holds the nodes without a subgoal so far, last one first. -/
def addFrames (t : Tree) (added : List NodeId) :
    List Frame → Except Fault (Tree × List NodeId)
  | [] => .ok (t, added)
  | .enter (.attack a) :: stack => do
    let (t, id) ← addAttack t a
    addFrames t (id :: added) stack
  | .enter (.defense d) :: stack => do
    let (t, id) ← addDefense t d
    addFrames t (id :: added) stack
  | .enter (.subgoal name refinement children reset) :: stack =>
    addFrames t added
      (enterAll children ++ .leave name refinement children.length reset :: stack)
  | .leave name refinement count reset :: stack => do
    let (t, id) ← t.addSubgoal name refinement (added.take count).reverse reset
    addFrames t (id :: added.drop count) stack
termination_by stack => stackWeight stack
decreasing_by
  · simp [stackWeight, Frame.weight, Goal.frames]
  · simp [stackWeight, Frame.weight, Goal.frames]
  · simp only [stackWeight_append, stackWeight, Frame.weight, Goal.frames, framesOf_eq]
    omega
  · simp [stackWeight, Frame.weight]

/-- The tree of a scenario and its root. -/
def toTree (s : Scenario) : Except Fault (Tree × NodeId) := do
  let arity := (s.maxArity.map UInt64.toNat).getD Tree.unboundedArity
  let t ← s.defenses.foldlM (fun t d => (addDefense t d).map Prod.fst) (Tree.empty arity)
  let (t, added) ← addFrames t [] [.enter s.root]
  match added with
  | [] => throw (.tree (.rootNotSubgoal ""))
  | root :: _ =>
    match t.setParents root with
    | (_, some fault) => throw fault
    | (t, none) => return (t, root)

end AttackDefense.Scenario
