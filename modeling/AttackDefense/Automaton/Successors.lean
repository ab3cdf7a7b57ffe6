import AttackDefense.Automaton.Edge
import AttackDefense.Graph.Reset

/-!
# Successors of a state

`makeState` normalizes a configuration and makes the state of a phase around it; it refuses a phase
that is about an attack or a defense that normalization has taken away. `successors` is the table of
moves: which moves leave a state, in order, and where each leads.

| phase | moves |
|---|---|
| deciding | for each available attack start it, or first pay for it; wait, if anything can happen |
| paying | the attack starts |
| waiting | each attack underway finishes; each defense strikes, or idles when out of scope |
| attempting, resetting | success and failure |
-/

namespace AttackDefense.Graph

open Decimal

/-- A key with node names. -/
def keyName (g : Graph) (k : StateKey) : String :=
  let names (ids : List NodeId) : String := "[" ++ ", ".intercalate (ids.map g.name) ++ "]"
  let node := match k.phase.node? with
    | some id => "[" ++ g.name id ++ "]"
    | none => ""
  k.phase.tag ++ node ++ "(activated: " ++ names k.activated ++ ", completed: " ++
    names k.completed ++ ")"

/-- The node that a phase is about but the canonical configuration no longer has. -/
def reducedAway? (g : Graph) (phase : Phase) (c : Configuration) (active : List NodeId) :
    Option NodeId :=
  match phase with
  | .attempting a => if a ∈ c.activated then none else some a
  | .paying a => if g.isAvailable c a then none else some a
  | .resetting d => if d ∈ active then none else some d
  | .deciding | .waiting => none

/-- The key of a phase and a canonical configuration. -/
def keyOf (g : Graph) (phase : Phase) (c : Configuration) : StateKey :=
  ⟨phase, g.sortedByName c.activated.toList, g.sortedByName c.completed.toList⟩

/-- The state of a phase around the canonical form of a configuration. -/
def makeState (g : Graph) (phase : Phase) (c : Configuration) : Except Fault State :=
  let c := g.normalize c
  let active := g.activeDefenses c
  match g.reducedAway? phase c active with
  | some node => .error (.state (.reducedAway phase.tag (g.name node)))
  | none =>
    match c.activated.toList.find? (· ∈ c.completed) with
    | some a => .error (.state (.activatedAndCompleted (g.name a)))
    | none =>
      .ok {
        key := g.keyOf phase c
        accepting := phase == .deciding && g.isAccepting c
        initial := phase == .deciding && c.isEmpty
        activeDefenses := active }

/-- Where a move leads. -/
inductive Target where
  | state (s : State)
  /-- Back to where it came from. -/
  | itself
deriving DecidableEq, Repr

/-- A move to the state of a phase and a configuration. -/
def moveTo (g : Graph) (move : Move) (phase : Phase) (c : Configuration) :
    Except Fault (Target × Move) :=
  (g.makeState phase c).map fun s => (.state s, move)

/-- The move that an available attack begins with. -/
def startAttack (g : Graph) (c : Configuration) (a : NodeId) : Except Fault (Target × Move) := do
  let attack ← g.tree.expectAttack a
  if attack.hasActivationCost then g.moveTo (.pay a) (.paying a) c
  else g.moveTo (.start a) .deciding (c.activate a)

/-- The end of the completion time of an attack. A certain success needs no branch point. -/
def finishAttack (g : Graph) (c : Configuration) (a : NodeId) : Except Fault (Target × Move) := do
  let attack ← g.tree.expectAttack a
  if attack.successProbability ≠ .one then g.moveTo (.finish a) (.attempting a) c
  else g.moveTo (.finish a) .deciding (c.complete a)

/-- The end of the period of a defense, given those in scope. -/
def strikeDefense (g : Graph) (c : Configuration) (active : List NodeId) (d : NodeId) :
    Except Fault (Target × Move) := do
  if d ∉ active then return (.itself, .idle d)
  let defense ← g.tree.expectDefense d
  if defense.successProbability ≠ .one then g.moveTo (.strike d) (.resetting d) c
  else g.moveTo (.strike d) .deciding (g.applyDefense d c)

/-- The moves that leave a state, each with its target. -/
def successors (g : Graph) (s : State) : Except Fault (List (Target × Move)) := do
  let c := s.configuration
  match s.phase with
  | .deciding =>
    let starts ← (g.availableAttacks c).mapM (g.startAttack c)
    if c.activated.isEmpty && s.activeDefenses.isEmpty then return starts
    return starts ++ [← g.moveTo .wait .waiting c]
  | .paying a => return [← g.moveTo (.start a) .deciding (c.activate a)]
  | .waiting =>
    let finishes ← (g.attacks.filter (· ∈ c.activated)).mapM (g.finishAttack c)
    let strikes ← g.defenses.mapM (g.strikeDefense c s.activeDefenses)
    return finishes ++ strikes
  | .attempting a =>
    let p := (← g.tree.expectAttack a).successProbability
    return [← g.moveTo (.attackOutcome a true p) .deciding (c.complete a),
      ← g.moveTo (.attackOutcome a false p.complement) .deciding (c.deactivate a)]
  | .resetting d =>
    let p := (← g.tree.expectDefense d).successProbability
    return [← g.moveTo (.defenseOutcome d true p) .deciding (g.applyDefense d c),
      ← g.moveTo (.defenseOutcome d false p.complement) .deciding c]

end AttackDefense.Graph
