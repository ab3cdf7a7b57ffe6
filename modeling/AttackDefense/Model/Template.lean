import AttackDefense.Markup.Element
import AttackDefense.Model.Condition
import AttackDefense.Model.Query

/-!
# The template of a model

States between which time passes are locations with an invariant; the others are branch points.
Edges are transitions whose labels say when they may be taken, which clock they set back, and with
which weight chance takes them. The attacker controls the moves that are its own choice.

A defense strikes only while none of its followers is due, so that of several defenses that are due
at once the last one goes first.
-/

namespace AttackDefense.Model

open Markup Decimal

/-! ## Locations -/

/-- The condition of staying in a state that is no branch point. Time and cost stop at the goal. -/
def invariant (m : Model) (s : State) : Invariant :=
  let g := m.graph
  if s.accepting then ⟨[.stopped .time, .stopped .cost], true⟩
  else match s.phase with
    | .paying a =>
      ⟨[.stopped .time, .unpaid, .costRate [.activationCost (g.name a)]] ++
        (g.attacks ++ g.defenses).map fun id => .stopped (.of (g.name id)), false⟩
    | _ =>
      let attacks := s.key.activated.filterMap g.tree.attack?
      let rates := (attacks.filter fun a => a.proportionalCost.isSome).map fun a =>
        Constant.proportionalCost a.name
      ⟨.costRate rates :: (g.defenses ++ s.key.activated).map fun id => .notPast (g.name id), false⟩

/-! ## Transitions -/

/-- What stands at a transition. -/
inductive Label where
  /-- A clock is set back to zero. -/
  | assignment (clock : Clock)
  | guard (g : Guard)
  | probability (weight : Nat)
deriving DecidableEq, Repr

def Label.kind : Label → String
  | .assignment _ => "assignment"
  | .guard _ => "guard"
  | .probability _ => "probability"

def Label.text : Label → String
  | .assignment clock => clock.text ++ " = 0"
  | .guard g => g.text
  | .probability weight => toString weight

/-- A defense is due, and none of its followers is. -/
def defenseGuard (m : Model) (d : NodeId) : Guard :=
  .due (m.graph.name d) :: (m.graph.followers d).map fun f => .notDue (m.graph.name f)

/-- The whole weight of a probability. -/
def weight (m : Model) (p : Binary64) : Nat :=
  (p.mul (Binary64.ofNat m.settings.probabilityScale.toNat)).roundToNat

/-- The labels of a move from a phase, and whether the attacker controls it. -/
def labels (m : Model) (source : Phase) (move : Move) : List Label × Bool :=
  let clock (id : NodeId) : Label := .assignment (.of (m.graph.name id))
  match move with
  | .start a =>
    match source with
    | .paying _ => ([clock a, .guard [.paid]], false)
    | _ => ([clock a], true)
  | .pay _ => ([.assignment .payment], true)
  | .wait => ([], true)
  | .finish a => ([.guard [.due (m.graph.name a)]], false)
  | .strike d | .idle d => ([clock d, .guard (m.defenseGuard d)], false)
  | .attackOutcome _ _ p | .defenseOutcome _ _ p => ([.probability (m.weight p)], true)

/-! ## Layout

States are placed in rows of eight; labels stand half way between source and target. -/

structure Position where
  x : Int
  y : Int

def Position.ofState (id : StateId) : Position := ⟨100 * (id / 8 : Nat), 100 * (id % 8 : Nat)⟩

def Position.between (p q : Position) : Position := ⟨(p.x + q.x) / 2, (p.y + q.y) / 2⟩

def Position.shift (p : Position) (dx dy : Int) : Position := ⟨p.x + dx, p.y + dy⟩

def Position.attributes (p : Position) : List (String × String) :=
  [("x", toString p.x), ("y", toString p.y)]

/-! ## Elements -/

/-- The reference of a state. -/
def reference (id : StateId) : String := "id" ++ toString id

def location (m : Model) (id : StateId) (s : State) : Element :=
  let p := Position.ofState id
  .block "location" (("id", reference id) :: p.attributes) [
    .text "name" (p.shift (-50) (-34)).attributes (locationName id s),
    .text "label" (("kind", "invariant") :: (p.shift (-50) 20).attributes) (m.invariant s).text]

def branchPoint (id : StateId) : Element :=
  .text "branchpoint" (("id", reference id) :: (Position.ofState id).attributes) ""

def transition (m : Model) (e : Edge) : Element :=
  let source := ((m.automaton.state? e.source).map State.phase).getD .deciding
  let (labels, controllable) := m.labels source e.move
  let p := (Position.ofState e.source).between (Position.ofState e.destination)
  .block "transition" (if controllable then [] else [("controllable", "false")])
    ([.text "source" [("ref", reference e.source)] "",
      .text "target" [("ref", reference e.destination)] ""] ++
      labels.map fun l => .text "label" (("kind", l.kind) :: p.attributes) l.text)

/-- The states with their numbers. -/
def numbered (m : Model) : List (StateId × State) :=
  m.automaton.table.states.toList.zipIdx.map fun (s, id) => (id, s)

/-- Locations, branch points, the first location, and the transitions. -/
def template (m : Model) : Element :=
  let (points, locations) := m.numbered.partition fun (_, s) => s.phase.isBranchPoint
  .block "template" []
    ([.text "name" [("x", "0"), ("y", "0")] templateName,
      .text "parameter" [] "",
      .text "declaration" [] ""] ++
    locations.map (fun (id, s) => m.location id s) ++
    points.map (fun (id, _) => branchPoint id) ++
    [.text "init" [("ref", reference m.automaton.initial)] ""] ++
    m.automaton.edges.toList.map m.transition)

end AttackDefense.Model
