import AttackDefense.Automaton.Build

/-!
# Timed models

A `Model` is an automaton together with the settings of the queries asked of it, and the periods of
defenses that are overridden. The automaton does not depend on periods, so overriding one does not
build it again.
-/

namespace AttackDefense

/-- What the queries of a model ask for. -/
structure QuerySettings where
  /-- Runs simulated for an expected value. -/
  simulationNumber : UInt32
  /-- The cheapest strategy within this time is asked for. -/
  timeLimit : Option UInt32
  /-- The fastest strategy within this cost is asked for. -/
  costLimit : Option UInt32
  /-- The bound of simulations that have no other bound. -/
  horizon : UInt32
  /-- Probabilities become whole weights by this factor. -/
  probabilityScale : UInt32
deriving DecidableEq, Repr

/-- Strategies within a time and within a cost. -/
def QuerySettings.standard : QuerySettings := ⟨10000, some 1000, some 400, 100000, 1000⟩

/-- The fastest strategy, without limits. -/
def QuerySettings.fast : QuerySettings := { standard with timeLimit := none, costLimit := none }

structure Model where
  automaton : Automaton
  settings : QuerySettings
  /-- Periods that replace those of the tree. -/
  periods : Std.HashMap NodeId UInt32

namespace Model

def ofAutomaton (automaton : Automaton) (settings : QuerySettings) : Model :=
  ⟨automaton, settings, {}⟩

def graph (m : Model) : Graph := m.automaton.graph

/-- Overrides the period of the defense of a name. -/
def periodCall (name : String) (period : UInt32) : Call Fault Model Unit := do
  let m ← get
  let some d := m.graph.tree.find? name | throw (.tree (.unknownName name))
  let _ ← Call.check (m.graph.tree.expectDefense d)
  Call.demand (d ∈ m.graph.defenses) (.tree (.unknownName name))
  Call.demand (period ≠ 0) (.number (.zeroPeriod name))
  set { m with periods := m.periods.insert d period }

def setPeriod (m : Model) (name : String) (period : UInt32) : Except Fault Model :=
  ((periodCall name period).outcome m).map Prod.fst

/-- The period of a defense in the model, and zero for anything else. -/
def period (m : Model) (d : NodeId) : UInt32 :=
  match m.periods[d]? with
  | some p => p
  | none => ((m.graph.tree.defense? d).map Defense.period).getD 0

/-- The name of the location of a state. -/
def locationName (id : StateId) (s : State) : String := s.phase.tag ++ "_" ++ toString id

def locationName? (m : Model) (id : StateId) : Option String :=
  (m.automaton.state? id).map (locationName id)

end Model

end AttackDefense
