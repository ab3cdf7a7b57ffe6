import AttackDefense.Model.Basic

/-!
# Queries of a model

For each strategy that the settings ask for there are four queries: one learns the strategy, the
others evaluate it. Their goal is to be in one of the accepting locations; without such a location
there is nothing to ask.
-/

namespace AttackDefense

/-- What a query asks for. -/
inductive QueryKind where
  | strategy
  | expectedTime
  | expectedCost
  | successProbability
deriving DecidableEq, Repr

structure Query where
  /-- The strategy that is learned or evaluated. -/
  strategy : String
  kind : QueryKind
  formula : String
  comment : String
deriving DecidableEq, Repr

namespace Model

/-- The name of the only template. -/
def templateName : String := "AttackDefenseADMDP"

/-- Being in some accepting location. -/
def goal (m : Model) : Option String :=
  let names := m.automaton.acceptingStates.filterMap fun id =>
    (m.locationName? id).map fun name => templateName ++ "." ++ name
  match names with
  | [] => none
  | [name] => some name
  | names => some ("(" ++ " || ".intercalate names ++ ")")

/-- A strategy to ask for. -/
structure Objective where
  strategy : String
  /-- Comment of the query that learns the strategy. -/
  title : String
  /-- The strategy in the other comments. -/
  caption : String
  /-- The clock that is kept small. -/
  minimised : String
  /-- The clock that bounds all runs. -/
  bounded : String
  /-- The bound within which the goal counts. -/
  limit : UInt32

/-- The strategies that the settings ask for: within a time, within a cost, or the fastest one if
there is neither limit. -/
def objectives (s : QuerySettings) : List Objective :=
  (if s.timeLimit.isNone ∧ s.costLimit.isNone then
    [⟨"fast", "Fast strategy", "fast", "time", "time", s.horizon⟩] else []) ++
  (match s.timeLimit with
    | some limit => [⟨"cheap", "Cheap strategy", "cheap", "cost", "time", limit⟩]
    | none => []) ++
  (match s.costLimit with
    | some limit =>
      [⟨"limited_cost", "Limited cost fastest strategy", "limited cost", "time", "cost", limit⟩]
    | none => [])

/-- The four queries of a strategy. -/
def Objective.queries (o : Objective) (s : QuerySettings) (goal : String) : List Query :=
  let within (limit : UInt32) : String := o.bounded ++ "<=" ++ toString limit.toNat
  let expected (clock : String) : String :=
    "E[" ++ within s.horizon ++ ";" ++ toString s.simulationNumber.toNat ++ "](max: " ++ clock ++
      ") under " ++ o.strategy
  [⟨o.strategy, .strategy,
    "strategy " ++ o.strategy ++ " = minE(" ++ o.minimised ++ ")[" ++ within o.limit ++ "]: <>" ++
      goal, o.title⟩,
   ⟨o.strategy, .expectedTime, expected "time", "Expected time under " ++ o.caption⟩,
   ⟨o.strategy, .expectedCost, expected "cost", "Expected cost under " ++ o.caption⟩,
   ⟨o.strategy, .successProbability,
    "Pr[" ++ within o.limit ++ "](<>" ++ goal ++ ") under " ++ o.strategy,
    "Success probability under " ++ o.caption⟩]

/-- All queries of a model. -/
def queries (m : Model) : List Query :=
  match m.goal with
  | none => []
  | some goal => (objectives m.settings).flatMap fun o => o.queries m.settings goal

end Model

end AttackDefense
