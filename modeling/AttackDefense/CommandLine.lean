import AttackDefense.Automaton.Display
import AttackDefense.Checker.Report
import AttackDefense.Model.Document
import AttackDefense.Scenario.Build
import AttackDefense.Scenario.Json

/-!
# The command line

`CommandLine.run` reads a scenario, builds its automaton, writes the model, and shows what a checker
reports on it if one is named. What it does to the world it does through a `Host`, so the same
session runs on files and on values.
-/

namespace AttackDefense

/-- What a session asks of its surroundings. -/
structure Host (m : Type → Type) where
  load : String → m (Except FileFault String)
  store : (path content : String) → m (Except FileFault Unit)
  /-- The report of a checker on a model file. -/
  consult : (checker model : String) → m (Except FileFault String)
  print : String → m Unit

namespace CommandLine

open Decimal

/-- What ends a session early. -/
inductive Failure where
  | file (cause : FileFault)
  | json (defect : Json.Defect)
  | fault (cause : Fault)
  | checker (cause : Checker.Fault)
deriving DecidableEq, Repr

/-- The kind of input error that a defect of a text counts as. -/
def defectKind : Json.Defect → String
  | .ended => "UnexpectedEof"
  | .malformed => "InvalidData"

/-- An error of a kind, with its cause. -/
def customError (kind cause : String) : String :=
  Text.withFields "Custom" [("kind", kind), ("error", cause)]

/-- What is shown of a failure. The words of a defect are not specified. -/
def Failure.structured : Failure → String
  | .file cause => cause.structured
  | .json defect => customError (defectKind defect) "Error(..)"
  | .fault cause => customError "InvalidData" cause.structured
  | .checker (.file cause _) => cause.structured
  | .checker cause => customError "InvalidData" cause.structured

/-- The settings of a session, from its surroundings. -/
structure Options where
  /-- Ask for the fastest strategy only. -/
  fast : Bool
  /-- The checker to run; an empty name is none. -/
  checker : Option String

def Options.settings (o : Options) : QuerySettings := if o.fast then .fast else .standard

/-! ## Lines of the report -/

def estimateLine (what : String) (e : Checker.Estimate) : String :=
  "    E(" ++ what ++ ") = " ++ Layout.plain.render e.mean ++ " ± " ++
    Layout.plain.render e.deviation ++ "\n"

def intervalLine (i : Binary64 × Binary64) : String :=
  "    P(success) in [" ++ Layout.plain.render i.1 ++ ", " ++ Layout.plain.render i.2 ++ "]\n"

/-- What is shown of a strategy. -/
def resultLines (r : Checker.StrategyResult) : String :=
  if ¬ r.satisfied then r.strategy ++ ": no strategy found\n"
  else
    r.strategy ++ ":\n" ++ ((r.expectedTime.map (estimateLine "time")).getD "") ++
      ((r.expectedCost.map (estimateLine "cost")).getD "") ++
      ((r.successProbability.map intervalLine).getD "")

/-- Whether the root goal can be reached. -/
def goalLine (a : Automaton) : String :=
  match a.accepting with
  | some id => "Root goal is reached in state " ++ toString id ++ "\n"
  | none => "Root goal is unreachable\n"

/-! ## The session -/

/-- The automaton of the text of a scenario. -/
def compile (text : String) : Except Failure Automaton := do
  let scenario ← (Scenario.parse text).mapError .json
  let (tree, root) ← scenario.toTree.mapError .fault
  let graph ← (Graph.ofTree tree root).mapError .fault
  (Automaton.build graph Automaton.standardMaxStates).mapError .fault

variable {m : Type → Type} [Monad m]

/-- Writes a model and reads back what a checker reports on it. -/
def verify (host : Host m) (checker : String) (model : Model) (path : String) :
    m (Except Checker.Fault (List Checker.StrategyResult)) := do
  match ← host.store path model.text with
  | .error cause => return .error (.ofFile cause)
  | .ok () =>
    match ← host.consult checker path with
    | .error cause => return .error (.ofFile cause)
    | .ok report => return Checker.readReport report model.queries

/-- A session on a scenario file, up to its first failure. -/
def session (host : Host m) (options : Options) (input output : String) :
    ExceptT Failure m Unit := do
  let text ← ExceptT.mk do return (← host.load input).mapError .file
  let automaton ← ExceptT.mk (pure (compile text))
  host.print (automaton.summary ++ "\n")
  host.print (goalLine automaton)
  let model := Model.ofAutomaton automaton options.settings
  ExceptT.mk do return (← host.store output model.text).mapError .file
  host.print ("Wrote " ++ output ++ "\n")
  match options.checker.filter (· ≠ "") with
  | none => return ()
  | some checker =>
    let report ← ExceptT.mk do return (← host.consult checker output).mapError .file
    let results ← ExceptT.mk (pure ((Checker.readReport report model.queries).mapError .checker))
    host.print (String.join (results.map resultLines))

/-- The file that is written when none is named. -/
def defaultOutput : String := "admdp.xml"

/-- How a session is called. -/
def usage (program : String) : String :=
  "Invalid arguments. Usage: " ++ Text.quoted program ++ " <scenario.json> [output.xml]\n"

/-- How a session ended. -/
structure Exit where
  code : Nat
  /-- What is shown on the error output. -/
  complaint : String
deriving DecidableEq, Repr

/-- Runs a session with the given arguments. -/
def run (host : Host m) (options : Options) (program : String) (args : List String) : m Exit := do
  let call (input output : String) : m Exit := do
    match ← (session host options input output).run with
    | .ok () => return ⟨0, ""⟩
    | .error failure => return ⟨1, "Error: " ++ failure.structured ++ "\n"⟩
  match args with
  | [input] => call input defaultOutput
  | [input, output] => call input output
  | _ => return ⟨2, usage program⟩

end CommandLine

end AttackDefense
