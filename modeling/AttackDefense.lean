import AttackDefense.Main
import AttackDefense.Proofs.Except
import AttackDefense.Proofs.Call
import AttackDefense.Proofs.Matching
import AttackDefense.Proofs.Text.Identifiers
import AttackDefense.Proofs.Markup.Elements
import AttackDefense.Proofs.Markup.Reading
import AttackDefense.Proofs.Decimal.Probability
import AttackDefense.Proofs.Decimal.Numerals
import AttackDefense.Proofs.Decimal.Rounding
import AttackDefense.Proofs.Json.Tokens
import AttackDefense.Proofs.Json.Numbers
import AttackDefense.Proofs.Json.Spelling
import AttackDefense.Proofs.Json.Reads
import AttackDefense.Proofs.Json.Yields
import AttackDefense.Proofs.Scenario.Records
import AttackDefense.Proofs.Scenario.Readable
import AttackDefense.Proofs.Scenario.RoundTrip
import AttackDefense.Proofs.Scenario.Nodes
import AttackDefense.Proofs.Checker.Patterns
import AttackDefense.Proofs.Checker.Expressions
import AttackDefense.Proofs.Checker.Blocks
import AttackDefense.Proofs.Checker.Answers
import AttackDefense.Proofs.Checker.Results
import AttackDefense.Proofs.Tree.DepthFirst
import AttackDefense.Proofs.Tree.Sound
import AttackDefense.Proofs.Tree.Refusals
import AttackDefense.Proofs.Tree.Parents
import AttackDefense.Proofs.Tree.Ancestors
import AttackDefense.Proofs.Tree.Operations
import AttackDefense.Proofs.Tree.Listing
import AttackDefense.Proofs.Tree.Periods
import AttackDefense.Proofs.Graph.Sound
import AttackDefense.Proofs.Graph.Followers
import AttackDefense.Proofs.Graph.Indices
import AttackDefense.Proofs.Graph.Propagate
import AttackDefense.Proofs.Graph.Canonical
import AttackDefense.Proofs.Graph.Resets
import AttackDefense.Proofs.Graph.Forgetting
import AttackDefense.Proofs.Graph.Grounded
import AttackDefense.Proofs.Graph.Scope
import AttackDefense.Proofs.Graph.Twins
import AttackDefense.Proofs.Graph.TwinProgress
import AttackDefense.Proofs.Graph.Effect
import AttackDefense.Proofs.Graph.Pending
import AttackDefense.Proofs.Graph.Repeats
import AttackDefense.Proofs.Graph.Periods
import AttackDefense.Proofs.Automaton.StateTable
import AttackDefense.Proofs.Automaton.Interning
import AttackDefense.Proofs.Automaton.Moves
import AttackDefense.Proofs.Automaton.Rows
import AttackDefense.Proofs.Automaton.Keys
import AttackDefense.Proofs.Automaton.Refusal
import AttackDefense.Proofs.Automaton.Reachable
import AttackDefense.Proofs.Automaton.Limits
import AttackDefense.Proofs.Automaton.Configurations
import AttackDefense.Proofs.Automaton.Goal
import AttackDefense.Proofs.Automaton.Permanence
import AttackDefense.Proofs.Automaton.Twins
import AttackDefense.Proofs.Automaton.Names
import AttackDefense.Proofs.Automaton.Incidence
import AttackDefense.Proofs.Automaton.Cycles
import AttackDefense.Proofs.Automaton.Periods
import AttackDefense.Proofs.Model.Guards
import AttackDefense.Proofs.Model.Document
import AttackDefense.Proofs.Model.References
import AttackDefense.Proofs.Model.Lossless
import AttackDefense.Proofs.Model.Symbols
import AttackDefense.Proofs.Model.Usage
import AttackDefense.Proofs.Model.Declarations
import AttackDefense.Proofs.Model.Periods
import AttackDefense.Proofs.Graph.Rounds
import AttackDefense.Proofs.Graph.NormalForms
import AttackDefense.Proofs.Graph.Outcomes
import AttackDefense.Proofs.Automaton.Outcomes
import AttackDefense.Proofs.Automaton.Availability
import AttackDefense.Proofs.Automaton.Discovery
import AttackDefense.Proofs.Tree.Assignment
import AttackDefense.Proofs.Tree.Forest
import AttackDefense.Proofs.Scenario.Nested
import AttackDefense.Proofs.Scenario.Conversion
