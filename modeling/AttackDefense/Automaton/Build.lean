import AttackDefense.Automaton.StateTable
import AttackDefense.Automaton.Successors

/-!
# Building the automaton

Starting from the empty configuration, states are expanded in the order of their numbers; new states
get the next numbers, so the table of states is the queue of a breadth-first search. The edges of a
state lie together: row `i` reaches from `offsets[i]` to `offsets[i + 1]`.

The table never holds more states than the limit (`Draft.size_le`), and each step expands one more
of them, so building ends.
-/

namespace AttackDefense

/-- A graph with its canonical states and the edges between them. -/
structure Automaton where
  graph : Graph
  table : StateTable
  /-- All edges, row by row. -/
  edges : Array Edge
  offsets : Array Nat
  /-- The first state in which the root goal is reached. -/
  accepting : Option StateId
  /-- The bound on states that was asked for. -/
  maxStates : Nat

namespace Automaton

/-- The largest number of 32 bits: state numbers and edge offsets do not exceed it. -/
def maxWord : Nat := UInt32.size - 1

/-- The bound on states unless another one is asked for. -/
def standardMaxStates : Nat := 1 <<< 20

/-- The bound that a request leads to. -/
def limitOf (maxStates : Nat) : Nat := min maxStates maxWord

/-- An automaton under construction. -/
structure Draft (limit : Nat) where
  table : StateTable
  edges : Array Edge
  offsets : Array Nat
  accepting : Option StateId
  size_le : table.size ≤ limit

namespace Draft

variable {limit : Nat}

def empty : Draft limit := ⟨.empty, #[], #[], none, Nat.zero_le _⟩

/-- The number of a state, which is new if its key is. The first accepting state is noted. -/
def intern (g : Graph) (d : Draft limit) (s : State) : Except Fault (Draft limit × StateId) :=
  match d with
  | ⟨table, edges, offsets, accepting, _⟩ =>
    match table.intern s with
    | .error _ => .error (.state (.keyCollision (g.keyName s.key)))
    | .ok (table, id, isNew) =>
      if h : table.size ≤ limit then
        let accepting := if isNew && s.accepting && accepting.isNone then some id else accepting
        .ok (⟨table, edges, offsets, accepting, h⟩, id)
      else .error (.stateLimit limit)

/-- Begins a row of edges, or ends the last one. -/
def mark (d : Draft limit) : Except Fault (Draft limit) :=
  if d.edges.size ≤ maxWord then .ok { d with offsets := d.offsets.push d.edges.size }
  else .error (.edgeLimit maxWord)

def addEdge (d : Draft limit) (e : Edge) : Draft limit := { d with edges := d.edges.push e }

/-- Adds the edges that leave a state. -/
def addEdges (g : Graph) (source : StateId) (d : Draft limit) :
    List (Graph.Target × Move) → Except Fault (Draft limit)
  | [] => .ok d
  | (.itself, move) :: rest => (d.addEdge ⟨source, source, move⟩).addEdges g source rest
  | (.state s, move) :: rest => do
    let (d, id) ← d.intern g s
    (d.addEdge ⟨source, id, move⟩).addEdges g source rest

/-- Expands the states from a number on, until all are expanded. -/
def expand (g : Graph) (d : Draft limit) (next : StateId) : Except Fault (Draft limit) :=
  if _h : next < d.table.states.size then do
    let targets ← g.successors d.table.states[next]
    let d' ← d.mark
    let d' ← d'.addEdges g next targets
    expand g d' (next + 1)
  else d.mark
termination_by limit - next
decreasing_by
  exact Nat.sub_lt_sub_left (Nat.lt_of_lt_of_le _h d.size_le) (Nat.lt_succ_self next)

end Draft

/-- The automaton of a graph, unless it has more states than allowed. -/
def build (g : Graph) (maxStates : Nat) : Except Fault Automaton := do
  let initial ← g.makeState .deciding .empty
  let (d, _) ← (Draft.empty : Draft (limitOf maxStates)).intern g initial
  let d ← d.expand g 0
  return ⟨g, d.table, d.edges, d.offsets, d.accepting, maxStates⟩

/-! ## Looking up -/

def size (m : Automaton) : Nat := m.table.size

def state? (m : Automaton) (id : StateId) : Option State := m.table.get? id

/-- The number of a key. -/
def find? (m : Automaton) (k : StateKey) : Option StateId := m.table.find? k

/-- The edges that leave a state. -/
def edgesOf (m : Automaton) (id : StateId) : List Edge :=
  match m.offsets[id]?, m.offsets[id + 1]? with
  | some first, some last => (m.edges.extract first last).toList
  | _, _ => []

def edgesOf? (m : Automaton) (id : StateId) : Option (List Edge) :=
  if id < m.size then some (m.edgesOf id) else none

/-- The state with the empty configuration. -/
def initial (_ : Automaton) : StateId := 0

/-- Every state in which the root goal is reached. -/
def acceptingStates (m : Automaton) : List StateId :=
  (List.range m.size).filter fun id => (m.state? id).any State.accepting

def stateName? (m : Automaton) (id : StateId) : Option String :=
  (m.state? id).map fun s => m.graph.keyName s.key

end Automaton

end AttackDefense
