import AttackDefense.Automaton.State
import AttackDefense.Call
import Std.Data.HashMap

/-!
# Tables of unique states

A `StateTable` numbers states in the order in which they were first seen and knows the number of each
key. Interning adds a state unless its key is known, and refuses a state that has a known key but
differs in another field.
-/

namespace AttackDefense

structure StateTable where
  states : Array State
  index : Std.HashMap StateKey StateId

namespace StateTable

def empty : StateTable := ⟨#[], {}⟩

instance : Inhabited StateTable := ⟨empty⟩

def size (t : StateTable) : Nat := t.states.size

def get? (t : StateTable) (id : StateId) : Option State := t.states[id]?

/-- The number of a key. -/
def find? (t : StateTable) (k : StateKey) : Option StateId := t.index[k]?

/-- Adds a state at the next number. -/
def push (t : StateTable) (s : State) : StateTable :=
  match t with
  | ⟨states, index⟩ =>
    let id := states.size
    ⟨states.push s, index.insert s.key id⟩

/-- The number of a state and whether it is new, or the number of a state that has its key but is
different. -/
def internCall (s : State) : Call StateId StateTable (StateId × Bool) := do
  match (← get).find? s.key with
  | none =>
    let id := (← get).size
    modify fun t => t.push s
    return (id, true)
  | some id => if ((← get).get? id).any s.agrees then return (id, false) else throw id

def intern (t : StateTable) (s : State) : Except StateId (StateTable × StateId × Bool) :=
  (internCall s).outcome t

end StateTable

end AttackDefense
