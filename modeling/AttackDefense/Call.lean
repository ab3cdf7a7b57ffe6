/-!
# Calls that may be refused

A `Call` works on a value that it may change as it goes. It ends with a result or with a fault, and
in both cases with the value as it is then: a fault takes nothing back. `answer` gives the value after
a call, with the result or the fault; `outcome` is for a caller who drops the value after a fault.
-/

namespace AttackDefense

/-- A computation on a value of type `σ`, which ends with a result or with a fault. -/
abbrev Call (ε σ α : Type) := EStateM ε σ α

namespace Call

variable {ε σ α : Type}

/-- A check that is passed or not, whatever the value is. -/
def check (x : Except ε α) : Call ε σ α :=
  match x with
  | .ok a => pure a
  | .error fault => throw fault

/-- Refuses the call unless a condition holds. -/
def demand (p : Prop) [Decidable p] (fault : ε) : Call ε σ Unit := if p then pure () else throw fault

/-- The value after a call, also if it is refused, and what the call ends with. -/
def answer (x : Call ε σ α) (s : σ) : σ × Except ε α :=
  match x s with
  | .ok a s => (s, .ok a)
  | .error fault s => (s, .error fault)

/-- The value after a call with the result, or the fault. -/
def outcome (x : Call ε σ α) (s : σ) : Except ε (σ × α) :=
  match x s with
  | .ok a s => .ok (s, a)
  | .error fault _ => .error fault

end Call

end AttackDefense
