import AttackDefense.Text.Structured

/-!
# Causes of refusal

Everything that can be wrong with a tree, a number in it, or the construction of its automaton.
A `Fault` is the cause; `message` words it for a reader, `structured` writes the value itself.
-/

namespace AttackDefense

open Text Decimal

/-- The tree itself is malformed. -/
inductive TreeFault where
  /-- A node would get a second parent. -/
  | conflictingParent (node parent other : String)
  /-- Defenses must not be attached to the root goal. -/
  | defendedRoot (root : String)
  | rootNotSubgoal (root : String)
  /-- A subgoal has no children, or more than allowed. -/
  | arity (subgoal : String) (children max : Nat)
  /-- A refinement of a single child has another number of children. -/
  | edgeArity (subgoal : String) (children : Nat)
  | unknownNode (id : Nat)
  | unknownName (name : String)
  /-- A node of another kind was expected. -/
  | wrongKind (node expected : String)
  | duplicateName (name : String)
  | invalidName (name : String)
deriving DecidableEq, Repr

/-- The construction of states contradicts itself: a defect of the library, not of a tree. -/
inductive StateFault where
  /-- Two states of one key differ in other fields. -/
  | keyCollision (key : String)
  | activatedAndCompleted (attack : String)
  /-- A state was made around a node that its configuration no longer holds. -/
  | reducedAway (state node : String)
deriving DecidableEq, Repr

/-- A number of a node is out of range. -/
inductive NumberFault where
  | probability (node : String) (value : Binary64)
  | zeroPeriod (node : String)
  | negative (node field : String) (value : Int)
  | tooLarge (node field : String) (value : Int)
deriving DecidableEq, Repr

/-- Why a tree or an automaton is refused. -/
inductive Fault where
  | tree (cause : TreeFault)
  | state (cause : StateFault)
  | number (cause : NumberFault)
  /-- The automaton has more states than allowed. -/
  | stateLimit (max : Nat)
  /-- The edges no longer fit into 32-bit offsets. -/
  | edgeLimit (max : Nat)
deriving DecidableEq, Repr

/-! ## Wording -/

def TreeFault.message : TreeFault → String
  | .conflictingParent node parent other =>
    "node " ++ node ++ " already has parent " ++ parent ++ ", can not assign parent " ++ other
  | .defendedRoot root => "root goal " ++ root ++ " has attached defenses"
  | .rootNotSubgoal root => "root " ++ root ++ " is not a subgoal"
  | .arity subgoal children max =>
    "subgoal " ++ subgoal ++ " has " ++ toString children ++ " children, expected between 1 and " ++
      toString max
  | .edgeArity subgoal children =>
    "edge subgoal " ++ subgoal ++ " has " ++ toString children ++ " children, expected exactly 1"
  | .unknownNode id => "no node with id " ++ toString id
  | .unknownName name => "no node named " ++ name
  | .wrongKind node expected => "node " ++ node ++ " is not " ++ expected
  | .duplicateName name => "node name " ++ name ++ " is used twice"
  | .invalidName name => quoted name ++ " is not a valid identifier"

def StateFault.message : StateFault → String
  | .keyCollision key => "state key " ++ key ++ " collides with a different state"
  | .activatedAndCompleted attack =>
    "attack " ++ attack ++ " is both activated and completed after reduction"
  | .reducedAway state node =>
    state ++ " state constructed for " ++ node ++ ", which is not part of the reduced configuration"

def NumberFault.message : NumberFault → String
  | .probability node value =>
    "success probability " ++ Layout.plain.render value ++ " of " ++ node ++ " is not in [0, 1]"
  | .zeroPeriod node => "defense " ++ node ++ " has period 0"
  | .negative node field value => field ++ " of " ++ node ++ " is negative (" ++ toString value ++ ")"
  | .tooLarge node field value =>
    field ++ " of " ++ node ++ " does not fit into 32 bits (" ++ toString value ++ ")"

/-- The wording of the cause alone, for a fault that has a cause below it. -/
def Fault.source : Fault → Option String
  | .tree cause => some cause.message
  | .state cause => some cause.message
  | .number cause => some cause.message
  | .stateLimit _ | .edgeLimit _ => none

def Fault.message : Fault → String
  | .tree cause => "malformed attack-defense tree: " ++ cause.message
  | .state cause => "state canonicalization failed: " ++ cause.message
  | .number cause => "invalid scenario parameter: " ++ cause.message
  | .stateLimit max => "automaton exceeds the limit of " ++ toString max ++ " states"
  | .edgeLimit max => "automaton exceeds the limit of " ++ toString max ++ " edges"

/-! ## Structured form -/

def TreeFault.structured : TreeFault → String
  | .conflictingParent node parent other =>
    withFields "ConflictingParent"
      [("node", quoted node), ("parent", quoted parent), ("other", quoted other)]
  | .defendedRoot root => withPart "DefendedRoot" (quoted root)
  | .rootNotSubgoal root => withPart "RootNotSubgoal" (quoted root)
  | .arity subgoal children max =>
    withFields "Arity"
      [("subgoal", quoted subgoal), ("children", toString children), ("max", toString max)]
  | .edgeArity subgoal children =>
    withFields "EdgeArity" [("subgoal", quoted subgoal), ("children", toString children)]
  | .unknownNode id => withPart "UnknownNode" (toString id)
  | .unknownName name => withPart "UnknownName" (quoted name)
  | .wrongKind node expected =>
    withFields "WrongKind" [("node", quoted node), ("expected", quoted expected)]
  | .duplicateName name => withPart "DuplicateName" (quoted name)
  | .invalidName name => withPart "InvalidName" (quoted name)

def StateFault.structured : StateFault → String
  | .keyCollision key => withPart "KeyCollision" (quoted key)
  | .activatedAndCompleted attack => withPart "ActivatedAndCompleted" (quoted attack)
  | .reducedAway state node =>
    withFields "ReducedAwayNode" [("state", quoted state), ("node", quoted node)]

def NumberFault.structured : NumberFault → String
  | .probability node value =>
    withFields "Probability" [("node", quoted node), ("value", Layout.marked.render value)]
  | .zeroPeriod node => withPart "ZeroPeriod" (quoted node)
  | .negative node field value =>
    withFields "Negative" [("node", quoted node), ("field", quoted field), ("value", toString value)]
  | .tooLarge node field value =>
    withFields "TooLarge" [("node", quoted node), ("field", quoted field), ("value", toString value)]

def Fault.structured : Fault → String
  | .tree cause => withPart "Structural" cause.structured
  | .state cause => withPart "Canonicalization" cause.structured
  | .number cause => withPart "Parameter" cause.structured
  | .stateLimit max => withPart "StateLimit" (toString max)
  | .edgeLimit max => withPart "EdgeLimit" (toString max)

end AttackDefense
