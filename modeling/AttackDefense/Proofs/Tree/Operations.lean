import AttackDefense.Proofs.Decimal.Probability
import AttackDefense.Proofs.Tree.Ancestors
import AttackDefense.Proofs.Tree.Listing
import AttackDefense.Proofs.Tree.Parents
import AttackDefense.Proofs.Tree.Refusals

/-!
# The arena after any sequence of calls

A tree changes by four operations: an attack, a defense or a subgoal is added, or parents are
assigned below a root.  `t.perform op` is the tree as one of them leaves it, together with the fault
if it is refused, and `t.run ops` the tree after all of them, refused or not.

    Built (run (.empty maxArity) ops)                               (built_run)

`Arena maxArity t` says what a reader of the tree may rely on: names and numbers determine each
other, nodes refer to earlier nodes of the right kinds, all numbers are in range, and the parents lie
on ways that lead up and end.  It holds after every sequence of calls (`arena_run`).
-/

namespace AttackDefense.Tree

open Decimal

variable {t : Tree}

/-! ## Calls -/

/-- A call that may change a tree. -/
inductive Operation where
  | attack (a : Attack)
  | defense (d : Defense)
  | subgoal (name : String) (refinement : Refinement) (members : List NodeId) (reset : Bool)
  | parents (root : NodeId)

/-- Whether a call adds a node. -/
def Operation.Adds : Operation → Prop
  | .attack _ | .defense _ | .subgoal .. => True
  | .parents _ => False

/-- The tree as a call leaves it, and the fault if the call is refused. -/
def after (t : Tree) (call : Call Fault Tree NodeId) : Tree × Option Fault :=
  match call.answer t with
  | (t', .ok _) => (t', none)
  | (t', .error fault) => (t', some fault)

/-- The tree after an operation, and the fault if the operation is refused. -/
def perform (t : Tree) : Operation → Tree × Option Fault
  | .attack a => t.after (attackCall a)
  | .defense d => t.after (defenseCall d)
  | .subgoal name refinement members reset => t.after (subgoalCall name refinement members reset)
  | .parents root => t.setParents root

/-- The tree after some calls. -/
def run (t : Tree) (ops : List Operation) : Tree := ops.foldl (fun t op => (t.perform op).1) t

/-! ## What a call keeps -/

section

variable {call : Call Fault Tree NodeId} (hcall : call.Safe)

include hcall

theorem after_eq_of_refused (h : (t.after call).2 ≠ none) : (t.after call).1 = t := by
  unfold after at h ⊢
  split at h
  · exact absurd rfl h
  · next t' fault hanswer => exact hcall t t' fault hanswer

/-- What holds of a tree and of the tree with a node added holds after the call. -/
theorem after_induction {motive : Tree → Prop} (hkeep : motive t)
    (hadd : ∀ t' id, call.outcome t = .ok (t', id) → motive t') : motive (t.after call).1 := by
  unfold after
  split
  · next t' id hanswer => exact hadd t' id (Call.outcome_eq_ok.2 hanswer)
  · next t' fault hanswer => exact hcall t t' fault hanswer ▸ hkeep

end

theorem Built.perform (h : Built t) (op : Operation) : Built (t.perform op).1 := by
  cases op with
  | attack a => exact after_induction (safe_attackCall a) h fun _ _ hok => .attack h hok
  | defense d => exact after_induction (safe_defenseCall d) h fun _ _ hok => .defense h hok
  | subgoal name refinement members reset =>
    exact after_induction (safe_subgoalCall name refinement members reset) h
      fun _ _ hok => .subgoal h hok
  | parents root => exact .parents root h

theorem built_run (h : Built t) (ops : List Operation) : Built (t.run ops) := by
  induction ops generalizing t with
  | nil => exact h
  | cons op ops ih => exact ih (h.perform op)

theorem maxArity_of_insert {node : Node} {h : ∀ c ∈ node.children, c < t.size} {t' : Tree}
    {id : NodeId} (hok : t.insert node h = .ok (t', id)) : t'.maxArity = t.maxArity := by
  obtain ⟨_, _, rfl, _⟩ := insert_eq_ok.1 hok
  rfl

theorem maxArity_perform (t : Tree) (op : Operation) : (t.perform op).1.maxArity = t.maxArity := by
  have hadd {call : Call Fault Tree NodeId} (hcall : call.Safe)
      (h : ∀ t' id, call.outcome t = .ok (t', id) → t'.maxArity = t.maxArity) :
      (t.after call).1.maxArity = t.maxArity :=
    after_induction (motive := fun t' => t'.maxArity = t.maxArity) hcall rfl h
  cases op with
  | attack a =>
    exact hadd (safe_attackCall a) fun _ _ hok => maxArity_of_insert (addAttack_eq_ok.1 hok).2.2
  | defense d =>
    exact hadd (safe_defenseCall d) fun _ _ hok => maxArity_of_insert (addDefense_eq_ok.1 hok).2.2
  | subgoal name refinement members reset =>
    exact hadd (safe_subgoalCall name refinement members reset) fun _ _ hok =>
      maxArity_of_insert (addSubgoal_eq_ok.1 hok).2.2.2.2
  | parents root =>
    show (t.setParents root).1.maxArity = t.maxArity
    unfold setParents
    split
    · rfl
    · split <;> rfl

theorem maxArity_run (t : Tree) (ops : List Operation) : (t.run ops).maxArity = t.maxArity := by
  induction ops generalizing t with
  | nil => rfl
  | cons op ops ih => exact (ih _).trans (t.maxArity_perform op)

/-- A node that is refused leaves no trace. -/
theorem perform_eq_of_refused {op : Operation} (hop : op.Adds) (h : (t.perform op).2 ≠ none) :
    (t.perform op).1 = t := by
  cases op with
  | attack a => exact after_eq_of_refused (safe_attackCall a) h
  | defense d => exact after_eq_of_refused (safe_defenseCall d) h
  | subgoal name refinement members reset =>
    exact after_eq_of_refused (safe_subgoalCall name refinement members reset) h
  | parents root => exact hop.elim

/-! ## The arena -/

/-- A letter or an underscore. -/
def IsNameStart (c : Char) : Prop := 'A' ≤ c ∧ c ≤ 'Z' ∨ 'a' ≤ c ∧ c ≤ 'z' ∨ c = '_'

/-- A letter, an underscore and more of them and of digits. -/
def IsName (name : String) : Prop :=
  ∃ c rest, name.toList = c :: rest ∧ IsNameStart c ∧
    ∀ x ∈ rest, IsNameStart x ∨ '0' ≤ x ∧ x ≤ '9'

/-- What a reader of a tree may rely on. -/
structure Arena (maxArity : Nat) (t : Tree) : Prop where
  /-- The number of a node is found by its name. -/
  find?_name : ∀ id, t.has id → t.find? (t.name id) = some id
  /-- Nothing is found by a name that no node has. -/
  find?_eq_none : ∀ name, (∀ id, t.has id → t.name id ≠ name) → t.find? name = none
  name : ∀ id, t.has id → IsName (t.name id)
  attackChild : ∀ id s, t.subgoal? id = some s → ∀ c ∈ s.attackChildren, c < id ∧ t.isAttack c
  subgoalChild : ∀ id s, t.subgoal? id = some s → ∀ c ∈ s.subgoalChildren, c < id ∧ t.isSubgoal c
  defense : ∀ id, ∀ d ∈ t.defensesOf id, d < id ∧ t.isDefense d
  arity : ∀ id s, t.subgoal? id = some s →
    1 ≤ s.attackChildren.length + s.subgoalChildren.length ∧
    s.attackChildren.length + s.subgoalChildren.length ≤ maxArity ∧
    (s.refinement = .edge → s.attackChildren.length + s.subgoalChildren.length = 1)
  attackProbability : ∀ id a, t.attack? id = some a →
    a.successProbability.isFinite ∧ 0 ≤ a.successProbability.toRat ∧
      a.successProbability.toRat ≤ 1
  defenseProbability : ∀ id d, t.defense? id = some d →
    d.successProbability.isFinite ∧ 0 ≤ d.successProbability.toRat ∧
      d.successProbability.toRat ≤ 1
  period : ∀ id d, t.defense? id = some d → 0 < d.period
  /-- A parent is a subgoal that lists the child. -/
  parent : ∀ id p, t.parent? id = some p →
    ∃ s, t.subgoal? p = some s ∧ (id ∈ s.attackChildren ∨ id ∈ s.subgoalChildren)
  /-- The ancestors of a node are all that is met by going on from parent to parent, and the last of
  them has none. -/
  ancestors : ∀ id, t.ancestors id = match t.parent? id with
    | none => []
    | some p => p :: t.ancestors p

theorem isNameStart_of_isAlpha {c : Char} (h : c.isAlpha) : IsNameStart c := by
  delta Char.isAlpha Char.isUpper Char.isLower at h
  simp only [Bool.or_eq_true, Bool.and_eq_true, decide_eq_true_eq] at h
  exact h.imp id .inl

theorem isName_of_isIdentifier {name : String} (h : isIdentifier name) : IsName name := by
  unfold isIdentifier at h
  split at h
  · cases h
  · next c rest hlist =>
    simp only [Bool.and_eq_true, Bool.or_eq_true, decide_eq_true_eq, List.all_eq_true,
      Char.isAlphanum] at h
    refine ⟨c, rest, hlist, ?_, fun x hx => ?_⟩
    · rcases h.1 with hc | rfl
      · exact isNameStart_of_isAlpha hc
      · exact .inr (.inr rfl)
    · rcases h.2 x hx with (hx | hx) | rfl
      · exact .inl (isNameStart_of_isAlpha hx)
      · simp only [Char.isDigit, Bool.and_eq_true, decide_eq_true_eq] at hx
        exact .inr hx
      · exact .inl (.inr (.inr rfl))

theorem node_of_has {id : NodeId} (h : t.has id) :
    ∃ node, t.node? id = some node ∧ t.name id = node.name := by
  have hlt : id < t.nodes.size := of_decide_eq_true h
  refine ⟨t.nodes[id], Array.getElem?_eq_getElem hlt, ?_⟩
  rw [Tree.name, node?, Array.getElem?_eq_getElem hlt]
  rfl

theorem Sound.arena (hs : t.Sound) : Arena t.maxArity t where
  find?_name id hid := by
    obtain ⟨node, hnode, hname⟩ := node_of_has hid
    exact (hs.find?_iff _ id).2 ⟨node, hnode, hname.symm⟩
  find?_eq_none name hother := by
    rw [Option.eq_none_iff_forall_ne_some]
    intro id hfind
    obtain ⟨node, hnode, hname⟩ := (hs.find?_iff name id).1 hfind
    have hhas : t.has id := decide_eq_true (lt_size_of_isSome (by rw [hnode]; rfl))
    apply hother id hhas
    rw [Tree.name, hnode]
    exact hname
  name id hid := by
    obtain ⟨node, hnode, hname⟩ := node_of_has hid
    rw [hname]
    exact isName_of_isIdentifier (hs.identifier id node hnode)
  attackChild id s h := (hs.fits id _ (subgoal?_eq_some.1 h)).attacks
  subgoalChild id s h := (hs.fits id _ (subgoal?_eq_some.1 h)).subgoals
  defense id d hd := by
    obtain ⟨node, hnode, hd⟩ := mem_defensesOf_iff.1 hd
    have hf := hs.fits id node hnode
    cases node with
    | attack a => exact hf.2 d hd
    | defense e => cases hd
    | subgoal s => exact hf.defenses d hd
  arity id s h := by
    have hf := hs.fits id _ (subgoal?_eq_some.1 h)
    rw [← List.length_append]
    exact ⟨List.length_pos_of_ne_nil hf.nonempty, hf.arity, hf.edge⟩
  attackProbability id a h :=
    Binary64.bounds_of_isProbability (hs.fits id _ (attack?_eq_some.1 h)).1
  defenseProbability id d h :=
    Binary64.bounds_of_isProbability (hs.fits id _ (defense?_eq_some.1 h)).1
  period id d h := by
    have hne := (hs.fits id _ (defense?_eq_some.1 h)).2
    exact UInt32.pos_iff_ne_zero.2 hne
  parent id p h := by
    obtain ⟨s, hsub, hmem⟩ := mem_children_iff.1 (hs.parent id p h)
    exact ⟨s, hsub, List.mem_append.1 hmem⟩
  ancestors id := by
    cases hp : t.parent? id with
    | none => exact ancestors_eq_nil hp
    | some p => exact hs.ancestors_eq_cons hp

/-- **Arena invariant.**  After every sequence of calls on an empty tree, also of calls that are
refused, the tree is an arena with the bound it was made with.  And a node that is refused leaves the
tree as it was. -/
theorem arena_run (maxArity : Nat) (ops : List Operation) :
    Arena maxArity (run (.empty maxArity) ops) ∧
    ∀ op : Operation, op.Adds → ((run (.empty maxArity) ops).perform op).2 ≠ none →
      ((run (.empty maxArity) ops).perform op).1 = run (.empty maxArity) ops := by
  refine ⟨?_, fun op hop hrefused => perform_eq_of_refused hop hrefused⟩
  have harena := (built_run (.empty maxArity) ops).sound.arena
  rwa [maxArity_run] at harena

end AttackDefense.Tree
