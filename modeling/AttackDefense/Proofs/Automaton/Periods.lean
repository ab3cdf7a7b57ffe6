import AttackDefense.Automaton.Build
import AttackDefense.Proofs.Except
import AttackDefense.Proofs.Graph.Periods

/-!
# Automata under other periods

No state, move or edge depends on a period, and no refusal does.  So the automaton of a graph with
other periods is the automaton of the graph, with these periods:

    build (g.withPeriods f) maxStates =
      (build g maxStates).map (Automaton.withPeriods f)                           (build_withPeriods)
-/

namespace AttackDefense

variable (f : String → Option UInt32)

namespace Graph

variable (g : Graph)

/-! ## States and moves -/

@[simp] theorem keyName_withPeriods : (g.withPeriods f).keyName = g.keyName := by
  funext k
  simp [keyName]

@[simp] theorem keyOf_withPeriods : (g.withPeriods f).keyOf = g.keyOf := by
  funext phase c
  simp [keyOf]

@[simp] theorem reducedAway?_withPeriods : (g.withPeriods f).reducedAway? = g.reducedAway? := by
  funext phase c active
  simp [reducedAway?]

@[simp] theorem makeState_withPeriods : (g.withPeriods f).makeState = g.makeState := by
  funext phase c
  simp [makeState]

@[simp] theorem moveTo_withPeriods : (g.withPeriods f).moveTo = g.moveTo := by
  funext move phase c
  simp [moveTo]

@[simp] theorem startAttack_withPeriods : (g.withPeriods f).startAttack = g.startAttack := by
  funext c a
  simp [startAttack]

@[simp] theorem finishAttack_withPeriods : (g.withPeriods f).finishAttack = g.finishAttack := by
  funext c a
  simp [finishAttack]

/-- Only the probability of a defense that strikes counts. -/
@[simp] theorem strikeDefense_withPeriods : (g.withPeriods f).strikeDefense = g.strikeDefense := by
  funext c active d
  simp only [strikeDefense, tree_withPeriods, Tree.expectDefense_withPeriods, moveTo_withPeriods,
    applyDefense_withPeriods]
  cases g.tree.expectDefense d <;> rfl

@[simp] theorem successors_withPeriods : (g.withPeriods f).successors = g.successors := by
  funext s
  simp only [successors, tree_withPeriods, Tree.expectAttack_withPeriods,
    Tree.expectDefense_withPeriods, availableAttacks_withPeriods, startAttack_withPeriods,
    finishAttack_withPeriods, strikeDefense_withPeriods, moveTo_withPeriods,
    applyDefense_withPeriods, attacks_withPeriods, defenses_withPeriods]
  cases s.phase with
  | deciding | paying | waiting | attempting => rfl
  | resetting d =>
    dsimp only
    cases g.tree.expectDefense d <;> rfl

end Graph

namespace Automaton

/-- The automaton in whose graph the defenses of some names have other periods. -/
def withPeriods (m : Automaton) : Automaton := { m with graph := m.graph.withPeriods f }

namespace Draft

variable {limit : Nat} (g : Graph)

/-! ## Building -/

@[simp] theorem intern_withPeriods (d : Draft limit) (s : State) :
    d.intern (g.withPeriods f) s = d.intern g s := by
  simp [intern]

theorem addEdges_withPeriods (source : StateId) (d : Draft limit) (l : List (Graph.Target × Move)) :
    d.addEdges (g.withPeriods f) source l = d.addEdges g source l := by
  induction l generalizing d with
  | nil => rfl
  | cons t rest ih =>
    obtain ⟨_ | _, move⟩ := t
    · simp only [addEdges, intern_withPeriods, ih]
    · simp only [addEdges, ih]

theorem expand_withPeriods (d : Draft limit) (next : StateId) :
    d.expand (g.withPeriods f) next = d.expand g next := by
  fun_induction Draft.expand g d next with
  | case1 d next hlt ih =>
    rw [expand, dif_pos hlt, Graph.successors_withPeriods]
    simp only [addEdges_withPeriods, ih]
  | case2 d next hdone => rw [expand, dif_neg hdone]

end Draft

/-- **The automaton of a graph with other periods.** -/
theorem build_withPeriods (g : Graph) (maxStates : Nat) :
    build (g.withPeriods f) maxStates = (build g maxStates).map (withPeriods f) := by
  change _ = withPeriods f <$> build g maxStates
  simp only [build, Graph.makeState_withPeriods, Draft.intern_withPeriods,
    Draft.expand_withPeriods, map_bind, map_pure]
  rfl

end Automaton

end AttackDefense
