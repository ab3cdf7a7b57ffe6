import AttackDefense.Graph.Reset
import AttackDefense.Proofs.Graph.Canonical

/-!
# What a successful defense takes back

A success of `d` strikes the owners of `d` that are not history.  It *erases* a struck owner, with
everything below it if it is a reset subgoal, and *retracts* the completed goals above it up to the
first checkpoint:

    x ∈ (g.applyDefense d c).activated ↔ x ∈ c.activated ∧ ¬ g.Erased s d x
    x ∈ (g.applyDefense d c).completed ↔ x ∈ c.completed ∧ ¬ g.Erased s d x ∧ ¬ g.Retracted s d x

Two facts carry the proofs about defenses.  A goal above a node that was taken back is taken back
itself unless it is a checkpoint (`lost_of_parent`), and nothing is completed again below a reset
subgoal that was struck (`not_mem_propagate_of_below`).
-/

namespace AttackDefense.Graph

open AttackDefense.Tree

variable {g : Graph}

/-! ## Lost progress -/

/-- An owner of the defense that is not history. -/
def Struck (g : Graph) (s : NodeSet) (d o : NodeId) : Prop := o ∈ g.owners d ∧ ¬ g.Behind s o

/-- A struck owner, or a node below a struck reset subgoal. -/
def Erased (g : Graph) (s : NodeSet) (d x : NodeId) : Prop :=
  ∃ o, g.Struck s d o ∧ if g.tree.isReset o then g.tree.Below o x else x = o

/-- A goal above a struck owner, below the first checkpoint there. -/
def Retracted (g : Graph) (s : NodeSet) (d x : NodeId) : Prop :=
  ∃ o, g.Struck s d o ∧ x ∈ (g.tree.ancestors o).takeWhile fun a => !g.isCheckpoint a

/-- No longer completed. -/
def Lost (g : Graph) (s : NodeSet) (d x : NodeId) : Prop := g.Erased s d x ∨ g.Retracted s d x

theorem mem_foldl_resetOwner_activated (os : List NodeId) (c : Configuration) (x : NodeId) :
    x ∈ (os.foldl g.resetOwner c).activated ↔ x ∈ c.activated ∧
      ¬ ∃ o ∈ os, if g.tree.isReset o then g.tree.Below o x else x = o := by
  induction os generalizing c with
  | nil => simp
  | cons o os ih =>
    rw [List.foldl_cons, ih]
    have : x ∈ (g.resetOwner c o).activated ↔ x ∈ c.activated ∧
        ¬ if g.tree.isReset o then g.tree.Below o x else x = o := by
      unfold resetOwner Configuration.retract Configuration.forget
      by_cases hr : g.tree.isReset o <;> simp [hr, mem_depthFirst]
    rw [this, and_assoc]
    simp only [List.mem_cons, exists_eq_or_imp, not_or]

theorem mem_foldl_resetOwner_completed (os : List NodeId) (c : Configuration) (x : NodeId) :
    x ∈ (os.foldl g.resetOwner c).completed ↔ x ∈ c.completed ∧
      (¬ ∃ o ∈ os, if g.tree.isReset o then g.tree.Below o x else x = o) ∧
      ¬ ∃ o ∈ os, x ∈ (g.tree.ancestors o).takeWhile fun a => !g.isCheckpoint a := by
  induction os generalizing c with
  | nil => simp
  | cons o os ih =>
    rw [List.foldl_cons, ih]
    have : x ∈ (g.resetOwner c o).completed ↔ x ∈ c.completed ∧
        (¬ if g.tree.isReset o then g.tree.Below o x else x = o) ∧
        x ∉ (g.tree.ancestors o).takeWhile fun a => !g.isCheckpoint a := by
      unfold resetOwner Configuration.retract Configuration.forget
      by_cases hr : g.tree.isReset o <;> simp [hr, mem_depthFirst, and_assoc]
    rw [this]
    simp only [List.mem_cons, exists_eq_or_imp, not_or]
    constructor
    · rintro ⟨⟨h, h1, h2⟩, h3, h4⟩
      exact ⟨h, ⟨h1, h3⟩, h2, h4⟩
    · rintro ⟨h, ⟨h1, h3⟩, h2, h4⟩
      exact ⟨⟨h, h1, h2⟩, h3, h4⟩

theorem mem_struck {c : Configuration} {d o : NodeId} :
    (o ∈ (g.owners d).filter fun o => !g.behindCheckpoint c.completed o) ↔
      g.Struck c.completed d o := by
  rw [List.mem_filter, Struck, ← behindCheckpoint_iff]
  simp

theorem mem_applyDefense_activated {d x : NodeId} {c : Configuration} :
    x ∈ (g.applyDefense d c).activated ↔ x ∈ c.activated ∧ ¬ g.Erased c.completed d x := by
  rw [applyDefense, mem_foldl_resetOwner_activated]
  simp only [mem_struck, Erased]

theorem mem_applyDefense_completed {d x : NodeId} {c : Configuration} :
    x ∈ (g.applyDefense d c).completed ↔ x ∈ c.completed ∧ ¬ g.Lost c.completed d x := by
  rw [applyDefense, mem_foldl_resetOwner_completed]
  simp only [mem_struck, Lost, Erased, Retracted, not_or]

/-! ## Kinds of lost nodes -/

theorem Sound.not_isCheckpoint_of_mem_owners (hg : g.Sound) {d o : NodeId} (h : o ∈ g.owners d) :
    ¬ g.isCheckpoint o := by
  have hd := ((hg.mem_owners o d).1 h).2
  intro hc
  unfold isCheckpoint at hc
  rw [Bool.and_eq_true, List.isEmpty_iff] at hc
  rw [hc.1] at hd
  cases hd

theorem Struck.reachable (hg : g.Sound) {s : NodeSet} {d o : NodeId} (h : g.Struck s d o) :
    g.Reachable o :=
  ((hg.mem_owners o d).1 h.1).1

theorem Retracted.not_isCheckpoint {s : NodeSet} {d x : NodeId} (h : g.Retracted s d x) :
    ¬ g.isCheckpoint x := by
  obtain ⟨o, _, hx⟩ := h
  simpa using List.all_eq_true.1 List.all_takeWhile x hx

theorem Retracted.mem_ancestors {s : NodeSet} {d x : NodeId} (h : g.Retracted s d x) :
    ∃ o, g.Struck s d o ∧ x ∈ g.tree.ancestors o := by
  obtain ⟨o, ho, hx⟩ := h
  exact ⟨o, ho, (List.takeWhile_prefix _).subset hx⟩

theorem Retracted.isSubgoal (hg : g.Sound) {s : NodeSet} {d x : NodeId} (h : g.Retracted s d x) :
    g.tree.isSubgoal x := by
  obtain ⟨o, _, hx⟩ := h.mem_ancestors
  exact hg.tree.isSubgoal_of_mem_ancestors hx

/-- A checkpoint is lost only inside a reset subgoal that is struck. -/
theorem Sound.reset_of_lost_checkpoint (hg : g.Sound) {s : NodeSet} {d q : NodeId}
    (hq : g.isCheckpoint q) (h : g.Lost s d q) :
    ∃ o, g.Struck s d o ∧ g.tree.isReset o ∧ g.tree.Below o q := by
  rcases h with ⟨o, ho, hx⟩ | h
  · by_cases hr : g.tree.isReset o
    · rw [if_pos hr] at hx
      exact ⟨o, ho, hr, hx⟩
    · rw [if_neg hr] at hx
      subst hx
      exact absurd hq (hg.not_isCheckpoint_of_mem_owners ho.1)
  · exact absurd hq h.not_isCheckpoint

theorem Struck.erased {s : NodeSet} {d o : NodeId} (h : g.Struck s d o) : g.Erased s d o :=
  ⟨o, h, by split <;> exact .refl o⟩

theorem erased_of_reset {s : NodeSet} {d o x : NodeId} (ho : g.Struck s d o)
    (hr : g.tree.isReset o) (hx : g.tree.Below o x) : g.Erased s d x :=
  ⟨o, ho, by rwa [if_pos hr]⟩

/-! ## Going up -/

/-- In a climb that stops at the first checkpoint the next goal follows, unless it is one. -/
theorem mem_takeWhile_ancestors_of_parent (ht : g.tree.Sound) {o x p : NodeId}
    (hx : x ∈ (g.tree.ancestors o).takeWhile fun a => !g.isCheckpoint a)
    (hp : g.tree.parent? x = some p) (hc : ¬ g.isCheckpoint p) :
    p ∈ (g.tree.ancestors o).takeWhile fun a => !g.isCheckpoint a := by
  fun_induction ancestors g.tree o with
  | case1 o hnone => cases hx
  | case2 o q hsome hlt ih =>
    by_cases hq : g.isCheckpoint q
    · simp [hq] at hx
    · rw [List.takeWhile_cons_of_pos (by simpa using hq)] at hx ⊢
      rcases List.mem_cons.1 hx with rfl | hx
      · rw [ht.ancestors_eq_cons hp, List.takeWhile_cons_of_pos (by simpa using hc)]
        exact List.mem_cons_of_mem _ List.mem_cons_self
      · exact List.mem_cons_of_mem _ (ih hx)
  | case3 o q hsome hlt => cases hx

/-- The goal above a struck owner is retracted, unless it is a checkpoint. -/
theorem retracted_of_parent (ht : g.tree.Sound) {s : NodeSet} {d o p : NodeId}
    (ho : g.Struck s d o) (hp : g.tree.parent? o = some p) (hc : ¬ g.isCheckpoint p) :
    g.Retracted s d p := by
  refine ⟨o, ho, ?_⟩
  rw [ht.ancestors_eq_cons hp, List.takeWhile_cons_of_pos (by simpa using hc)]
  exact List.mem_cons_self

/-- Whatever is lost, the goal above it is lost too, unless it is a checkpoint. -/
theorem Sound.lost_of_parent (hg : g.Sound) {s : NodeSet} {d x p : NodeId} (h : g.Lost s d x)
    (hp : g.tree.parent? x = some p) (hc : ¬ g.isCheckpoint p) : g.Lost s d p := by
  rcases h with ⟨o, ho, hx⟩ | ⟨o, ho, hx⟩
  · by_cases hr : g.tree.isReset o
    · rw [if_pos hr] at hx
      rcases hx.eq_or_parent with rfl | ⟨q, hq, hxq⟩
      · exact .inr (retracted_of_parent hg.tree ho hp hc)
      · have hqp : g.tree.parent? x = some q := hg.parent q ((ho.reachable hg).trans hq) x hxq
        obtain rfl : q = p := Option.some.inj (hqp.symm.trans hp)
        exact .inl (erased_of_reset ho hr hq)
    · rw [if_neg hr] at hx
      subst hx
      exact .inr (retracted_of_parent hg.tree ho hp hc)
  · exact .inr ⟨o, ho, mem_takeWhile_ancestors_of_parent hg.tree hx hp hc⟩

/-! ## Nothing grows back -/

/-- Propagation completes nothing in a subtree that has nothing completed. -/
theorem Sound.not_mem_propagate_of_below (hg : g.Sound) {s : NodeSet} {o : NodeId}
    (h : ∀ x ∈ s, ¬ g.tree.Below o x) : ∀ x ∈ g.propagate s, ¬ g.tree.Below o x := by
  apply propagate_induction h
  intro x _ hsup hx
  obtain ⟨c, hc, hn⟩ := hsup.exists_child hg.tree
  exact hn (hx.step hc)

/-- Below a reset subgoal that is struck nothing is completed. -/
theorem Sound.not_mem_propagate_applyDefense (hg : g.Sound) {c : Configuration} {d o x : NodeId}
    (ho : g.Struck c.completed d o) (hr : g.tree.isReset o) (hx : g.tree.Below o x) :
    x ∉ g.propagate (g.applyDefense d c).completed := by
  intro hmem
  refine hg.not_mem_propagate_of_below (fun y hy hb => ?_) x hmem hx
  exact (mem_applyDefense_completed.1 hy).2 (.inl (erased_of_reset ho hr hb))

end AttackDefense.Graph
