import AttackDefense.Proofs.Tree.DepthFirst
import AttackDefense.Proofs.Tree.Sound

/-!
# Climbing to the root

In a sound tree the climb never stops before a node without a parent, and it only meets nodes that
the start lies below:

    t.parent? x = some p → t.ancestors x = p :: t.ancestors p      (ancestors_eq_cons)
    a ∈ t.ancestors x → t.Below a x ∧ x < a                        (below_of_mem_ancestors)
-/

namespace AttackDefense.Tree

variable {t : Tree}

theorem ancestors_eq_nil {x : NodeId} (h : t.parent? x = none) : t.ancestors x = [] := by
  rw [ancestors, h]

theorem isSubgoal_of_mem_children {p c : NodeId} (h : c ∈ t.children p) : t.isSubgoal p := by
  obtain ⟨s, hs, _⟩ := mem_children_iff.1 h
  exact isSubgoal_iff.2 ⟨s, subgoal?_eq_some.1 hs⟩

/-- The parent comes later and is a node, so that the climb goes on. -/
theorem Sound.parent_bounds (hs : t.Sound) {x p : NodeId} (h : t.parent? x = some p) :
    x < p ∧ p < t.size := by
  have hc := hs.parent x p h
  exact ⟨children_lt hc, lt_size_of_isSubgoal (isSubgoal_of_mem_children hc)⟩

theorem Sound.ancestors_eq_cons (hs : t.Sound) {x p : NodeId} (h : t.parent? x = some p) :
    t.ancestors x = p :: t.ancestors p := by
  rw [ancestors, h]
  exact dif_pos (hs.parent_bounds h)

/-- The ancestors of an ancestor are the rest of the climb. -/
theorem ancestors_suffix {x a : NodeId} (h : a ∈ t.ancestors x) :
    t.ancestors a <:+ t.ancestors x := by
  fun_induction ancestors t x with
  | case1 x hnone => cases h
  | case2 x p hsome hlt ih =>
    rcases List.mem_cons.1 h with rfl | h
    · exact List.suffix_cons _ _
    · exact (ih h).trans (List.suffix_cons _ _)
  | case3 x p hsome hlt => cases h

theorem mem_ancestors_trans {x a b : NodeId} (ha : a ∈ t.ancestors x) (hb : b ∈ t.ancestors a) :
    b ∈ t.ancestors x :=
  (ancestors_suffix ha).subset hb

theorem lt_of_mem_ancestors {x a : NodeId} (h : a ∈ t.ancestors x) : x < a := by
  fun_induction ancestors t x with
  | case1 x hnone => cases h
  | case2 x p hsome hlt ih =>
    rcases List.mem_cons.1 h with rfl | h
    · exact hlt.1
    · exact Nat.lt_trans hlt.1 (ih h)
  | case3 x p hsome hlt => cases h

theorem Sound.below_of_mem_ancestors (hs : t.Sound) {x a : NodeId} (h : a ∈ t.ancestors x) :
    t.Below a x := by
  fun_induction ancestors t x with
  | case1 x hnone => cases h
  | case2 x p hsome hlt ih =>
    have hc := hs.parent x p hsome
    rcases List.mem_cons.1 h with rfl | h
    · exact .child hc (.refl x)
    · exact (ih h).step hc
  | case3 x p hsome hlt => cases h

theorem Sound.isSubgoal_of_mem_ancestors (hs : t.Sound) {x a : NodeId} (h : a ∈ t.ancestors x) :
    t.isSubgoal a := by
  cases hs.below_of_mem_ancestors h with
  | refl => exact absurd (lt_of_mem_ancestors h) (Nat.lt_irrefl _)
  | child hc _ => exact isSubgoal_of_mem_children hc

end AttackDefense.Tree
