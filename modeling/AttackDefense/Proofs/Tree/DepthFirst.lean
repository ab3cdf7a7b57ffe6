import AttackDefense.Tree.Walk

/-!
# The walk with a stack lists the pre-order

`Below t p x` says that a walk down from `p` meets `x`.  `preOrder` is the list that a recursive
walk would give: a node, then the pre-orders of its children.

    t.depthFirst start = t.preOrder start                          (depthFirst_eq_preOrder)
    x ∈ t.depthFirst start ↔ t.Below start x                       (mem_depthFirst)

What a single pass from the end of the list relies on is `suffix_preOrder_closed`: wherever the
list is cut, the rest holds the children of every node in it.  This also holds when a subgoal lists
a child twice, so that the pre-order is no list of distinct nodes.
-/

namespace AttackDefense.Tree

variable {t : Tree}

/-! ## Below -/

/-- `x` is `p` itself or is found by walking down from it. -/
inductive Below (t : Tree) : NodeId → NodeId → Prop
  | refl (p : NodeId) : Below t p p
  | child {p c x : NodeId} : c ∈ t.children p → Below t c x → Below t p x

theorem Below.trans {p q x : NodeId} (h : t.Below p q) (hq : t.Below q x) : t.Below p x := by
  induction h with
  | refl => exact hq
  | child hc _ ih => exact .child hc (ih hq)

theorem Below.step {p x c : NodeId} (h : t.Below p x) (hc : c ∈ t.children x) : t.Below p c :=
  h.trans (.child hc (.refl c))

theorem Below.le {p x : NodeId} (h : t.Below p x) : x ≤ p := by
  induction h with
  | refl => exact Nat.le_refl _
  | child hc _ ih => exact Nat.le_trans ih (Nat.le_of_lt (children_lt hc))

/-- The last step of a walk that is not empty. -/
theorem Below.eq_or_parent {p x : NodeId} (h : t.Below p x) :
    x = p ∨ ∃ q, t.Below p q ∧ x ∈ t.children q := by
  induction h with
  | refl => exact .inl rfl
  | @child p c x hc hx ih =>
    right
    rcases ih with rfl | ⟨q, hq, hxq⟩
    · exact ⟨p, .refl p, hc⟩
    · exact ⟨q, .child hc hq, hxq⟩

/-! ## The pre-order -/

/-- A node, then the pre-orders of its children in their order. -/
def preOrder (t : Tree) (id : NodeId) : List NodeId :=
  id :: (t.children id).attach.flatMap fun c => t.preOrder c.1
termination_by id
decreasing_by exact children_lt c.2

theorem preOrder_eq (t : Tree) (id : NodeId) :
    t.preOrder id = id :: (t.children id).flatMap t.preOrder := by
  rw [preOrder, List.flatMap_subtype (g := t.preOrder) fun _ _ => rfl, List.unattach_attach]

theorem mem_preOrder {p x : NodeId} : x ∈ t.preOrder p ↔ t.Below p x := by
  constructor
  · intro h
    induction p using Nat.strongRecOn with
    | _ p ih =>
      rw [preOrder_eq] at h
      rcases List.mem_cons.1 h with rfl | h
      · exact .refl x
      · obtain ⟨c, hc, hx⟩ := List.mem_flatMap.1 h
        exact .child hc (ih c (children_lt hc) hx)
  · intro h
    induction h with
    | refl p => rw [preOrder_eq]; exact List.mem_cons_self
    | child hc _ ih =>
      rw [preOrder_eq]
      exact List.mem_cons_of_mem _ (List.mem_flatMap.2 ⟨_, hc, ih⟩)

/-- The stack holds the nodes whose pre-orders are still to be listed. -/
theorem depthFirstFrom_eq (t : Tree) (visited : Array NodeId) (stack : List NodeId) :
    (t.depthFirstFrom visited stack).toList = visited.toList ++ stack.flatMap t.preOrder := by
  fun_induction depthFirstFrom t visited stack with
  | case1 visited => simp
  | case2 visited id stack ih =>
    rw [ih, List.flatMap_append, List.flatMap_cons, preOrder_eq t id]
    simp

theorem depthFirst_eq_preOrder (t : Tree) (start : NodeId) :
    t.depthFirst start = t.preOrder start := by
  rw [depthFirst, depthFirstFrom_eq]
  simp

theorem mem_depthFirst {start x : NodeId} : x ∈ t.depthFirst start ↔ t.Below start x := by
  rw [depthFirst_eq_preOrder, mem_preOrder]

/-! ## Cutting the list -/

/-- Holds the children of every node in it. -/
def ChildrenClosed (t : Tree) (l : List NodeId) : Prop := ∀ x ∈ l, ∀ c ∈ t.children x, c ∈ l

theorem ChildrenClosed.append {l m : List NodeId} (hl : t.ChildrenClosed l)
    (hm : t.ChildrenClosed m) : t.ChildrenClosed (l ++ m) := by
  intro x hx c hc
  rw [List.mem_append] at hx ⊢
  rcases hx with hx | hx
  · exact .inl (hl x hx c hc)
  · exact .inr (hm x hx c hc)

/-- Where a list of pieces is cut, a rest of one piece is followed by whole pieces. -/
theorem suffix_flatMap_closed (f : NodeId → List NodeId) (cs : List NodeId)
    (hf : ∀ c ∈ cs, ∀ l, l <:+ f c → t.ChildrenClosed l) (l : List NodeId)
    (h : l <:+ cs.flatMap f) : t.ChildrenClosed l := by
  induction cs generalizing l with
  | nil =>
    rw [List.flatMap_nil, List.suffix_nil] at h
    subst h
    intro x hx
    cases hx
  | cons c cs ih =>
    have ih := ih fun c hc => hf c (List.mem_cons_of_mem _ hc)
    obtain ⟨cut, h⟩ := h
    rw [List.flatMap_cons] at h
    rcases List.append_eq_append_iff.1 h with ⟨m, hc, rfl⟩ | ⟨m, rfl, hm⟩
    · exact (hf c List.mem_cons_self m ⟨cut, hc.symm⟩).append (ih _ List.suffix_rfl)
    · exact ih l ⟨m, hm.symm⟩

/-- Wherever the pre-order is cut, every node of the rest has its children in the rest. -/
theorem suffix_preOrder_closed {p : NodeId} {l : List NodeId} (h : l <:+ t.preOrder p) :
    t.ChildrenClosed l := by
  induction p using Nat.strongRecOn generalizing l with
  | _ p ih =>
    have below : ∀ m, m <:+ (t.children p).flatMap t.preOrder → t.ChildrenClosed m :=
      suffix_flatMap_closed t.preOrder (t.children p) fun c hc m hm => ih c (children_lt hc) hm
    rw [preOrder_eq, List.suffix_cons_iff] at h
    rcases h with rfl | h
    · intro x hx c hc
      rw [← preOrder_eq, mem_preOrder] at hx ⊢
      exact hx.step hc
    · exact below l h

end AttackDefense.Tree
