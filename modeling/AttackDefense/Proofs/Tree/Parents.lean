import AttackDefense.Proofs.Tree.DepthFirst
import AttackDefense.Proofs.Tree.Sound

/-!
# What an assignment of parents leaves behind

`Grows` says how the parents change along the walk: none is taken back, and a new one is listed
below the stack.  So a conflict, too, leaves a sound tree (`Sound.setParents`), and every tree that
can be built is sound (`Built.sound`).

A walk without a conflict makes each subgoal below the root the parent of all its children
(`parent?_setParents`), and the root stays without one (`parent?_root_setParents`).
-/

namespace AttackDefense.Tree

variable {t : Tree}

/-- Parents that were assigned stay, and a new one comes from `new`. -/
structure Grows (parents parents' : Array (Option NodeId)) (new : NodeId → NodeId → Prop) :
    Prop where
  size_eq : parents'.size = parents.size
  keeps : ∀ x p : NodeId, parents[x]?.join = some p → parents'[x]?.join = some p
  origin : ∀ x p : NodeId, parents'[x]?.join = some p → parents[x]?.join = some p ∨ new p x

namespace Grows

variable {a b c : Array (Option NodeId)} {new new' : NodeId → NodeId → Prop}

theorem refl (a : Array (Option NodeId)) (new : NodeId → NodeId → Prop) : Grows a a new :=
  ⟨rfl, fun _ _ h => h, fun _ _ h => .inl h⟩

theorem mono (h : Grows a b new) (hn : ∀ p x, new p x → new' p x) : Grows a b new' :=
  ⟨h.size_eq, h.keeps, fun x p hx => (h.origin x p hx).imp_right (hn p x)⟩

theorem trans (h : Grows a b new) (h' : Grows b c new) : Grows a c new where
  size_eq := h'.size_eq.trans h.size_eq
  keeps x p hx := h'.keeps x p (h.keeps x p hx)
  origin x p hx := by
    rcases h'.origin x p hx with hx | hx
    · exact h.origin x p hx
    · exact .inr hx

/-- A node without a parent gets one. -/
theorem set {x p : NodeId} (hx : a[x]?.join = none) (hnew : new p x) :
    Grows a (a.setIfInBounds x (some p)) new where
  size_eq := Array.size_setIfInBounds
  keeps y q hy := by
    rw [Array.getElem?_setIfInBounds]
    split
    · next hxy =>
      rw [← hxy, hx] at hy
      cases hy
    · exact hy
  origin y q hy := by
    rw [Array.getElem?_setIfInBounds] at hy
    split at hy
    · next hxy =>
      right
      split at hy
      · obtain rfl : p = q := Option.some.inj hy
        exact hxy ▸ hnew
      · cases hy
    · exact .inl hy

end Grows

/-! ## Children of one subgoal -/

theorem adopt_grows (t : Tree) (parent : NodeId) (parents : Array (Option NodeId))
    (cs : List NodeId) :
    Grows parents (t.adopt parent parents cs).1 fun p x => p = parent ∧ x ∈ cs := by
  fun_induction adopt t parent parents cs with
  | case1 parents => exact .refl parents _
  | case2 parents c rest hnone ih =>
    have hset : Grows parents (parents.setIfInBounds c (some parent))
        fun p x => p = parent ∧ x ∈ c :: rest := .set hnone ⟨rfl, List.mem_cons_self⟩
    exact hset.trans (ih.mono fun p x h => ⟨h.1, List.mem_cons_of_mem _ h.2⟩)
  | case3 parents c rest hsome ih =>
    exact ih.mono fun p x h => ⟨h.1, List.mem_cons_of_mem _ h.2⟩
  | case4 parents c rest p hsome hne => exact .refl parents _

theorem adopt_all {parent : NodeId} {parents : Array (Option NodeId)} {cs : List NodeId}
    (h : (t.adopt parent parents cs).2 = none) :
    ∀ c ∈ cs, c < parents.size → (t.adopt parent parents cs).1[c]?.join = some parent := by
  fun_induction adopt t parent parents cs with
  | case1 parents =>
    intro c hc
    cases hc
  | case2 parents c rest hnone ih =>
    intro x hx hlt
    rcases List.mem_cons.1 hx with rfl | hx
    · apply (t.adopt_grows parent _ rest).keeps
      rw [Array.getElem?_setIfInBounds, if_pos rfl, if_pos hlt]
      rfl
    · exact ih h x hx (by rwa [Array.size_setIfInBounds])
  | case3 parents c rest hsome ih =>
    intro x hx hlt
    rcases List.mem_cons.1 hx with rfl | hx
    · exact (t.adopt_grows parent parents rest).keeps x parent hsome
    · exact ih h x hx hlt
  | case4 parents c rest p hsome hne => cases h

/-! ## The walk -/

/-- A pair of a subgoal below the stack and a child of it. -/
def ListedBelow (t : Tree) (stack : List NodeId) (p x : NodeId) : Prop :=
  x ∈ t.children p ∧ ∃ id ∈ stack, t.Below id p

theorem ListedBelow.of_pop {id : NodeId} {stack : List NodeId} {p x : NodeId}
    (h : t.ListedBelow (t.children id ++ stack) p x) : t.ListedBelow (id :: stack) p x := by
  obtain ⟨hx, c, hc, hp⟩ := h
  refine ⟨hx, ?_⟩
  rcases List.mem_append.1 hc with hc | hc
  · exact ⟨id, List.mem_cons_self, .child hc hp⟩
  · exact ⟨c, List.mem_cons_of_mem _ hc, hp⟩

theorem adopt_children_grows (t : Tree) (parents : Array (Option NodeId)) (id : NodeId)
    (stack : List NodeId) :
    Grows parents (t.adopt id parents (t.children id)).1 (t.ListedBelow (id :: stack)) := by
  apply (t.adopt_grows id parents (t.children id)).mono
  rintro p x ⟨rfl, hx⟩
  exact ⟨hx, p, List.mem_cons_self, .refl p⟩

theorem assignFrom_grows (t : Tree) (parents : Array (Option NodeId)) (stack : List NodeId) :
    Grows parents (t.assignFrom parents stack).1 (t.ListedBelow stack) := by
  fun_induction assignFrom t parents stack with
  | case1 parents => exact .refl parents _
  | case2 parents id stack parents' fault heq =>
    have hg := t.adopt_children_grows parents id stack
    rwa [heq] at hg
  | case3 parents id stack parents' heq ih =>
    have hg := t.adopt_children_grows parents id stack
    rw [heq] at hg
    exact hg.trans (ih.mono fun _ _ h => h.of_pop)

/-- Without a conflict every subgoal below the stack has become the parent of its children. -/
theorem assignFrom_all {parents : Array (Option NodeId)} {stack : List NodeId}
    (h : (t.assignFrom parents stack).2 = none) {p x : NodeId} (hx : t.ListedBelow stack p x)
    (hlt : x < parents.size) : (t.assignFrom parents stack).1[x]?.join = some p := by
  fun_induction assignFrom t parents stack with
  | case1 parents =>
    obtain ⟨_, _, hid, _⟩ := hx
    cases hid
  | case2 parents id stack parents' fault heq => cases h
  | case3 parents id stack parents' heq ih =>
    have hsize := (t.adopt_grows id parents (t.children id)).size_eq
    have hall : ∀ c ∈ t.children id, c < parents.size →
        (t.adopt id parents (t.children id)).1[c]?.join = some id := adopt_all (by rw [heq])
    rw [heq] at hsize hall
    obtain ⟨hc, top, htop, hp⟩ := hx
    have later (hl : t.ListedBelow (t.children id ++ stack) p x) :
        (t.assignFrom parents' (t.children id ++ stack)).1[x]?.join = some p :=
      ih h hl (by rwa [hsize])
    rcases List.mem_cons.1 htop with rfl | htop
    · cases hp with
      | refl => exact (t.assignFrom_grows parents' _).keeps x p (hall x hc hlt)
      | child hq hp => exact later ⟨hc, _, List.mem_append_left _ hq, hp⟩
    · exact later ⟨hc, top, List.mem_append_right _ htop, hp⟩

/-! ## The tree afterwards -/

/-- Only the parents of a tree are changed. -/
theorem Sound.withParents (hs : t.Sound) {parents : Array (Option NodeId)}
    (hsize : parents.size = t.parents.size)
    (hparent : ∀ c p, parents[c]?.join = some p → c ∈ t.children p) :
    Sound { t with parents } where
  parents_size := hsize.trans hs.parents_size
  find?_iff := hs.find?_iff
  identifier := hs.identifier
  fits id node hn := by
    have hf := hs.fits id node hn
    cases node with
    | attack a => exact hf
    | defense d => exact hf
    | subgoal s => exact ⟨hf.attacks, hf.subgoals, hf.defenses, hf.nonempty, hf.arity, hf.edge⟩
  parent := hparent

theorem Sound.setParents (hs : t.Sound) (root : NodeId) : (t.setParents root).1.Sound := by
  unfold Tree.setParents
  split
  · exact hs
  · split
    · exact hs
    · have hg := t.assignFrom_grows t.parents [root]
      apply hs.withParents hg.size_eq
      intro c p hc
      rcases hg.origin c p hc with hc | hc
      · exact hs.parent c p hc
      · exact hc.1

/-- **Invariant.**  However a tree was built, it is sound. -/
theorem Built.sound (h : Built t) : t.Sound := by
  induction h with
  | empty maxArity =>
    exact {
      parents_size := rfl
      find?_iff := by simp [Tree.empty, find?, node?]
      identifier := by simp [Tree.empty, node?]
      fits := by simp [Tree.empty, node?]
      parent := by simp [Tree.empty, parent?] }
  | attack _ h ih => exact ih.addAttack h
  | defense _ h ih => exact ih.addDefense h
  | subgoal _ h ih => exact ih.addSubgoal h
  | parents root _ ih => exact ih.setParents root

theorem node?_setParents (t : Tree) (root id : NodeId) :
    (t.setParents root).1.node? id = t.node? id := by
  unfold Tree.setParents
  split
  · rfl
  · split <;> rfl

theorem children_setParents (t : Tree) (root id : NodeId) :
    (t.setParents root).1.children id = t.children id := by
  rw [children, node?_setParents]
  rfl

theorem below_of_below_setParents {root p x : NodeId} (h : (t.setParents root).1.Below p x) :
    t.Below p x := by
  induction h with
  | refl p => exact .refl p
  | child hc _ ih => exact .child (children_setParents t root _ ▸ hc) ih

/-- What is known of an assignment that met no conflict. -/
theorem setParents_eq_none {root : NodeId} (h : (t.setParents root).2 = none) :
    t.has root ∧ t.parent? root = none ∧
      t.setParents root = ({ t with parents := (t.assignFrom t.parents [root]).1 }, none) ∧
      (t.assignFrom t.parents [root]).2 = none := by
  unfold Tree.setParents at h ⊢
  split at h
  · cases h
  · next hroot =>
    split at h
    · cases h
    · next hnone =>
      rw [if_neg hroot]
      simp only [hnone]
      exact ⟨by simpa using hroot, trivial, Prod.ext rfl h, h⟩

theorem parent?_setParents (hs : t.Sound) {root : NodeId} (h : (t.setParents root).2 = none)
    {p c : NodeId} (hp : (t.setParents root).1.Below root p)
    (hc : c ∈ (t.setParents root).1.children p) : (t.setParents root).1.parent? c = some p := by
  have hp := below_of_below_setParents hp
  rw [children_setParents] at hc
  obtain ⟨hroot, _, heq, hnone⟩ := setParents_eq_none h
  rw [heq]
  apply assignFrom_all hnone ⟨hc, root, List.mem_cons_self, hp⟩
  rw [hs.parents_size]
  exact Nat.lt_of_lt_of_le (children_lt hc)
    (Nat.le_trans hp.le (Nat.le_of_lt (by simpa [has] using hroot)))

theorem parent?_root_setParents {root : NodeId} (h : (t.setParents root).2 = none) :
    (t.setParents root).1.parent? root = none := by
  obtain ⟨_, hroot, heq, _⟩ := setParents_eq_none h
  rw [heq]
  cases hp : Tree.parent? { t with parents := (t.assignFrom t.parents [root]).1 } root with
  | none => rfl
  | some p =>
    -- a new parent would lie below the root and above it
    rcases (t.assignFrom_grows t.parents [root]).origin root p hp with hold | ⟨hc, top, htop, hb⟩
    · exact absurd (hroot.symm.trans hold) (by simp)
    · obtain rfl : top = root := by simpa using htop
      exact absurd (children_lt hc) (Nat.not_lt.2 hb.le)

end AttackDefense.Tree
