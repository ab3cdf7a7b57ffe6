import AttackDefense.Proofs.Tree.Assignment
import Mathlib.Data.List.Nodup

/-!
# Forests

While a tree is put together from below, its nodes form a forest: `t.Forest roots` says that no node
has two subgoals above it or stands twice below one, that the roots stand below none, and that every
other attack and subgoal stands below some.  A subgoal over roots makes one root of them:

    t.Forest (taken ++ rest) → t.addSubgoal name refinement taken.reverse reset = .ok (t', id) →
      t'.Forest (id :: rest)                                             (Forest.addSubgoal)

Below a single root the assignment of parents finds nothing disputed, and makes every subgoal the
parent of its children (`Forest.parent?_setParents_iff`).
-/

namespace AttackDefense.Tree

variable {t t' : Tree} {id root : NodeId} {roots taken rest : List NodeId}

/-- No node stands below two subgoals, or twice below one; exactly the roots and some defenses stand
below none; and no parents are assigned yet. -/
structure Forest (t : Tree) (roots : List NodeId) : Prop where
  built : t.Built
  orphan : ∀ x, t.parent? x = none
  nodup : roots.Nodup
  has : ∀ x ∈ roots, x < t.size
  unlisted : ∀ x ∈ roots, ∀ p, x ∉ t.children p
  sole : ∀ p q c, c ∈ t.children p → c ∈ t.children q → p = q
  distinct : ∀ p s, t.subgoal? p = some s → (s.children ++ s.defenses).Nodup
  covered : ∀ x, t.isAttack x ∨ t.isSubgoal x → x ∈ roots ∨ ∃ p, x ∈ t.children p

theorem forest_empty (maxArity : Nat) : (Tree.empty maxArity).Forest [] where
  built := .empty maxArity
  orphan := by simp [parent?, Tree.empty]
  nodup := .nil
  has := by simp
  unlisted := by simp
  sole := by simp [children, node?, Tree.empty]
  distinct := by simp [subgoal?, node?, Tree.empty]
  covered := by simp [isAttack, isSubgoal, attack?, subgoal?, node?, Tree.empty]

/-! ## One more node -/

section

variable {node : Node} (h : ∀ c ∈ node.children, c < t.size)

theorem size_withNode : (t.withNode node h).size = t.size + 1 := by
  simp [size, withNode]

/-- What is listed is what was listed before, and the children of the new node. -/
theorem mem_children_withNode {c p : NodeId} : c ∈ (t.withNode node h).children p ↔
    p = t.size ∧ c ∈ node.children ∨ c ∈ t.children p := by
  have hnone : t.children t.size = [] := by
    rw [children, node?_size]
    rfl
  unfold children
  rw [node?_withNode]
  by_cases hp : p = t.size
  · rw [hp, ← children, hnone]
    simp
  · simp [hp]

theorem subgoal?_withNode (x : NodeId) :
    (t.withNode node h).subgoal? x = if x = t.size then node.asSubgoal? else t.subgoal? x := by
  unfold subgoal?
  rw [node?_withNode]
  split <;> rfl

/-- The kind of a node that was there before. -/
theorem kind_of_kind_withNode {x : NodeId} (hx : x ≠ t.size)
    (hk : (t.withNode node h).isAttack x ∨ (t.withNode node h).isSubgoal x) :
    t.isAttack x ∨ t.isSubgoal x := by
  simpa only [isAttack_iff, isSubgoal_iff, node?_withNode, if_neg hx] using hk

end

theorem lt_size_of_mem_children {p c : NodeId} (hc : c ∈ t.children p) : c < t.size :=
  Nat.lt_trans (children_lt hc) (lt_size_of_isSubgoal (isSubgoal_of_mem_children hc))

/-- **Step.**  A node over some of the roots takes their place. -/
theorem Forest.insert (hf : t.Forest (taken ++ rest)) {node : Node}
    {hlt : ∀ c ∈ node.children, c < t.size} (hi : t.insert node hlt = .ok (t', id))
    (hbuilt : t'.Built) (hsub : ∀ c ∈ node.children, c ∈ taken)
    (hall : ∀ c ∈ taken, t.isAttack c ∨ t.isSubgoal c → c ∈ node.children)
    (hdistinct : ∀ s, node.asSubgoal? = some s → (s.children ++ s.defenses).Nodup) :
    t'.Forest (id :: rest) := by
  obtain ⟨_, _, rfl, rfl⟩ := insert_eq_ok.1 hi
  have hrest : ∀ x ∈ rest, x ∈ taken ++ rest := fun x hx => List.mem_append_right _ hx
  have hnode : ∀ c ∈ node.children, c ∈ taken ++ rest := fun c hc =>
    List.mem_append_left _ (hsub c hc)
  exact {
    built := hbuilt
    orphan := fun x => (parent?_withNode hlt x).trans (hf.orphan x)
    nodup := List.nodup_cons.2 ⟨fun hid => Nat.lt_irrefl _ (hf.has _ (hrest _ hid)),
      (List.nodup_append.1 hf.nodup).2.1⟩
    has := by
      intro x hx
      rw [size_withNode]
      rcases List.mem_cons.1 hx with rfl | hx
      · exact Nat.lt_succ_self _
      · exact Nat.lt_succ_of_lt (hf.has x (hrest x hx))
    unlisted := by
      intro x hx p hxp
      rcases List.mem_cons.1 hx with rfl | hx
      · -- the new number is too large to be listed
        rcases (mem_children_withNode hlt).1 hxp with ⟨_, hxc⟩ | hxp
        · exact Nat.lt_irrefl _ (hlt _ hxc)
        · exact Nat.lt_irrefl _ (lt_size_of_mem_children hxp)
      · rcases (mem_children_withNode hlt).1 hxp with ⟨_, hxc⟩ | hxp
        · exact (List.nodup_append.1 hf.nodup).2.2 x (hsub x hxc) x hx rfl
        · exact hf.unlisted x (hrest x hx) p hxp
    sole := by
      intro p q c hp hq
      rcases (mem_children_withNode hlt).1 hp with ⟨rfl, hpc⟩ | hp <;>
        rcases (mem_children_withNode hlt).1 hq with ⟨rfl, hqc⟩ | hq
      · rfl
      · exact absurd hq (hf.unlisted c (hnode c hpc) q)
      · exact absurd hp (hf.unlisted c (hnode c hqc) p)
      · exact hf.sole p q c hp hq
    distinct := by
      intro p s hs
      rw [subgoal?_withNode] at hs
      split at hs
      · exact hdistinct s hs
      · exact hf.distinct p s hs
    covered := by
      intro x hk
      by_cases hx : x = t.size
      · exact .inl (hx ▸ List.mem_cons_self)
      · have hk := kind_of_kind_withNode hlt hx hk
        rcases hf.covered x hk with hroot | ⟨p, hp⟩
        · rcases List.mem_append.1 hroot with htaken | hkept
          · have hlisted := (mem_children_withNode hlt).2 (.inl ⟨rfl, hall x htaken hk⟩)
            exact .inr ⟨t.size, hlisted⟩
          · exact .inl (List.mem_cons_of_mem _ hkept)
        · exact .inr ⟨p, (mem_children_withNode hlt).2 (.inr hp)⟩ }

/-- A node without children is a root of its own. -/
theorem Forest.insert_leaf (hf : t.Forest roots) {node : Node}
    {hlt : ∀ c ∈ node.children, c < t.size} (hi : t.insert node hlt = .ok (t', id))
    (hbuilt : t'.Built) (hleaf : node.asSubgoal? = none) : t'.Forest (id :: roots) := by
  have hnone : t.Forest ([] ++ roots) := hf
  have hchildren : node.children = [] := by
    cases node with
    | attack a => rfl
    | defense d => rfl
    | subgoal s => cases hleaf
  exact hnone.insert hi hbuilt (by simp [hchildren]) (by simp) (by simp [hleaf])

theorem Forest.addAttack (hf : t.Forest roots) {a : Attack} (h : t.addAttack a = .ok (t', id)) :
    t'.Forest (id :: roots) :=
  hf.insert_leaf (addAttack_eq_ok.1 h).2.2 (hf.built.attack h) rfl

theorem Forest.addDefense (hf : t.Forest roots) {d : Defense} (h : t.addDefense d = .ok (t', id)) :
    t'.Forest (id :: roots) :=
  hf.insert_leaf (addDefense_eq_ok.1 h).2.2 (hf.built.defense h) rfl

/-- The members of a subgoal are told apart by their kinds, so none gets in twice. -/
theorem nodup_subgoalOver {name : String} {refinement : Refinement} {members : List NodeId}
    {reset : Bool} (hm : members.Nodup) :
    ((t.subgoalOver name refinement members reset).children ++
      (t.subgoalOver name refinement members reset).defenses).Nodup := by
  have hkinds : (members.filter t.isAttack ++ members.filter t.isSubgoal).Nodup := by
    refine List.nodup_append.2 ⟨hm.filter _, hm.filter _, ?_⟩
    rintro x hx _ hy rfl
    exact not_isSubgoal_of_isAttack (List.mem_filter.1 hx).2 (List.mem_filter.1 hy).2
  refine List.nodup_append.2 ⟨hkinds, hm.filter _, ?_⟩
  rintro x hx _ hy rfl
  have hd := (List.mem_filter.1 hy).2
  rcases List.mem_append.1 hx with hx | hx
  · exact not_isDefense_of_isAttack (List.mem_filter.1 hx).2 hd
  · exact not_isSubgoal_of_isDefense hd (List.mem_filter.1 hx).2

theorem mem_children_subgoalOver {name : String} {refinement : Refinement} {members : List NodeId}
    {reset : Bool} {c : NodeId} :
    c ∈ (t.subgoalOver name refinement members reset).children ↔
      c ∈ members ∧ (t.isAttack c ∨ t.isSubgoal c) := by
  simp only [Subgoal.children, subgoalOver, List.mem_append, List.mem_filter, and_or_left]

theorem Forest.addSubgoal (hf : t.Forest (taken ++ rest)) {name : String} {refinement : Refinement}
    {reset : Bool} (h : t.addSubgoal name refinement taken.reverse reset = .ok (t', id)) :
    t'.Forest (id :: rest) := by
  have hi := (addSubgoal_eq_ok.1 h).2.2.2.2
  refine hf.insert hi (hf.built.subgoal h) ?_ ?_ ?_
  · intro c hc
    exact List.mem_reverse.1 (mem_children_subgoalOver.1 hc).1
  · intro c hc hk
    exact mem_children_subgoalOver.2 ⟨List.mem_reverse.2 hc, hk⟩
  · intro s hs
    cases hs
    exact nodup_subgoalOver (List.nodup_reverse.2 (List.nodup_append.1 hf.nodup).1)

/-- A defense need not be counted among the roots. -/
theorem Forest.dropDefense (hf : t.Forest (id :: roots)) (hd : t.isDefense id) :
    t.Forest roots where
  built := hf.built
  orphan := hf.orphan
  nodup := (List.nodup_cons.1 hf.nodup).2
  has x hx := hf.has x (List.mem_cons_of_mem _ hx)
  unlisted x hx := hf.unlisted x (List.mem_cons_of_mem _ hx)
  sole := hf.sole
  distinct := hf.distinct
  covered := by
    intro x hk
    refine (hf.covered x hk).imp_left fun hx => (List.mem_cons.1 hx).resolve_left ?_
    rintro rfl
    rcases hk with hk | hk
    · exact not_isDefense_of_isAttack hk hd
    · exact not_isSubgoal_of_isDefense hd hk

/-! ## Parents -/

theorem Forest.setParents_eq_none (hf : t.Forest roots) (hroot : root ∈ roots) :
    (t.setParents root).2 = none := by
  have hhas : t.has root := by simpa [Tree.has] using hf.has root hroot
  refine (hf.built.sound.setParents_eq_none_iff hhas).2 ⟨hf.orphan root, fun p _ c hc => ?_⟩
  exact ⟨.inl (hf.orphan c), fun q _ hq => hf.sole q p c hq hc⟩

/-- All attacks and subgoals stand below a single root. -/
theorem Forest.below (hf : t.Forest [root]) {x : NodeId} (hk : t.isAttack x ∨ t.isSubgoal x) :
    t.Below root x := by
  induction hn : t.size - x using Nat.strongRecOn generalizing x with
  | _ n ih =>
    rcases hf.covered x hk with hx | ⟨p, hp⟩
    · rw [List.mem_singleton.1 hx]
      exact .refl root
    · have hsub := isSubgoal_of_mem_children hp
      have hless : t.size - p < n :=
        hn ▸ Nat.sub_lt_sub_left (lt_size_of_mem_children hp) (children_lt hp)
      exact (ih (t.size - p) hless (.inr hsub) rfl).step hp

/-- **Parents.**  In the tree of a single root, the parents assigned are the subgoals. -/
theorem Forest.parent?_setParents_iff (hf : t.Forest [root]) {c p : NodeId} :
    (t.setParents root).1.parent? c = some p ↔ c ∈ (t.setParents root).1.children p := by
  have hs := hf.built.sound
  constructor
  · exact (hs.setParents root).parent c p
  · intro hc
    rw [children_setParents] at hc
    have hp : t.Below root p := hf.below (.inr (isSubgoal_of_mem_children hc))
    exact parent?_setParents hs (hf.setParents_eq_none (List.mem_singleton_self root))
      (below_setParents.2 hp) (by rwa [children_setParents])

end AttackDefense.Tree
