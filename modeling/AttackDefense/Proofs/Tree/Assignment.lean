import AttackDefense.Proofs.Tree.Ancestors
import AttackDefense.Proofs.Tree.Parents
import Mathlib.Logic.Relation

/-!
# Assignments that meet no conflict

The walk that assigns parents compares a child with whatever parent it has at that moment, from this
walk or from an earlier one.  `t.Undisputed root` says without a walk that nothing below the root is
claimed twice: a child has no parent but the subgoal that lists it, and no other subgoal below the
root lists it.  Then every parent that the walk meets is the one it is about to assign:

    t.has root → ((t.setParents root).2 = none ↔ t.parent? root = none ∧ t.Undisputed root)
                                                            (Sound.setParents_eq_none_iff)

Once every child has its parent, the walk changes nothing (`assignFrom_eq_self`), and climbing from
any node below the root ends in the root (`Sound.getLast?_ancestors`).
-/

namespace AttackDefense.Tree

open Relation

variable {t : Tree} {root : NodeId} {parents parents' : Array (Option NodeId)}
  {cs stack : List NodeId}

/-! ## Rounds of the walk -/

/-- One round of the walk: the node on top of the stack becomes the parent of its children, and
these are visited next. -/
inductive Visit (t : Tree) :
    Array (Option NodeId) × List NodeId → Array (Option NodeId) × List NodeId → Prop
  | adopt {parents parents' : Array (Option NodeId)} {id : NodeId} {stack : List NodeId} :
    t.adopt id parents (t.children id) = (parents', none) →
    Visit t (parents, id :: stack) (parents', t.children id ++ stack)

/-- There is no endless walk, since a round leaves less to visit. -/
theorem wellFounded_visit (t : Tree) : WellFounded fun after before => t.Visit before after := by
  refine Subrelation.wf ?_
    (measure fun w : Array (Option NodeId) × List NodeId => t.stackWeight w.2).wf
  rintro _ _ ⟨_⟩
  exact t.stackWeight_children_lt _ _

/-- A walk without a conflict goes on until the stack is empty. -/
theorem visits_assignFrom (h : (t.assignFrom parents stack).2 = none) :
    ReflTransGen t.Visit (parents, stack) ((t.assignFrom parents stack).1, []) := by
  fun_induction assignFrom t parents stack with
  | case1 parents => exact .refl
  | case2 parents id stack parents' fault heq => cases h
  | case3 parents id stack parents' heq ih => exact .head (.adopt heq) (ih h)

/-! ## Children that nobody else claims -/

theorem has_setParents (t : Tree) (root id : NodeId) : (t.setParents root).1.has id = t.has id := by
  unfold Tree.setParents
  split
  · rfl
  · split <;> rfl

theorem below_setParents {p x : NodeId} : (t.setParents root).1.Below p x ↔ t.Below p x := by
  refine ⟨below_of_below_setParents, fun h => ?_⟩
  induction h with
  | refl p => exact .refl p
  | child hc _ ih => exact .child (by rwa [children_setParents]) ih

/-- Below the root, a child has no parent but the subgoal that lists it, and no other subgoal lists
it. -/
def Undisputed (t : Tree) (root : NodeId) : Prop :=
  ∀ p, t.Below root p → ∀ c ∈ t.children p,
    (t.parent? c = none ∨ t.parent? c = some p) ∧
    ∀ q, t.Below root q → c ∈ t.children q → q = p

/-- No child has a parent other than the one that is about to adopt it. -/
def Free (parents : Array (Option NodeId)) (p : NodeId) (cs : List NodeId) : Prop :=
  ∀ c ∈ cs, parents[c]?.join = none ∨ parents[c]?.join = some p

theorem adopt_eq_none {p : NodeId} (h : Free parents p cs) : (t.adopt p parents cs).2 = none := by
  fun_induction adopt t p parents cs with
  | case1 parents => rfl
  | case2 parents c rest hnone ih =>
    apply ih
    intro x hx
    rw [Array.getElem?_setIfInBounds]
    split
    · split
      · exact .inr rfl
      · exact .inl rfl
    · exact h x (List.mem_cons_of_mem _ hx)
  | case3 parents c rest hsome ih => exact ih fun x hx => h x (List.mem_cons_of_mem _ hx)
  | case4 parents c rest q hsome hne =>
    rcases h c List.mem_cons_self with hc | hc
    · rw [hsome] at hc
      cases hc
    · rw [hsome] at hc
      exact absurd (Option.some.inj hc) hne

/-- What is adopted below the root is lost to nobody else there. -/
theorem Free.of_adopt {id p : NodeId} (hsole : ∀ c ∈ t.children p, c ∈ t.children id → id = p)
    (h : Free parents p (t.children p)) :
    Free (t.adopt id parents (t.children id)).1 p (t.children p) := by
  intro c hc
  cases hnew : (t.adopt id parents (t.children id)).1[c]?.join with
  | none => exact .inl rfl
  | some q =>
    right
    rcases (t.adopt_grows id parents (t.children id)).origin c q hnew with hold | ⟨rfl, hmem⟩
    · rcases h c hc with hnone | hsome
      · rw [hnone] at hold
        cases hold
      · exact hold.symm.trans hsome
    · exact congrArg some (hsole c hc hmem)

/-- **Walk.**  If below the root no child is listed twice, and none has another parent yet, then the
walk from nodes below the root meets no conflict. -/
theorem assignFrom_eq_none
    (hsole : ∀ p q c, t.Below root p → t.Below root q → c ∈ t.children p → c ∈ t.children q → q = p)
    (hstack : ∀ id ∈ stack, t.Below root id)
    (hfree : ∀ p, t.Below root p → Free parents p (t.children p)) :
    (t.assignFrom parents stack).2 = none := by
  fun_induction assignFrom t parents stack with
  | case1 parents => rfl
  | case2 parents id stack parents' fault heq =>
    have hnone := adopt_eq_none (t := t) (hfree id (hstack id List.mem_cons_self))
    rw [heq] at hnone
    cases hnone
  | case3 parents id stack parents' heq ih =>
    have hid := hstack id List.mem_cons_self
    have hadopted : (t.adopt id parents (t.children id)).1 = parents' := congrArg Prod.fst heq
    apply ih
    · intro x hx
      rcases List.mem_append.1 hx with hx | hx
      · exact hid.step hx
      · exact hstack x (List.mem_cons_of_mem _ hx)
    · intro p hp
      exact hadopted ▸ (hfree p hp).of_adopt fun c hc hmem => hsole p id c hp hid hc hmem

/-- **Assignment.**  Parents are assigned below a root exactly if it has none itself and nothing
below it is claimed twice. -/
theorem Sound.setParents_eq_none_iff (hs : t.Sound) (hroot : t.has root) :
    (t.setParents root).2 = none ↔ t.parent? root = none ∧ t.Undisputed root := by
  constructor
  · intro h
    obtain ⟨_, hnone, heq, _⟩ := setParents_eq_none h
    refine ⟨hnone, fun p hp c hc => ?_⟩
    -- the parent afterwards is the only claim there can be
    have hafter : ∀ q, t.Below root q → c ∈ t.children q →
        (t.setParents root).1.parent? c = some q := fun q hq hcq =>
      parent?_setParents hs h (below_setParents.2 hq) (by rwa [children_setParents])
    constructor
    · cases hold : t.parent? c with
      | none => exact .inl rfl
      | some q =>
        have hkept := (t.assignFrom_grows t.parents [root]).keeps c q hold
        have hnow := hafter p hp hc
        rw [heq] at hnow
        exact .inr (hkept.symm.trans hnow)
    · intro q hq hcq
      exact Option.some.inj ((hafter q hq hcq).symm.trans (hafter p hp hc))
  · rintro ⟨hnone, hfree⟩
    have hstart : ∀ id ∈ [root], t.Below root id := by simpa using Below.refl root
    have hwalk : (t.assignFrom t.parents [root]).2 = none :=
      assignFrom_eq_none (fun p q c hp hq hc hcq => (hfree p hp c hc).2 q hq hcq) hstart
        fun p hp c hc => (hfree p hp c hc).1
    unfold Tree.setParents
    rw [if_neg (not_not_intro hroot), hnone]
    exact hwalk

/-! ## A second assignment -/

theorem adopt_eq_self {p : NodeId} (h : ∀ c ∈ cs, parents[c]?.join = some p) :
    t.adopt p parents cs = (parents, none) := by
  fun_induction adopt t p parents cs with
  | case1 parents => rfl
  | case2 parents c rest hnone ih =>
    rw [h c List.mem_cons_self] at hnone
    cases hnone
  | case3 parents c rest hsome ih => exact ih fun x hx => h x (List.mem_cons_of_mem _ hx)
  | case4 parents c rest q hsome hne =>
    rw [h c List.mem_cons_self] at hsome
    exact absurd (Option.some.inj hsome).symm hne

/-- Where every child has its parent, the walk changes nothing. -/
theorem assignFrom_eq_self
    (h : ∀ p c, t.ListedBelow stack p c → parents[c]?.join = some p) :
    t.assignFrom parents stack = (parents, none) := by
  fun_induction assignFrom t parents stack with
  | case1 parents => rfl
  | case2 parents id stack parents' fault heq =>
    rw [adopt_eq_self fun c hc => h id c ⟨hc, id, List.mem_cons_self, .refl id⟩] at heq
    cases heq
  | case3 parents id stack parents' heq ih =>
    rw [adopt_eq_self fun c hc => h id c ⟨hc, id, List.mem_cons_self, .refl id⟩] at heq
    cases heq
    exact ih fun p c hlisted => h p c hlisted.of_pop

/-- Assigning the same parents again changes nothing. -/
theorem Sound.setParents_setParents (hs : t.Sound) (h : (t.setParents root).2 = none) :
    (t.setParents root).1.setParents root = ((t.setParents root).1, none) := by
  obtain ⟨hroot, _⟩ := setParents_eq_none h
  have hhas : (t.setParents root).1.has root := by rwa [has_setParents]
  have hwalk : (t.setParents root).1.assignFrom (t.setParents root).1.parents [root] =
      ((t.setParents root).1.parents, none) := by
    apply assignFrom_eq_self
    rintro p c ⟨hc, top, htop, hp⟩
    obtain rfl := List.mem_singleton.1 htop
    exact parent?_setParents hs h hp hc
  rw [Tree.setParents, if_neg (not_not_intro hhas), parent?_root_setParents h]
  dsimp only
  rw [hwalk]

/-! ## Parents and ancestors afterwards -/

/-- Outside of what lies below the root, nothing changes. -/
theorem parent?_setParents_of_not_below (h : (t.setParents root).2 = none) {x : NodeId}
    (hx : ¬ (t.Below root x ∧ x ≠ root)) : (t.setParents root).1.parent? x = t.parent? x := by
  obtain ⟨_, _, heq, _⟩ := setParents_eq_none h
  have hgrows := t.assignFrom_grows t.parents [root]
  rw [heq]
  ext p
  constructor
  · intro hp
    rcases hgrows.origin x p hp with hold | ⟨hc, top, htop, hb⟩
    · exact hold
    · obtain rfl := List.mem_singleton.1 htop
      have hlt : x < top := Nat.lt_of_lt_of_le (children_lt hc) hb.le
      exact absurd ⟨hb.step hc, Nat.ne_of_lt hlt⟩ hx
  · exact hgrows.keeps x p

/-- Where the parents are complete below a root without a parent, every climb ends in the root. -/
theorem Sound.getLast?_ancestors (hs : t.Sound) (hroot : t.parent? root = none)
    (hparent : ∀ p, t.Below root p → ∀ c ∈ t.children p, t.parent? c = some p) {x : NodeId}
    (hx : t.Below root x) (hne : x ≠ root) : (t.ancestors x).getLast? = some root := by
  induction hn : root - x using Nat.strongRecOn generalizing x with
  | _ n ih =>
    obtain ⟨p, hp, hc⟩ := hx.eq_or_parent.resolve_left hne
    rw [hs.ancestors_eq_cons (hparent p hp x hc)]
    by_cases hpr : p = root
    · rw [hpr, ancestors_eq_nil hroot]
      rfl
    · have hlt : x < p := children_lt hc
      have hless : root - p < n := hn ▸ Nat.sub_lt_sub_left (Nat.lt_of_lt_of_le hlt hp.le) hlt
      rw [List.getLast?_cons, ih (root - p) hless hp hpr rfl]
      rfl

/-- **Parents are assigned exactly in trees.**  For every tree that can be built and every node of
it: parents are assigned below the node exactly if it has no parent and, for every subgoal below it
and every child of that, the child has no other parent and no other subgoal below the node lists
it.  Then every other node below it has as its parent the one subgoal there that lists it, and its
ancestors end in the node; all other parents stay; and assigning them once more changes nothing.
In any case the walk ends: its rounds cannot go on forever, and without a conflict they lead to the
empty stack. -/
theorem setParents_accepts_trees (ht : t.Built) (hroot : t.has root) :
    ((t.setParents root).2 = none ↔ t.parent? root = none ∧
      ∀ p, t.Below root p → ∀ c ∈ t.children p,
        (t.parent? c = none ∨ t.parent? c = some p) ∧
        ∀ q, t.Below root q → c ∈ t.children q → q = p) ∧
    ((t.setParents root).2 = none →
      (∀ x, t.Below root x → x ≠ root →
        (∃ p, t.isSubgoal p ∧ t.Below root p ∧ x ∈ t.children p ∧
          (∀ q, t.Below root q → x ∈ t.children q → q = p) ∧
          (t.setParents root).1.parent? x = some p) ∧
        ((t.setParents root).1.ancestors x).getLast? = some root) ∧
      (∀ x, ¬ (t.Below root x ∧ x ≠ root) → (t.setParents root).1.parent? x = t.parent? x) ∧
      (t.setParents root).1.setParents root = ((t.setParents root).1, none) ∧
      ReflTransGen t.Visit (t.parents, [root]) ((t.setParents root).1.parents, [])) ∧
    WellFounded (fun after before => t.Visit before after) := by
  have hs := ht.sound
  refine ⟨hs.setParents_eq_none_iff hroot, fun h => ⟨fun x hx hne => ?_, ?_, ?_, ?_⟩,
    t.wellFounded_visit⟩
  · obtain ⟨p, hp, hc⟩ := hx.eq_or_parent.resolve_left hne
    have hfree := ((hs.setParents_eq_none_iff hroot).1 h).2
    have hparent : ∀ q, (t.setParents root).1.Below root q →
        ∀ c ∈ (t.setParents root).1.children q, (t.setParents root).1.parent? c = some q :=
      fun q hq c hcq => parent?_setParents hs h hq hcq
    constructor
    · refine ⟨p, isSubgoal_of_mem_children hc, hp, hc, (hfree p hp x hc).2, ?_⟩
      exact hparent p (below_setParents.2 hp) x (by rwa [children_setParents])
    · exact (hs.setParents root).getLast?_ancestors (parent?_root_setParents h) hparent
        (below_setParents.2 hx) hne
  · exact fun x hx => parent?_setParents_of_not_below h hx
  · exact hs.setParents_setParents h
  · obtain ⟨_, _, heq, hnone⟩ := setParents_eq_none h
    rw [heq]
    exact visits_assignFrom hnone

/-- A house with two ways in, both of them by one climb. -/
def houseTree : Tree :=
  let t := Tree.empty
  let t := t.withNode (.attack ⟨"climb", 3, ⟨0x3fe0000000000000⟩, none, none, []⟩)
    (t.children_attack_lt _)
  let t := t.withNode (.subgoal (t.subgoalOver "window" .or [0] false))
    fun _ h => children_subgoalOver_lt h
  let t := t.withNode (.subgoal (t.subgoalOver "roof" .or [0] false))
    fun _ h => children_subgoalOver_lt h
  t.withNode (.subgoal (t.subgoalOver "house" .or [1, 2] false))
    fun _ h => children_subgoalOver_lt h

theorem built_houseTree : houseTree.Built := by
  refine Built.empty _
    |>.withAttack (by decide) (by decide) (by decide) ?_
    |>.withSubgoal (by decide) (by decide) (by decide) (by decide) (by decide) ?_
    |>.withSubgoal (by decide) (by decide) (by decide) (by decide) (by decide) ?_
    |>.withSubgoal (by decide) (by decide) (by decide) (by decide) (by decide) ?_
  all_goals simp [find?_withNode, find?_empty, Node.name, subgoalOver]

/-- The climb belongs to the window or to the roof, but not to both: the way through the window is a
tree, the house is none. -/
theorem setParents_accepts_trees_house :
    houseTree.Built ∧ houseTree.has 1 ∧ houseTree.has 3 ∧
    ((houseTree.setParents 1).1.ancestors 0).getLast? = some 1 ∧
    (houseTree.setParents 1).1.setParents 1 = ((houseTree.setParents 1).1, none) ∧
    (houseTree.setParents 3).2 ≠ none := by
  have hwindowHas : houseTree.has 1 := by decide
  have hhouseHas : houseTree.has 3 := by decide
  obtain ⟨_, hafter, _⟩ := setParents_accepts_trees built_houseTree hwindowHas
  obtain ⟨hbelow, _, hagain, _⟩ := hafter (by decide +kernel)
  have hwindow : houseTree.Below 1 0 := .child (by decide) (.refl 0)
  refine ⟨built_houseTree, hwindowHas, hhouseHas, (hbelow 0 hwindow (by decide)).2, hagain, ?_⟩
  intro hnone
  obtain ⟨hiff, _⟩ := setParents_accepts_trees built_houseTree hhouseHas
  have hin : houseTree.Below 3 1 := .child (by decide) (.refl 1)
  have hroof : houseTree.Below 3 2 := .child (by decide) (.refl 2)
  have hsole := ((hiff.1 hnone).2 1 hin 0 (by decide)).2 2 hroof (by decide)
  cases hsole

end AttackDefense.Tree
