import AttackDefense.Proofs.Graph.Followers
import Mathlib.Data.List.Nodup

/-!
# The indices of a graph

The tables of a graph are computed apart from each other: a walk with a stack, a walk that lists
defenses, lists of two kinds of nodes, a table of owners and one of followers.  `g.IndexesTree` says
that they agree with each other and with the tree below the root, and they do in every graph that
can be built, also where a defense has several owners or none that is reachable:

    g.owners d = ownersAmong g.tree (g.tree.depthFirst g.root) d                 (Built.owners_eq)
    related g.tree o p ↔ o = p ∨ a reachable node is the parent of both          (Sound.related_iff)
    g.Built → g.IndexesTree                                         (indices_are_the_reachable_tree)
-/

namespace AttackDefense.Graph

open AttackDefense.Tree

variable {g : Graph} {d f o p : NodeId}

/-! ## What is said of the indices -/

/-- The defense comes later than another. -/
def ComesLater (g : Graph) (f d : NodeId) : Prop :=
  ∃ before later, g.defenses = before ++ d :: later ∧ f ∈ later

/-- The nodes are the same or children of the same reachable node. -/
def SharesParent (g : Graph) (o p : NodeId) : Prop :=
  o = p ∨ ∃ q, g.Reachable q ∧ o ∈ g.tree.children q ∧ p ∈ g.tree.children q

/-- In the walk with defenses the defense stands in the run of defenses behind the first node of the
walk that it is attached to, which is its first owner. -/
def Placed (g : Graph) (d : NodeId) : Prop :=
  ∃ before owner after, g.tree.depthFirst g.root = before ++ owner :: after ∧
    d ∈ g.tree.defensesOf owner ∧ (∀ x ∈ before, d ∉ g.tree.defensesOf x) ∧
    (g.owners d).head? = some owner ∧
    ∃ pre run post, g.tree.depthFirstWithDefenses g.root = pre ++ owner :: (run ++ post) ∧
      pre.filter (!g.tree.isDefense ·) = before ∧ d ∈ run ∧ run ⊆ g.tree.defensesOf owner

/-- The indices of a graph are what its tree has below its root. -/
structure IndexesTree (g : Graph) : Prop where
  /-- A walk lists a node, then what lies below its attacks, then what lies below its subgoals. -/
  walk : ∀ start, g.tree.depthFirst start = start :: match g.tree.subgoal? start with
    | some s => s.attackChildren.flatMap g.tree.depthFirst ++
        s.subgoalChildren.flatMap g.tree.depthFirst
    | none => []
  reachable : ∀ x, x ∈ g.tree.depthFirst g.root ↔ g.Reachable x
  /-- But for defenses, the walk with defenses is the walk. -/
  listed : (g.tree.depthFirstWithDefenses g.root).filter (!g.tree.isDefense ·) =
    g.tree.depthFirst g.root
  /-- The defenses in it are those attached to reachable nodes, each listed once. -/
  attached : ∀ d, g.tree.isDefense d → (d ∈ g.tree.depthFirstWithDefenses g.root ↔
    ∃ o, g.Reachable o ∧ d ∈ g.tree.defensesOf o)
  once : ∀ o d, g.Reachable o → d ∈ g.tree.defensesOf o →
    (g.tree.depthFirstWithDefenses g.root).count d = 1
  placed : ∀ o d, g.Reachable o → d ∈ g.tree.defensesOf o → g.Placed d
  attacks : g.attacks = (g.tree.depthFirst g.root).filter g.tree.isAttack
  subgoals : g.subgoals = (g.tree.depthFirst g.root).filter g.tree.isSubgoal
  owners : ∀ o d, o ∈ g.owners d ↔ g.Reachable o ∧ d ∈ g.tree.defensesOf o
  defenses : g.defenses = (g.tree.depthFirstWithDefenses g.root).filter g.tree.isDefense
  nodup : g.defenses.Nodup
  owned : ∀ d, d ∈ g.defenses ↔ g.owners d ≠ []
  followers : ∀ d f, f ∈ g.followers d ↔
    g.ComesLater f d ∧ ∃ p ∈ g.owners f, ∃ o ∈ g.owners d, g.SharesParent o p

/-! ## The walk -/

theorem depthFirst_eq (t : Tree) (start : NodeId) :
    t.depthFirst start = start :: match t.subgoal? start with
      | some s => s.attackChildren.flatMap t.depthFirst ++ s.subgoalChildren.flatMap t.depthFirst
      | none => [] := by
  have hfun : t.preOrder = t.depthFirst := funext fun x => (depthFirst_eq_preOrder t x).symm
  rw [depthFirst_eq_preOrder, preOrder_eq, hfun]
  congr 1
  cases hs : t.subgoal? start with
  | none =>
    have hchildren : t.children start = [] := List.eq_nil_iff_forall_not_mem.2 fun c hc => by
      obtain ⟨s, hs', -⟩ := mem_children_iff.1 hc
      rw [hs] at hs'
      cases hs'
    rw [hchildren, List.flatMap_nil]
  | some s =>
    have hchildren : t.children start = s.attackChildren ++ s.subgoalChildren := by
      rw [children, subgoal?_eq_some.1 hs]
      rfl
    rw [hchildren, List.flatMap_append]

section

variable (hg : g.Sound)

include hg

theorem Sound.not_isDefense_root : ¬ g.tree.isDefense g.root := fun h =>
  not_isSubgoal_of_isDefense h hg.root_isSubgoal

/-- No reachable node is a defense. -/
theorem filter_depthFirst_plain :
    (g.tree.depthFirst g.root).filter (!g.tree.isDefense ·) = g.tree.depthFirst g.root := by
  rw [List.filter_eq_self]
  intro x hx
  have hplain := hg.tree.not_isDefense_of_below hg.not_isDefense_root (mem_depthFirst.1 hx)
  simpa using hplain

theorem mem_listed_iff (hd : g.tree.isDefense d) :
    d ∈ g.tree.depthFirstWithDefenses g.root ↔ ∃ o, g.Reachable o ∧ d ∈ g.tree.defensesOf o := by
  rw [← mem_depthFirstWithDefenses hg.tree hg.not_isDefense_root, List.mem_filter,
    and_iff_left hd]

theorem count_listed (ho : g.Reachable o) (hd : d ∈ g.tree.defensesOf o) :
    (g.tree.depthFirstWithDefenses g.root).count d = 1 := by
  have hdefense := hg.tree.isDefense_of_mem hd
  rw [← List.count_filter (p := g.tree.isDefense) hdefense]
  exact List.count_eq_one_of_mem (nodup_depthFirstWithDefenses hg.tree hg.not_isDefense_root)
    ((mem_depthFirstWithDefenses hg.tree hg.not_isDefense_root).2 ⟨o, ho, hd⟩)

/-! ## Owners -/

/-- The parents of reachable nodes are reachable. -/
theorem Sound.parent?_eq_some_iff (ho : g.Reachable o) :
    g.tree.parent? o = some p ↔ g.Reachable p ∧ o ∈ g.tree.children p := by
  refine ⟨fun h => ?_, fun h => hg.parent p h.1 o h.2⟩
  rcases ho.eq_or_parent with rfl | ⟨q, hq, hoq⟩
  · rw [hg.root_parent] at h
    cases h
  · have hparent := hg.parent q hq o hoq
    obtain rfl : q = p := Option.some.inj (hparent.symm.trans h)
    exact ⟨hq, hoq⟩

theorem Sound.related_iff (ho : g.Reachable o) (hp : g.Reachable p) :
    related g.tree o p ↔ g.SharesParent o p := by
  unfold related SharesParent
  rw [Bool.or_eq_true, beq_iff_eq, Bool.and_eq_true, Option.isSome_iff_exists, beq_iff_eq]
  refine or_congr_right ⟨?_, ?_⟩
  · rintro ⟨⟨q, hq⟩, heq⟩
    obtain ⟨hreach, hoq⟩ := (hg.parent?_eq_some_iff ho).1 hq
    exact ⟨q, hreach, hoq, ((hg.parent?_eq_some_iff hp).1 (heq ▸ hq)).2⟩
  · rintro ⟨q, hq, hoq, hpq⟩
    have hparent := hg.parent q hq o hoq
    exact ⟨⟨q, hparent⟩, hparent.trans (hg.parent q hq p hpq).symm⟩

theorem Sound.mem_defenses_iff : d ∈ g.defenses ↔ g.owners d ≠ [] := by
  rw [hg.mem_defenses, ne_eq, List.eq_nil_iff_forall_not_mem]
  simp only [hg.mem_owners, not_forall, not_not]

end

/-- The owners of a defense are listed in the order of the walk. -/
theorem Built.owners_eq (hg : g.Built) (d : NodeId) :
    g.owners d = ownersAmong g.tree (g.tree.depthFirst g.root) d := by
  by_cases hd : d ∈ g.defenses
  · have hnodup := hg.sound.nodup_defenses
    obtain ⟨t, root, _, hok⟩ := hg
    obtain ⟨_, _, _, _, rfl⟩ := ofTree_eq_ok hok
    exact (getD_ofList_map hnodup _ d).trans (if_pos hd)
  · have hempty : g.owners d = [] := Decidable.not_not.1 (mt hg.sound.mem_defenses_iff.2 hd)
    rw [hempty, eq_comm, List.eq_nil_iff_forall_not_mem]
    intro o ho
    obtain ⟨hreach, hdo⟩ := mem_ownersAmong.1 ho
    exact hd ((hg.sound.mem_defenses d).2 ⟨o, mem_depthFirst.1 hreach, hdo⟩)

theorem ownersAmong_append (t : Tree) (xs ys : List NodeId) (d : NodeId) :
    ownersAmong t (xs ++ ys) d = ownersAmong t xs d ++ ownersAmong t ys d :=
  List.flatMap_append

/-- The first owner is the first node of the walk that the defense is attached to. -/
theorem head?_ownersAmong {t : Tree} {before after : List NodeId}
    (hbefore : ∀ x ∈ before, d ∉ t.defensesOf x) (hd : d ∈ t.defensesOf o) :
    (ownersAmong t (before ++ o :: after) d).head? = some o := by
  have hnone : ownersAmong t before d = [] := List.eq_nil_iff_forall_not_mem.2 fun x hx =>
    hbefore x (mem_ownersAmong.1 hx).1 (mem_ownersAmong.1 hx).2
  have hfirst : ownersAmong t [o] d ≠ [] :=
    List.ne_nil_of_mem (mem_ownersAmong.2 ⟨List.mem_singleton_self o, hd⟩)
  obtain ⟨x, xs, hxs⟩ := List.exists_cons_of_ne_nil hfirst
  have hx : x ∈ ownersAmong t [o] d := hxs ▸ List.mem_cons_self
  obtain rfl := List.mem_singleton.1 (mem_ownersAmong.1 hx).1
  rw [ownersAmong_append, hnone, List.nil_append, ← List.singleton_append, ownersAmong_append, hxs]
  rfl

theorem Built.placed (hg : g.Built) (ho : g.Reachable o) (hd : d ∈ g.tree.defensesOf o) :
    g.Placed d := by
  have hsome : ((g.tree.depthFirst g.root).find? (d ∈ g.tree.defensesOf ·)).isSome := by
    rw [List.find?_isSome]
    exact ⟨o, mem_depthFirst.2 ho, decide_eq_true hd⟩
  obtain ⟨owner, howner⟩ := Option.isSome_iff_exists.1 hsome
  obtain ⟨hattached, before, after, hwalk, hfirst⟩ := List.find?_eq_some_iff_append.1 howner
  have hattached := of_decide_eq_true hattached
  have hbefore : ∀ x ∈ before, d ∉ g.tree.defensesOf x := fun x hx => by simpa using hfirst x hx
  refine ⟨before, owner, after, hwalk, hattached, hbefore, ?_, ?_⟩
  · rw [hg.owners_eq, hwalk, head?_ownersAmong hbefore hattached]
  · exact hg.sound.tree.exists_run hg.sound.not_isDefense_root hwalk hattached hbefore

/-! ## Followers -/

theorem Built.mem_followers_iff (hg : g.Built) : f ∈ g.followers d ↔
    g.ComesLater f d ∧ ∃ p ∈ g.owners f, ∃ o ∈ g.owners d, g.SharesParent o p := by
  have hrelated : follows g.tree g.owners d f ↔
      ∃ p ∈ g.owners f, ∃ o ∈ g.owners d, g.SharesParent o p := by
    simp only [follows, List.any_eq_true]
    constructor
    · rintro ⟨o, ho, p, hp, h⟩
      refine ⟨p, hp, o, ho, (hg.sound.related_iff ?_ ?_).1 h⟩
      · exact ((hg.sound.mem_owners o d).1 ho).1
      · exact ((hg.sound.mem_owners p f).1 hp).1
    · rintro ⟨p, hp, o, ho, h⟩
      refine ⟨o, ho, p, hp, (hg.sound.related_iff ?_ ?_).2 h⟩
      · exact ((hg.sound.mem_owners o d).1 ho).1
      · exact ((hg.sound.mem_owners p f).1 hp).1
  rw [← hrelated]
  constructor
  · intro hf
    by_cases hd : d ∈ g.defenses
    · obtain ⟨before, later, hsplit⟩ := List.append_of_mem hd
      rw [hg.followers_eq hsplit, List.mem_filter] at hf
      exact ⟨⟨before, later, hsplit, hf.1⟩, hf.2⟩
    · rw [hg.followers_eq_nil hd] at hf
      cases hf
  · rintro ⟨⟨before, later, hsplit, hlater⟩, hfollows⟩
    rw [hg.followers_eq hsplit]
    exact List.mem_filter.2 ⟨hlater, hfollows⟩

/-! ## All of them -/

theorem Built.defenses_eq (hg : g.Built) :
    g.defenses = (g.tree.depthFirstWithDefenses g.root).filter g.tree.isDefense := by
  obtain ⟨t, root, _, hok⟩ := hg
  obtain ⟨_, _, _, _, rfl⟩ := ofTree_eq_ok hok
  rfl

/-- **Indices.**  In a graph that can be built the indices are what the tree has below the root. -/
theorem indices_are_the_reachable_tree (hg : g.Built) : g.IndexesTree where
  walk := depthFirst_eq g.tree
  reachable := fun _ => mem_depthFirst
  listed := by
    rw [filter_depthFirstWithDefenses hg.sound.tree _ (by simp), filter_depthFirst_plain hg.sound]
  attached := fun _ => mem_listed_iff hg.sound
  once := fun _ _ => count_listed hg.sound
  placed := fun _ _ => hg.placed
  attacks := hg.sound.attacks
  subgoals := hg.sound.subgoals
  owners := hg.sound.mem_owners
  defenses := hg.defenses_eq
  nodup := hg.sound.nodup_defenses
  owned := fun _ => hg.sound.mem_defenses_iff
  followers := fun _ _ => hg.mem_followers_iff

/-- In the office the patrol follows the alarm, since both guard the theft. -/
theorem indices_are_the_reachable_tree_office : office.IndexesTree ∧ office.Placed 0 ∧
    1 ∈ office.followers 0 := by
  have h := indices_are_the_reachable_tree built_office
  have howner : ∀ d ∈ [0, 1], 3 ∈ office.owners d := fun d hd => by simp [owners_office d hd]
  refine ⟨h, ?_, (h.followers 0 1).2 ⟨⟨[], [1], rfl, by decide⟩, 3, howner 1 (by decide), 3,
    howner 0 (by decide), .inl rfl⟩⟩
  obtain ⟨hreach, hd⟩ := (h.owners 3 0).1 (howner 0 (by decide))
  exact h.placed 3 0 hreach hd

end AttackDefense.Graph
