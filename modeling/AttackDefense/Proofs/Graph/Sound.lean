import AttackDefense.Graph.Basic
import AttackDefense.Proofs.Tree.Ancestors
import AttackDefense.Proofs.Tree.Listing
import AttackDefense.Proofs.Tree.Parents

/-!
# Graphs that can be built

`Built g` says that `g` is the graph below some root of a tree that can be built.  `Sound g` is what
every proof about graphs starts from:

    g.Built → g.Sound                                              (Built.sound)

The tree is sound, the root has no parent and no defenses, and below the root the parents are
complete: each child of a subgoal has it as its parent.  The indices list what the names say: the
attacks and subgoals of the walk from the root, each defense attached to a node of it once, and the
owners of each defense.
-/

namespace AttackDefense.Graph

open AttackDefense.Tree

variable {g : Graph}

/-- The graph below a root of a tree that can be built. -/
def Built (g : Graph) : Prop := ∃ t root, t.Built ∧ ofTree t root = .ok g

/-- A node below the root. -/
abbrev Reachable (g : Graph) (x : NodeId) : Prop := g.tree.Below g.root x

structure Sound (g : Graph) : Prop where
  tree : g.tree.Sound
  root_isSubgoal : g.tree.isSubgoal g.root
  root_undefended : g.tree.defensesOf g.root = []
  root_parent : g.tree.parent? g.root = none
  parent : ∀ p, g.Reachable p → ∀ c ∈ g.tree.children p, g.tree.parent? c = some p
  attacks : g.attacks = (g.tree.depthFirst g.root).filter g.tree.isAttack
  subgoals : g.subgoals = (g.tree.depthFirst g.root).filter g.tree.isSubgoal
  mem_defenses : ∀ d, d ∈ g.defenses ↔ ∃ o, g.Reachable o ∧ d ∈ g.tree.defensesOf o
  nodup_defenses : g.defenses.Nodup
  mem_owners : ∀ o d, o ∈ g.owners d ↔ g.Reachable o ∧ d ∈ g.tree.defensesOf o

/-! ## Indices -/

theorem mem_ownersAmong {t : Tree} {nodes : List NodeId} {o d : NodeId} :
    o ∈ ownersAmong t nodes d ↔ o ∈ nodes ∧ d ∈ t.defensesOf o := by
  unfold ownersAmong
  rw [List.mem_flatMap]
  constructor
  · rintro ⟨x, hx, ho⟩
    obtain ⟨e, he, heq⟩ := List.mem_filterMap.1 ho
    split at heq
    · next hed =>
      obtain rfl : x = o := Option.some.inj heq
      exact ⟨hx, hed ▸ he⟩
    · cases heq
  · rintro ⟨ho, hd⟩
    exact ⟨o, ho, List.mem_filterMap.2 ⟨d, hd, if_pos rfl⟩⟩

/-- A table of a list without repetitions gives each entry back. -/
theorem getD_ofList_map {l : List NodeId} (hl : l.Nodup) (f : NodeId → List NodeId) (d : NodeId) :
    (Std.HashMap.ofList (l.map fun d => (d, f d))).getD d [] = if d ∈ l then f d else [] := by
  by_cases hd : d ∈ l
  · rw [if_pos hd]
    apply Std.HashMap.getD_ofList_of_mem (k := d) (beq_self_eq_true d)
    · rw [List.pairwise_map]
      exact hl.imp fun h => beq_eq_false_iff_ne.2 h
    · exact List.mem_map.2 ⟨d, hd, rfl⟩
  · rw [if_neg hd]
    apply Std.HashMap.getD_ofList_of_contains_eq_false
    simpa [Function.comp_def] using hd

theorem ofTree_eq_ok {t : Tree} {root : NodeId} (h : ofTree t root = .ok g) :
    ∃ s, t.node? root = some (.subgoal s) ∧ s.defenses = [] ∧ (t.setParents root).2 = none ∧
      g = index (t.setParents root).1 root := by
  unfold ofTree at h
  split at h
  · cases h
  · next s hroot =>
    split at h
    · cases h
    · next hdef =>
      split at h
      · cases h
      · next t' hset =>
        refine ⟨s, hroot, Decidable.not_not.1 hdef, ?_, ?_⟩ <;> rw [hset]
        exact (Except.ok.inj h).symm
  · cases h

/-- The graph below an undefended subgoal whose parents are complete. -/
theorem sound_index {t : Tree} {root : NodeId} {s : Subgoal} (ht : t.Sound)
    (hroot : t.node? root = some (.subgoal s)) (hdef : s.defenses = [])
    (hnone : t.parent? root = none)
    (hparent : ∀ p, t.Below root p → ∀ c ∈ t.children p, t.parent? c = some p) :
    (index t root).Sound := by
  have hkind : ¬ t.isDefense root := fun h =>
    not_isSubgoal_of_isDefense h (isSubgoal_iff.2 ⟨s, hroot⟩)
  have hmem (d : NodeId) : d ∈ (index t root).defenses ↔
      ∃ o, t.Below root o ∧ d ∈ t.defensesOf o := mem_depthFirstWithDefenses ht hkind
  have hnodup : (index t root).defenses.Nodup := nodup_depthFirstWithDefenses ht hkind
  exact {
    tree := ht
    root_isSubgoal := isSubgoal_iff.2 ⟨s, hroot⟩
    root_undefended := by simp [index, defensesOf, hroot, Node.defenses, hdef]
    root_parent := hnone
    parent := hparent
    attacks := filter_depthFirstWithDefenses ht root fun d hd => by
      simpa using not_isAttack_of_isDefense hd
    subgoals := filter_depthFirstWithDefenses ht root fun d hd => by
      simpa using not_isSubgoal_of_isDefense hd
    mem_defenses := hmem
    nodup_defenses := hnodup
    mem_owners := fun o d => by
      have howners : (index t root).owners d =
          if d ∈ (index t root).defenses then ownersAmong t (t.depthFirst root) d else [] :=
        getD_ofList_map hnodup _ d
      rw [howners]
      by_cases hd : d ∈ (index t root).defenses
      · rw [if_pos hd, mem_ownersAmong, mem_depthFirst]
        rfl
      · rw [if_neg hd]
        rw [hmem] at hd
        simp only [List.not_mem_nil, false_iff]
        exact fun h => hd ⟨o, h⟩ }

/-- **Invariant.**  Every graph that can be built is sound. -/
theorem Built.sound (h : g.Built) : g.Sound := by
  obtain ⟨t, root, ht, h⟩ := h
  obtain ⟨s, hroot, hdef, hset, rfl⟩ := ofTree_eq_ok h
  exact sound_index (ht.sound.setParents root) (by rw [node?_setParents, hroot]) hdef
    (parent?_root_setParents hset) fun p hp c hc => parent?_setParents ht.sound hset hp hc

/-! ## Kinds and names -/

theorem Sound.kind_of_reachable (hg : g.Sound) {x : NodeId} (h : g.Reachable x) :
    g.tree.isAttack x ∨ g.tree.isSubgoal x := by
  rcases h.eq_or_parent with rfl | ⟨p, _, hx⟩
  · exact .inr hg.root_isSubgoal
  · exact hg.tree.kind_of_mem_children hx

theorem Sound.isDefense_of_mem_defenses (hg : g.Sound) {d : NodeId} (h : d ∈ g.defenses) :
    g.tree.isDefense d := by
  obtain ⟨o, _, hd⟩ := (hg.mem_defenses d).1 h
  exact hg.tree.isDefense_of_mem hd

theorem isSome_node? {x : NodeId} (h : g.tree.isAttack x ∨ g.tree.isSubgoal x) :
    (g.tree.node? x).isSome := by
  rcases h with h | h
  · obtain ⟨a, ha⟩ := isAttack_iff.1 h
    rw [ha]
    rfl
  · obtain ⟨s, hs⟩ := isSubgoal_iff.1 h
    rw [hs]
    rfl

/-- A name finds its node. -/
theorem Sound.find?_name (hg : g.Sound) {x : NodeId} (hx : (g.tree.node? x).isSome) :
    g.tree.find? (g.name x) = some x := by
  obtain ⟨node, hnode⟩ := Option.isSome_iff_exists.1 hx
  refine (hg.tree.find?_iff _ _).2 ⟨node, hnode, ?_⟩
  simp [name, Tree.name, hnode]

theorem Sound.name_inj (hg : g.Sound) {x y : NodeId} (hx : (g.tree.node? x).isSome)
    (hy : (g.tree.node? y).isSome) (h : g.name x = g.name y) : x = y := by
  have hfind := hg.find?_name hx
  rw [h, hg.find?_name hy] at hfind
  exact (Option.some.inj hfind).symm

/-- What is indexed below a root, with the parents that are assigned from there. -/
theorem ofTree_of_index {t : Tree} {s : Subgoal} (hroot : t.node? g.root = some (.subgoal s))
    (hundefended : s.defenses = []) (hparent : t.parent? g.root = none)
    (hassign : t.assignFrom t.parents [g.root] = (g.tree.parents, none))
    (htree : g.tree = { t with parents := g.tree.parents }) (hindex : index g.tree g.root = g) :
    ofTree t g.root = .ok g := by
  have hset : t.setParents g.root = (g.tree, none) := by
    have hhas : t.has g.root := decide_eq_true (lt_size_of_isSome (by rw [hroot]; rfl))
    unfold setParents
    rw [if_neg (not_not_intro hhas), hparent]
    dsimp only
    rw [hassign, ← htree]
  unfold ofTree
  rw [hroot, hset]
  dsimp only
  rw [if_neg (not_not_intro hundefended), hindex]

theorem built_of_index {t : Tree} {s : Subgoal} (ht : t.Built)
    (hroot : t.node? g.root = some (.subgoal s)) (hundefended : s.defenses = [])
    (hparent : t.parent? g.root = none)
    (hassign : t.assignFrom t.parents [g.root] = (g.tree.parents, none))
    (htree : g.tree = { t with parents := g.tree.parents }) (hindex : index g.tree g.root = g) :
    g.Built :=
  ⟨t, g.root, ht, ofTree_of_index hroot hundefended hparent hassign htree hindex⟩

/-! ## A small graph -/

/-- An alarm resets the vault; a goal above it stays reached. -/
def vaultTree : Tree :=
  let t := Tree.empty
  let t := t.withNode (.defense ⟨"alarm", 5, ⟨0x3fe0000000000000⟩, 1⟩) (t.children_defense_lt _)
  let t := t.withNode (.attack ⟨"steal", 10, ⟨0x3fe0000000000000⟩, some 2, none, []⟩)
    (t.children_attack_lt _)
  let t := t.withNode (.subgoal (t.subgoalOver "vault" .or [1, 0] true))
    fun _ h => children_subgoalOver_lt h
  t.withNode (.subgoal (t.subgoalOver "goal" .edge [2] false))
    fun _ h => children_subgoalOver_lt h

theorem built_vaultTree : vaultTree.Built := by
  refine Built.empty _
    |>.withDefense (by decide) (by decide) (by decide) ?_
    |>.withAttack (by decide) (by decide) (by decide) ?_
    |>.withSubgoal (by decide) (by decide) (by decide) (by decide) (by decide) ?_
    |>.withSubgoal (by decide) (by decide) (by decide) (by decide) (by decide) ?_
  all_goals simp [find?_withNode, find?_empty, Node.name, subgoalOver]

def vault : Graph where
  tree := { vaultTree with parents := #[none, some 2, some 3, none] }
  root := 3
  attacks := [1]
  defenses := [0]
  subgoals := [3, 2]
  ownerTable := .ofList [(0, [2])]
  followerTable := .ofList [(0, [])]

theorem index_vault : index vault.tree 3 = vault := by
  have hwalk : vault.tree.depthFirst 3 = [3, 2, 1] := by decide +kernel
  have hlisted : vault.tree.depthFirstWithDefenses 3 = [3, 2, 0, 1] := by
    have h1 : vault.tree.defensesOf 1 = [] := rfl
    have h2 : vault.tree.defensesOf 2 = [0] := rfl
    have h3 : vault.tree.defensesOf 3 = [] := rfl
    unfold depthFirstWithDefenses
    simp [hwalk, Listing.addNode, Listing.addDefense, h1, h2, h3]
  unfold index
  rw [hlisted, hwalk]
  rfl

theorem ofTree_vaultTree : ofTree vaultTree 3 = .ok vault :=
  ofTree_of_index (g := vault) rfl rfl rfl (by decide +kernel) rfl index_vault

theorem built_vault : vault.Built := ⟨vaultTree, 3, built_vaultTree, ofTree_vaultTree⟩

end AttackDefense.Graph
