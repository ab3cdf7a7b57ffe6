import AttackDefense.Proofs.Graph.Followers
import AttackDefense.Proofs.Graph.Scope
import AttackDefense.Proofs.Matching

/-!
# Graphs that are the same by name

Two graphs are `SameNamed` when their roots have one name and nodes of one name, its *twins*, are
alike: they are of one kind with the same parameters, and they have the same children and the same
attached defenses by name, the children as often as they occur.  Numbers, orders and whatever lies
apart from the root play no part.

Everything that is said of a node in the terms of its tree holds of its twin: each node below a root
has one (`Alike.exists_twin`), the parents and so the ancestors are twins (`Alike.ancestors`), and
so is what lies below (`Alike.exists_below`).  The lists of the index match:

    Matched (Twins g g') g.attacks g'.attacks                               (Alike.matched_attacks)
    Matched (Twins g g') g.defenses g'.defenses                             (Alike.matched_defenses)

Two graphs are compared member by member (`sameNamed_iff`).
-/

namespace AttackDefense

/-- A node without the nodes that it refers to. -/
def Node.plain : Node → Node
  | .attack a => .attack { a with defenses := [] }
  | .defense d => .defense d
  | .subgoal s => .subgoal { s with attackChildren := [], subgoalChildren := [], defenses := [] }

namespace Graph

open AttackDefense.Tree

variable {g g' : Graph} {x x' p p' : NodeId}

/-! ## Twins -/

/-- A node below the root, or a defense that is attached to one. -/
def Member (g : Graph) (x : NodeId) : Prop := g.Reachable x ∨ x ∈ g.defenses

theorem Sound.isSome_of_member (hg : g.Sound) (h : g.Member x) : (g.tree.node? x).isSome := by
  rcases h with h | h
  · exact isSome_node? (hg.kind_of_reachable h)
  · obtain ⟨d, hd⟩ := isDefense_iff.1 (hg.isDefense_of_mem_defenses h)
    rw [hd]
    rfl

/-- Nodes of two graphs that have one name. -/
structure Twins (g g' : Graph) (x x' : NodeId) : Prop where
  left : g.Member x
  right : g'.Member x'
  name_eq : g.name x = g'.name x'

theorem Twins.symm (h : Twins g g' x x') : Twins g' g x' x := ⟨h.right, h.left, h.name_eq.symm⟩

/-- A node has at most one twin. -/
theorem Twins.eq (h : Twins g g' x x') (hg' : g'.Sound) {y' : NodeId} (h' : Twins g g' x y') :
    x' = y' :=
  hg'.name_inj (hg'.isSome_of_member h.right) (hg'.isSome_of_member h'.right)
    (h.name_eq.symm.trans h'.name_eq)

/-- What lies below the roots of two graphs is the same by name. -/
structure SameNamed (g g' : Graph) : Prop where
  root : g.name g.root = g'.name g'.root
  plain : ∀ x x', Twins g g' x x' →
    (g.tree.node? x).map Node.plain = (g'.tree.node? x').map Node.plain
  children : ∀ x x', Twins g g' x x' →
    ((g.tree.children x).map g.name).Perm ((g'.tree.children x').map g'.name)
  defenses : ∀ x x', Twins g g' x x' →
    ∀ n, n ∈ (g.tree.defensesOf x).map g.name ↔ n ∈ (g'.tree.defensesOf x').map g'.name

/-- Sound graphs that are the same by name. -/
structure Alike (g g' : Graph) : Prop where
  sound : g.Sound
  sound' : g'.Sound
  same : SameNamed g g'

namespace Alike

variable (h : Alike g g')

include h

theorem symm : Alike g' g where
  sound := h.sound'
  sound' := h.sound
  same := {
    root := h.same.root.symm
    plain := fun x x' ht => (h.same.plain x' x ht.symm).symm
    children := fun x x' ht => (h.same.children x' x ht.symm).symm
    defenses := fun x x' ht n => (h.same.defenses x' x ht.symm n).symm }

/-! ## Kinds and parameters -/

/-- What does not depend on the nodes that a node refers to is the same for twins. -/
theorem node_congr {β : Type} (f : Option Node → β) (hf : ∀ n, f (n.map Node.plain) = f n)
    (ht : Twins g g' x x') : f (g.tree.node? x) = f (g'.tree.node? x') := by
  rw [← hf, h.same.plain x x' ht, hf]

theorem isAttack_eq (ht : Twins g g' x x') : g.tree.isAttack x = g'.tree.isAttack x' :=
  h.node_congr (fun n => (n.bind Node.asAttack?).isSome) (by rintro (_ | _ | _ | _) <;> rfl) ht

theorem isSubgoal_eq (ht : Twins g g' x x') : g.tree.isSubgoal x = g'.tree.isSubgoal x' :=
  h.node_congr (fun n => (n.bind Node.asSubgoal?).isSome) (by rintro (_ | _ | _ | _) <;> rfl) ht

theorem isReset_eq (ht : Twins g g' x x') : g.tree.isReset x = g'.tree.isReset x' :=
  h.node_congr (fun n => n.any Node.isReset) (by rintro (_ | _ | _ | _) <;> rfl) ht

theorem refinement_eq (ht : Twins g g' x x') :
    (g.tree.subgoal? x).map Subgoal.refinement = (g'.tree.subgoal? x').map Subgoal.refinement :=
  h.node_congr (fun n => (n.bind Node.asSubgoal?).map Subgoal.refinement)
    (by rintro (_ | _ | _ | _) <;> rfl) ht

theorem hasActivationCost_eq (ht : Twins g g' x x') :
    (g.tree.attack? x).any Attack.hasActivationCost =
      (g'.tree.attack? x').any Attack.hasActivationCost :=
  h.node_congr (fun n => (n.bind Node.asAttack?).any Attack.hasActivationCost)
    (by rintro (_ | _ | _ | _) <;> rfl) ht

/-! ## What lies below -/

theorem root : Twins g g' g.root g'.root := ⟨.inl (.refl _), .inl (.refl _), h.same.root⟩

theorem matched_children (ht : Twins g g' x x') (hx : g.Reachable x) (hx' : g'.Reachable x') :
    Matched (Twins g g') (g.tree.children x) (g'.tree.children x') :=
  (matched_map_iff.2 (h.same.children x x' ht)).mono fun _ hc _ hc' hname =>
    ⟨.inl (hx.step hc), .inl (hx'.step hc'), hname⟩

/-- Walks down follow each other. -/
theorem exists_below (ht : Twins g g' p p') (hp : g.Reachable p) (hp' : g'.Reachable p')
    (hx : g.tree.Below p x) : ∃ x', g'.tree.Below p' x' ∧ Twins g g' x x' := by
  induction hx generalizing p' with
  | refl => exact ⟨p', .refl p', ht⟩
  | child hc _ ih =>
    obtain ⟨c', hc', htc⟩ := (h.matched_children ht hp hp').exists_left hc
    obtain ⟨x', hx', htx⟩ := ih htc (hp.step hc) (hp'.step hc')
    exact ⟨x', .child hc' hx', htx⟩

theorem exists_twin (hx : g.Reachable x) : ∃ x', g'.Reachable x' ∧ Twins g g' x x' :=
  h.exists_below h.root (.refl _) (.refl _) hx

theorem reachable (ht : Twins g g' x x') (hx : g.Reachable x) : g'.Reachable x' := by
  obtain ⟨y', hy', hty⟩ := h.exists_twin hx
  rwa [ht.eq h.sound' hty]

theorem below (hp : Twins g g' p p') (hreach : g.Reachable p) (ht : Twins g g' x x')
    (hx : g.tree.Below p x) : g'.tree.Below p' x' := by
  obtain ⟨y', hy', hty⟩ := h.exists_below hp hreach (h.reachable hp hreach) hx
  rwa [ht.eq h.sound' hty]

/-! ## What stands above -/

theorem exists_parent (ht : Twins g g' x x') (hx : g.Reachable x)
    (hp : g.tree.parent? x = some p) :
    ∃ p', g'.tree.parent? x' = some p' ∧ Twins g g' p p' ∧ g.Reachable p := by
  have habove : p ∈ g.tree.ancestors x := by
    rw [h.sound.tree.ancestors_eq_cons hp]
    exact List.mem_cons_self
  have hreach := h.sound.reachable_of_mem_ancestors hx habove
  obtain ⟨p', hp', htp⟩ := h.exists_twin hreach
  obtain ⟨c', hc', htc⟩ :=
    (h.matched_children htp hreach hp').exists_left (h.sound.tree.parent x p hp)
  obtain rfl := ht.eq h.sound' htc
  exact ⟨p', h.sound'.parent p' hp' x' hc', htp, hreach⟩

/-- Climbs go over twins. -/
theorem ancestors (ht : Twins g g' x x') (hx : g.Reachable x) :
    List.Forall₂ (Twins g g') (g.tree.ancestors x) (g'.tree.ancestors x') := by
  fun_induction Tree.ancestors g.tree x generalizing x' with
  | case1 x hnone =>
    cases hparent : g'.tree.parent? x' with
    | none =>
      rw [ancestors_eq_nil hparent]
      exact .nil
    | some p' =>
      obtain ⟨p, hp, _⟩ := h.symm.exists_parent ht.symm (h.reachable ht hx) hparent
      rw [hnone] at hp
      cases hp
  | case2 x p hsome hlt ih =>
    obtain ⟨p', hp', htp, hreach⟩ := h.exists_parent ht hx hsome
    rw [h.sound'.tree.ancestors_eq_cons hp']
    exact .cons htp (ih htp hreach)
  | case3 x p hsome hlt => exact absurd (h.sound.tree.parent_bounds hsome) hlt

/-! ## Defenses -/

theorem exists_defense (ht : Twins g g' x x') (hx : g.Reachable x) {d : NodeId}
    (hd : d ∈ g.tree.defensesOf x) : ∃ d' ∈ g'.tree.defensesOf x', Twins g g' d d' := by
  have hname := (h.same.defenses x x' ht _).1 (List.mem_map_of_mem hd)
  obtain ⟨d', hd', hname⟩ := List.mem_map.1 hname
  exact ⟨d', hd', .inr ((h.sound.mem_defenses d).2 ⟨x, hx, hd⟩),
    .inr ((h.sound'.mem_defenses d').2 ⟨x', h.reachable ht hx, hd'⟩), hname.symm⟩

theorem mem_defensesOf (ht : Twins g g' x x') (hx : g.Reachable x) {d d' : NodeId}
    (htd : Twins g g' d d') (hd : d ∈ g.tree.defensesOf x) : d' ∈ g'.tree.defensesOf x' := by
  obtain ⟨e', he', hte⟩ := h.exists_defense ht hx hd
  rwa [htd.eq h.sound' hte]

theorem exists_twin_defense {d : NodeId} (hd : d ∈ g.defenses) :
    ∃ d' ∈ g'.defenses, Twins g g' d d' := by
  obtain ⟨o, ho, hd⟩ := (h.sound.mem_defenses d).1 hd
  obtain ⟨o', ho', hto⟩ := h.exists_twin ho
  obtain ⟨d', hd', htd⟩ := h.exists_defense hto ho hd
  exact ⟨d', (h.sound'.mem_defenses d').2 ⟨o', ho', hd'⟩, htd⟩

theorem isCheckpoint_of_isCheckpoint (ht : Twins g g' x x') (hx : g.Reachable x)
    (hc : g.isCheckpoint x) : g'.isCheckpoint x' := by
  unfold isCheckpoint at hc ⊢
  rw [Bool.and_eq_true, List.isEmpty_iff] at hc ⊢
  refine ⟨List.eq_nil_iff_forall_not_mem.2 fun d' hd' => ?_, h.isReset_eq ht ▸ hc.2⟩
  obtain ⟨d, hd, _⟩ := h.symm.exists_defense ht.symm (h.reachable ht hx) hd'
  rw [hc.1] at hd
  cases hd

theorem isCheckpoint_eq (ht : Twins g g' x x') (hx : g.Reachable x) :
    g.isCheckpoint x = g'.isCheckpoint x' := by
  rw [Bool.eq_iff_iff]
  exact ⟨h.isCheckpoint_of_isCheckpoint ht hx,
    h.symm.isCheckpoint_of_isCheckpoint ht.symm (h.reachable ht hx)⟩

/-! ## Indices -/

/-- Walks over all nodes below twins list twins. -/
theorem matched_preOrder (ht : Twins g g' x x') (hx : g.Reachable x) :
    Matched (Twins g g') (g.tree.preOrder x) (g'.tree.preOrder x') := by
  induction x using Nat.strongRecOn generalizing x' with
  | _ x ih =>
    rw [preOrder_eq, preOrder_eq]
    refine .cons ht ((h.matched_children ht hx (h.reachable ht hx)).flatMap fun c hc c' _ htc => ?_)
    exact ih c (children_lt hc) htc (hx.step hc)

theorem matched_attacks : Matched (Twins g g') g.attacks g'.attacks := by
  rw [h.sound.attacks, h.sound'.attacks, depthFirst_eq_preOrder, depthFirst_eq_preOrder]
  exact (h.matched_preOrder h.root (.refl _)).filter fun _ _ _ _ ht => h.isAttack_eq ht

theorem matched_defenses : Matched (Twins g g') g.defenses g'.defenses := by
  apply matched_of_nodup h.sound.nodup_defenses h.sound'.nodup_defenses
  · exact fun d hd => h.exists_twin_defense hd
  · intro d' hd'
    obtain ⟨d, hd, ht⟩ := h.symm.exists_twin_defense hd'
    exact ⟨d, hd, ht.symm⟩
  · exact fun d _ d' _ e' _ ht ht' => ht.eq h.sound' ht'
  · exact fun d _ e _ d' _ ht ht' => ht.symm.eq h.sound ht'.symm

end Alike

/-! ## Comparing graphs -/

def members (g : Graph) : List NodeId := g.tree.depthFirst g.root ++ g.defenses

theorem mem_members : x ∈ g.members ↔ g.Member x := by
  rw [members, List.mem_append, mem_depthFirst, Member]

theorem sameNamed_iff : SameNamed g g' ↔ g.name g.root = g'.name g'.root ∧
    ∀ x ∈ g.members, ∀ x' ∈ g'.members, g.name x = g'.name x' →
      (g.tree.node? x).map Node.plain = (g'.tree.node? x').map Node.plain ∧
      ((g.tree.children x).map g.name).Perm ((g'.tree.children x').map g'.name) ∧
      (g.tree.defensesOf x).map g.name ⊆ (g'.tree.defensesOf x').map g'.name ∧
      (g'.tree.defensesOf x').map g'.name ⊆ (g.tree.defensesOf x).map g.name := by
  simp only [mem_members]
  constructor
  · intro h
    refine ⟨h.root, fun x hx x' hx' hname => ?_⟩
    have ht : Twins g g' x x' := ⟨hx, hx', hname⟩
    exact ⟨h.plain x x' ht, h.children x x' ht, fun n => (h.defenses x x' ht n).1,
      fun n => (h.defenses x x' ht n).2⟩
  · rintro ⟨hroot, h⟩
    have h := fun x x' (ht : Twins g g' x x') => h x ht.left x' ht.right ht.name_eq
    constructor
    · exact hroot
    · exact fun x x' ht => (h x x' ht).1
    · exact fun x x' ht => (h x x' ht).2.1
    · exact fun x x' ht n => ⟨fun hn => (h x x' ht).2.2.1 hn, fun hn => (h x x' ht).2.2.2 hn⟩

instance : Decidable (SameNamed g g') := decidable_of_iff _ sameNamed_iff.symm

/-! ## Two offices -/

/-- The tree of the office in another order, with an attack that is no part of the heist. -/
def branchTree : Tree :=
  let t := Tree.empty
  let t := t.withNode (.defense ⟨"patrol", 7, .one, 1⟩) (t.children_defense_lt _)
  let t := t.withNode (.defense ⟨"alarm", 5, .one, 1⟩) (t.children_defense_lt _)
  let t := t.withNode (.attack ⟨"steal", 10, .one, none, none, [0, 1]⟩) (t.children_attack_lt _)
  let t := t.withNode (.attack ⟨"dig", 99, .one, none, none, []⟩) (t.children_attack_lt _)
  let t := t.withNode (.attack ⟨"bribe", 3, .one, none, none, []⟩) (t.children_attack_lt _)
  t.withNode (.subgoal (t.subgoalOver "heist" .and [2, 4] false))
    fun _ h => children_subgoalOver_lt h

theorem built_branchTree : branchTree.Built := by
  refine Built.empty _
    |>.withDefense (by decide) (by decide) (by decide) ?_
    |>.withDefense (by decide) (by decide) (by decide) ?_
    |>.withAttack (by decide) (by decide) (by decide) ?_
    |>.withAttack (by decide) (by decide) (by decide) ?_
    |>.withAttack (by decide) (by decide) (by decide) ?_
    |>.withSubgoal (by decide) (by decide) (by decide) (by decide) (by decide) ?_
  all_goals simp [find?_withNode, find?_empty, Node.name]

def branch : Graph where
  tree := { branchTree with parents := #[none, none, some 5, none, some 5, none] }
  root := 5
  attacks := [2, 4]
  defenses := [0, 1]
  subgoals := [5]
  ownerTable := .ofList [(0, [2]), (1, [2])]
  followerTable := .ofList [(0, [1]), (1, [])]

theorem owners_branch : ∀ d ∈ [0, 1], branch.owners d = [2] := by
  have h := fun d => getD_ofList_map (l := [0, 1]) (by decide) (fun _ => [2]) d
  intro d hd
  exact (h d).trans (if_pos hd)

theorem index_branch : index branch.tree 5 = branch := by
  have hwalk : branch.tree.depthFirst 5 = [5, 2, 4] := by decide +kernel
  have hlisted : branch.tree.depthFirstWithDefenses 5 = [5, 2, 0, 1, 4] := by
    have h2 : branch.tree.defensesOf 2 = [0, 1] := rfl
    have h4 : branch.tree.defensesOf 4 = [] := rfl
    have h5 : branch.tree.defensesOf 5 = [] := rfl
    unfold depthFirstWithDefenses
    simp [hwalk, Listing.addNode, Listing.addDefense, h2, h4, h5]
  have hfollows : follows branch.tree branch.owners 0 1 := by
    unfold follows
    rw [owners_branch 0 (by decide), owners_branch 1 (by decide)]
    decide
  unfold index
  rw [hlisted, hwalk]
  show Graph.mk _ _ _ _ _ (.ofList [(0, [2]), (1, [2])])
    (.ofList (followersAmong branch.tree branch.owners [0, 1])) = _
  rw [followersAmong, followersAmong, followersAmong, List.filter_cons_of_pos hfollows]
  rfl

theorem built_branch : branch.Built :=
  built_of_index built_branchTree rfl rfl rfl (by decide +kernel) rfl index_branch

theorem sameNamed_branch : SameNamed office branch := by decide +kernel

end Graph

end AttackDefense
