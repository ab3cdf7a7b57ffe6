import AttackDefense.Proofs.Graph.Sound

/-!
# Followers come later

The followers of a defense are found among the defenses behind it, so nothing follows itself, and
there is no cycle:

    g.defenses = before ++ d :: later →
      g.followers d = later.filter (follows g.tree g.owners d)              (Built.followers_eq)
-/

namespace AttackDefense.Graph

open AttackDefense.Tree

variable {g : Graph}

/-! ## The table of followers -/

theorem map_fst_followersAmong (t : Tree) (owners : NodeId → List NodeId) (l : List NodeId) :
    (followersAmong t owners l).map Prod.fst = l := by
  induction l with
  | nil => rfl
  | cons d later ih => rw [followersAmong, List.map_cons, ih]

/-- Each place of the list has its entry, which is about what stands behind it. -/
theorem mem_followersAmong {t : Tree} {owners : NodeId → List NodeId} {before later : List NodeId}
    {d : NodeId} :
    (d, later.filter (follows t owners d)) ∈ followersAmong t owners (before ++ d :: later) := by
  induction before with
  | nil => exact List.mem_cons_self
  | cons _ _ ih => exact List.mem_cons_of_mem _ ih

theorem getD_followersAmong {t : Tree} {owners : NodeId → List NodeId}
    {before later : List NodeId} {d : NodeId} (hnodup : (before ++ d :: later).Nodup) :
    (Std.HashMap.ofList (followersAmong t owners (before ++ d :: later))).getD d [] =
      later.filter (follows t owners d) := by
  apply Std.HashMap.getD_ofList_of_mem (k := d) (beq_self_eq_true d) _ mem_followersAmong
  have hfst : ((followersAmong t owners (before ++ d :: later)).map Prod.fst).Nodup := by
    rwa [map_fst_followersAmong]
  exact (List.pairwise_map.1 hfst).imp fun h => beq_eq_false_iff_ne.2 h

/-- **Followers.**  They are the defenses behind a defense that share an owner or the parent of an
owner with it. -/
theorem Built.followers_eq (hg : g.Built) {before later : List NodeId} {d : NodeId}
    (h : g.defenses = before ++ d :: later) :
    g.followers d = later.filter (follows g.tree g.owners d) := by
  have hnodup := hg.sound.nodup_defenses
  obtain ⟨t, root, _, hok⟩ := hg
  obtain ⟨_, _, _, _, rfl⟩ := ofTree_eq_ok hok
  rw [h] at hnodup
  rw [← getD_followersAmong hnodup, ← h]
  rfl

theorem Built.followers_eq_nil (hg : g.Built) {d : NodeId} (hd : d ∉ g.defenses) :
    g.followers d = [] := by
  obtain ⟨t, root, _, hok⟩ := hg
  obtain ⟨_, _, _, _, rfl⟩ := ofTree_eq_ok hok
  apply Std.HashMap.getD_ofList_of_contains_eq_false
  rw [map_fst_followersAmong]
  simpa [index] using hd

/-- Nothing but defenses follows anything. -/
theorem Built.followers_subset (hg : g.Built) (d : NodeId) : g.followers d ⊆ g.defenses := by
  by_cases hd : d ∈ g.defenses
  · obtain ⟨before, later, hsplit⟩ := List.append_of_mem hd
    rw [hg.followers_eq hsplit, hsplit]
    intro f hf
    exact List.mem_append_right before (List.mem_cons_of_mem d (List.mem_filter.1 hf).1)
  · rw [hg.followers_eq_nil hd]
    exact List.nil_subset _

/-! ## Two defenses of one attack -/

/-- An alarm and a patrol guard a theft; a bribe, which nothing takes back, is needed as well. -/
def officeTree : Tree :=
  let t := Tree.empty
  let t := t.withNode (.defense ⟨"alarm", 5, .one, 1⟩) (t.children_defense_lt _)
  let t := t.withNode (.defense ⟨"patrol", 7, .one, 1⟩) (t.children_defense_lt _)
  let t := t.withNode (.attack ⟨"bribe", 3, .one, none, none, []⟩) (t.children_attack_lt _)
  let t := t.withNode (.attack ⟨"steal", 10, .one, none, none, [0, 1]⟩) (t.children_attack_lt _)
  t.withNode (.subgoal (t.subgoalOver "heist" .and [2, 3] false))
    fun _ h => children_subgoalOver_lt h

theorem built_officeTree : officeTree.Built := by
  refine Built.empty _
    |>.withDefense (by decide) (by decide) (by decide) ?_
    |>.withDefense (by decide) (by decide) (by decide) ?_
    |>.withAttack (by decide) (by decide) (by decide) ?_
    |>.withAttack (by decide) (by decide) (by decide) ?_
    |>.withSubgoal (by decide) (by decide) (by decide) (by decide) (by decide) ?_
  all_goals simp [find?_withNode, find?_empty, Node.name]

def office : Graph where
  tree := { officeTree with parents := #[none, none, some 4, some 4, none] }
  root := 4
  attacks := [2, 3]
  defenses := [0, 1]
  subgoals := [4]
  ownerTable := .ofList [(0, [3]), (1, [3])]
  followerTable := .ofList [(0, [1]), (1, [])]

theorem owners_office : ∀ d ∈ [0, 1], office.owners d = [3] := by
  have h := fun d => getD_ofList_map (l := [0, 1]) (by decide) (fun _ => [3]) d
  intro d hd
  exact (h d).trans (if_pos hd)

theorem index_office : index office.tree 4 = office := by
  have hwalk : office.tree.depthFirst 4 = [4, 2, 3] := by decide +kernel
  have hlisted : office.tree.depthFirstWithDefenses 4 = [4, 2, 3, 0, 1] := by
    have h2 : office.tree.defensesOf 2 = [] := rfl
    have h3 : office.tree.defensesOf 3 = [0, 1] := rfl
    have h4 : office.tree.defensesOf 4 = [] := rfl
    unfold depthFirstWithDefenses
    simp [hwalk, Listing.addNode, Listing.addDefense, h2, h3, h4]
  have hfollows : follows office.tree office.owners 0 1 := by
    unfold follows
    rw [owners_office 0 (by decide), owners_office 1 (by decide)]
    decide
  unfold index
  rw [hlisted, hwalk]
  show Graph.mk _ _ _ _ _ (.ofList [(0, [3]), (1, [3])])
    (.ofList (followersAmong office.tree office.owners [0, 1])) = _
  rw [followersAmong, followersAmong, followersAmong, List.filter_cons_of_pos hfollows]
  rfl

theorem built_office : office.Built :=
  built_of_index built_officeTree rfl rfl rfl (by decide +kernel) rfl index_office

end AttackDefense.Graph
