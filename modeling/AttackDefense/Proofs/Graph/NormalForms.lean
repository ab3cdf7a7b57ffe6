import AttackDefense.Proofs.Graph.Scope

/-!
# Taking the canonical form

Reduction and normalization are defined for any sets of nodes, also for such as no run produces.
Both are done once and for all, whatever they are given:

    g.reduce (g.reduce c) = g.reduce c          g.normalize (g.normalize c) = g.normalize c
    g.reduce (g.normalize c) = g.normalize c                  (canonical_form_is_idempotent)

The canonical form hides what goes on below a completed checkpoint `q`.  What two configurations have
below `q` follows into nothing outside, since it could only do so through `q`, which is completed in
both (`Sound.mem_propagate_of_agree`); and all of it is history in both.  So they have one canonical
form if they agree elsewhere (`checkpoints_collapse`).

What is below `q` is told by the parents that are assigned.  Below the root these are complete, and
the nodes that climb to `q` are the ones strictly below it (`Sound.mem_ancestors_iff`).  A subgoal
beside the root may have no parents assigned below it; then it hides nothing
(`unreachable_checkpoint_does_not_collapse`).
-/

namespace AttackDefense.Graph

open AttackDefense.Tree

variable {g : Graph} {c d : Configuration} {q x : NodeId}

/-! ## Guarded forms -/

theorem covers_iff : g.covers c ↔ ∀ x ∈ c.nodes, x < g.tree.size := by
  simp [covers, Tree.has]

theorem Sound.covers_reduce (hg : g.Sound) (h : g.covers c) : g.covers (g.reduce c) := by
  rw [covers_iff] at h ⊢
  intro x hx
  apply h x
  rw [mem_nodes, hg.mem_reduce_activated, mem_reduce_completed] at hx
  exact mem_nodes.2 (hx.imp And.left And.left)

theorem Sound.covers_normalize (hg : g.Sound) (h : g.covers c) : g.covers (g.normalize c) := by
  apply hg.covers_reduce
  rw [covers_iff] at h ⊢
  intro x hx
  rcases mem_nodes.1 hx with hx | hx
  · exact h x (mem_nodes.2 (.inl hx))
  · rcases mem_or_mem_subgoals_of_propagate hx with hx | hgoal
    · exact h x (mem_nodes.2 (.inr hx))
    · exact lt_size_of_isSubgoal (hg.mem_subgoals.1 hgoal).2

theorem reduce?_of_covers (h : g.covers c) : g.reduce? c = some (g.reduce c) := if_pos h

theorem normalize?_of_covers (h : g.covers c) : g.normalize? c = some (g.normalize c) := if_pos h

/-! ## Idempotence -/

theorem Sound.reduce_reduce_eq (hg : g.Sound) (c : Configuration) :
    g.reduce (g.reduce c) = g.reduce c :=
  hg.reduce_eq_self_iff.2 (hg.reduced_reduce c)

theorem Sound.reduce_normalize_eq (hg : g.Sound) (c : Configuration) :
    g.reduce (g.normalize c) = g.normalize c :=
  hg.reduce_eq_self_iff.2 (hg.canonical_normalize c).toReduced

/-- **Canonical forms are final.**  For every configuration, reachable or not: reducing a second time
changes nothing, nor does normalizing, nor reducing what is normalized.  What is left alone are
exactly the reduced and the canonical configurations.  The forms that refuse what is not about nodes
of the tree never refuse a result of theirs. -/
theorem canonical_form_is_idempotent (hg : g.Built) (c : Configuration) :
    g.reduce (g.reduce c) = g.reduce c ∧
    g.normalize (g.normalize c) = g.normalize c ∧
    g.reduce (g.normalize c) = g.normalize c ∧
    (g.reduce c = c ↔ g.Reduced c) ∧
    (g.normalize c = c ↔ g.Canonical c) ∧
    (g.covers c → (g.reduce? c >>= g.reduce?) = some (g.reduce c) ∧
      (g.normalize? c >>= g.normalize?) = some (g.normalize c) ∧
      (g.normalize? c >>= g.reduce?) = some (g.normalize c)) := by
  have hg := hg.sound
  refine ⟨hg.reduce_reduce_eq c, hg.normalize_normalize_eq c, hg.reduce_normalize_eq c,
    hg.reduce_eq_self_iff, hg.normalize_eq_self_iff, fun h => ?_⟩
  rw [reduce?_of_covers h, normalize?_of_covers h]
  refine ⟨?_, ?_, ?_⟩
  · exact (reduce?_of_covers (hg.covers_reduce h)).trans (congrArg some (hg.reduce_reduce_eq c))
  · exact (normalize?_of_covers (hg.covers_normalize h)).trans
      (congrArg some (hg.normalize_normalize_eq c))
  · exact (reduce?_of_covers (hg.covers_normalize h)).trans
      (congrArg some (hg.reduce_normalize_eq c))

/-- No run has an alarm or a completed attack underway; the alarm stays, the attack goes. -/
theorem canonical_form_is_idempotent_vault :
    vault.normalize ⟨.ofList [0, 1], .ofList [1]⟩ = ⟨.ofList [0], .ofList [3]⟩ ∧
    vault.normalize ⟨.ofList [0], .ofList [3]⟩ = ⟨.ofList [0], .ofList [3]⟩ ∧
    vault.Canonical ⟨.ofList [0], .ofList [3]⟩ := by
  have hnormal : vault.normalize ⟨.ofList [0, 1], .ofList [1]⟩ = ⟨.ofList [0], .ofList [3]⟩ := by
    decide +kernel
  have hidempotent := (canonical_form_is_idempotent built_vault ⟨.ofList [0, 1], .ofList [1]⟩).2.1
  have hcanonical := (canonical_form_is_idempotent built_vault ⟨.ofList [0], .ofList [3]⟩).2.2.2.2.1
  rw [hnormal] at hidempotent
  exact ⟨hnormal, hidempotent, hcanonical.1 hidempotent⟩

/-! ## Below a completed checkpoint -/

/-- What follows in the first set follows in the second, as far as it is not below `q`. -/
theorem Sound.mem_propagate_of_agree (hg : g.Sound) {s u : NodeSet} (hq : q ∈ g.propagate u)
    (hagree : ∀ x, q ∉ g.tree.ancestors x → x ∈ s → x ∈ u) (hx : x ∈ g.propagate s)
    (hapart : q ∉ g.tree.ancestors x) : x ∈ g.propagate u := by
  have key : ∀ x ∈ g.propagate s, q ∉ g.tree.ancestors x → x ∈ g.propagate u := by
    apply propagate_induction
    · exact fun x hx hapart => g.subset_propagate u (hagree x hapart hx)
    · intro x hgoal hsup hapart
      by_cases hxq : x = q
      · exact hxq ▸ hq
      · -- above `q` or beside it, and so are the children, unless they are `q`
        refine hg.mem_propagate_of_supported hgoal (hsup.mono fun y hy hmem => hmem ?_)
        rw [hg.tree.ancestors_eq_cons (hg.parent x (hg.mem_subgoals.1 hgoal).1 y hy),
          List.mem_cons, not_or]
        exact ⟨Ne.symm hxq, hapart⟩
  exact key x hx hapart

/-- What is history in the first set is history in the second, as far as it is not below `q`. -/
theorem Sound.behind_of_agree (hg : g.Sound) {s u : NodeSet} (hq : q ∈ g.propagate u)
    (hagree : ∀ x, q ∉ g.tree.ancestors x → x ∈ s → x ∈ u) (hapart : q ∉ g.tree.ancestors x)
    (h : g.Behind (g.propagate s) x) : g.Behind (g.propagate u) x := by
  obtain ⟨a, ha, hdone, hcheck⟩ := h
  have hapart : q ∉ g.tree.ancestors a := fun hqa => hapart (mem_ancestors_trans ha hqa)
  exact ⟨a, ha, hg.mem_propagate_of_agree hq hagree hdone hapart, hcheck⟩

theorem Sound.normalize_eq_of_agree (hg : g.Sound) (hq : g.isCheckpoint q)
    (hc : q ∈ g.propagate c.completed) (hd : q ∈ g.propagate d.completed)
    (hagree : ∀ x, q ∉ g.tree.ancestors x →
      (x ∈ c.activated ↔ x ∈ d.activated) ∧ (x ∈ c.completed ↔ x ∈ d.completed)) :
    g.normalize c = g.normalize d := by
  have hto : ∀ x, q ∉ g.tree.ancestors x → x ∈ c.completed → x ∈ d.completed :=
    fun x hapart => (hagree x hapart).2.1
  have hfrom : ∀ x, q ∉ g.tree.ancestors x → x ∈ d.completed → x ∈ c.completed :=
    fun x hapart => (hagree x hapart).2.2
  have hhistory : ∀ {s : NodeSet} {x : NodeId}, q ∈ s → q ∈ g.tree.ancestors x → g.Behind s x :=
    fun hs hx => ⟨q, hx, hs, hq⟩
  apply hg.normalize_congr
  · intro x
    by_cases hbelow : q ∈ g.tree.ancestors x
    · exact iff_of_false (fun h => h.2 (hhistory hc hbelow)) (fun h => h.2 (hhistory hd hbelow))
    · constructor
      · rintro ⟨hmem, hb⟩
        exact ⟨hg.mem_propagate_of_agree hd hto hmem hbelow,
          fun h => hb (hg.behind_of_agree hc hfrom hbelow h)⟩
      · rintro ⟨hmem, hb⟩
        exact ⟨hg.mem_propagate_of_agree hc hfrom hmem hbelow,
          fun h => hb (hg.behind_of_agree hd hto hbelow h)⟩
  · intro a _ hb
    exact (hagree a fun hbelow => hb (hhistory hd hbelow)).1

/-- The same is underway and the same is completed in both, among the nodes with a property. -/
def AgreeOn (p : NodeId → Prop) (c d : Configuration) : Prop :=
  ∀ x, p x → (x ∈ c.activated ↔ x ∈ d.activated) ∧ (x ∈ c.completed ↔ x ∈ d.completed)

theorem AgreeOn.mono {p p' : NodeId → Prop} (h : AgreeOn p c d) (hp : ∀ x, p' x → p x) :
    AgreeOn p' c d :=
  fun x hx => h x (hp x hx)

/-- Below the root, the nodes that climb to `q` are those strictly below it. -/
theorem Sound.mem_ancestors_iff (hg : g.Sound) (hq : g.Reachable q) :
    q ∈ g.tree.ancestors x ↔ g.tree.Below q x ∧ x ≠ q := by
  constructor
  · exact fun h => ⟨hg.tree.below_of_mem_ancestors h, Nat.ne_of_lt (lt_of_mem_ancestors h)⟩
  · exact fun h => (hg.eq_or_mem_ancestors hq h.1).resolve_left h.2

/-- **Checkpoints collapse.**  Let a checkpoint follow in two configurations that agree on every node
that does not climb to it, in what is underway and in what is completed.  Then they have the same
canonical form, which has no progress at nodes that climb to it.  For a subgoal of the graph these
are the nodes strictly below it, so two configurations that agree on every other node have the same
canonical form, which has no progress strictly below the checkpoint. -/
theorem checkpoints_collapse (hg : g.Built) (hq : g.isCheckpoint q)
    (hc : q ∈ g.propagate c.completed) (hd : q ∈ g.propagate d.completed) :
    (AgreeOn (fun x => q ∉ g.tree.ancestors x) c d → g.normalize c = g.normalize d) ∧
    (∀ x ∈ (g.normalize c).nodes, q ∉ g.tree.ancestors x) ∧
    (q ∈ g.subgoals →
      (AgreeOn (fun x => ¬ (g.tree.Below q x ∧ x ≠ q)) c d → g.normalize c = g.normalize d) ∧
      ∀ x ∈ (g.normalize c).nodes, ¬ (g.tree.Below q x ∧ x ≠ q)) := by
  have hg := hg.sound
  have hclear : ∀ x ∈ (g.normalize c).nodes, q ∉ g.tree.ancestors x := fun x hx hbelow =>
    hg.not_behind_of_mem_nodes (hg.normalize_normalize_eq c) hx
      (hg.behind_normalize.2 ⟨q, hbelow, hc, hq⟩)
  refine ⟨hg.normalize_eq_of_agree hq hc hd, hclear, fun hgoal => ?_⟩
  have hreach : g.Reachable q := (hg.mem_subgoals.1 hgoal).1
  constructor
  · intro h
    exact hg.normalize_eq_of_agree hq hc hd (h.mono fun x hx => mt (hg.mem_ancestors_iff hreach).2 hx)
  · exact fun x hx => mt (hg.mem_ancestors_iff hreach).2 (hclear x hx)

/-- Whether the attack is done or the vault is open and the attack goes on: the heist is done. -/
theorem checkpoints_collapse_vault :
    3 ∈ vault.propagate (.ofList [1]) ∧ 3 ∈ vault.propagate (.ofList [2]) ∧
    vault.normalize ⟨.empty, .ofList [1]⟩ = vault.normalize ⟨.ofList [1], .ofList [2]⟩ := by
  have hc : 3 ∈ vault.propagate (.ofList [1]) := by decide +kernel
  have hd : 3 ∈ vault.propagate (.ofList [2]) := by decide +kernel
  have hvault : vault.tree.Below 3 2 := .child (by decide) (.refl 2)
  have hattack : vault.tree.Below 3 1 := hvault.step (by decide)
  obtain ⟨_, _, hcollapse⟩ := checkpoints_collapse built_vault (q := 3)
    (c := ⟨.empty, .ofList [1]⟩) (d := ⟨.ofList [1], .ofList [2]⟩) (by decide) hc hd
  refine ⟨hc, hd, (hcollapse (by decide)).1 ?_⟩
  -- the two differ at the attack 1 and at the vault 2
  intro x hx
  have h1 : x ≠ 1 := fun h => hx (h ▸ ⟨hattack, by decide⟩)
  have h2 : x ≠ 2 := fun h => hx (h ▸ ⟨hvault, by decide⟩)
  simp [h1, h2]

/-! ## A checkpoint beside the root -/

/-- The house is entered by its door; the annex, entered by its window, is no part of it. -/
def annexTree : Tree :=
  let t := Tree.empty
  let t := t.withNode (.attack ⟨"door", 1, .one, none, none, []⟩) (t.children_attack_lt _)
  let t := t.withNode (.attack ⟨"window", 1, .one, none, none, []⟩) (t.children_attack_lt _)
  let t := t.withNode (.subgoal (t.subgoalOver "annex" .or [1] false))
    fun _ h => children_subgoalOver_lt h
  t.withNode (.subgoal (t.subgoalOver "house" .or [0] false))
    fun _ h => children_subgoalOver_lt h

theorem built_annexTree : annexTree.Built := by
  refine Built.empty _
    |>.withAttack (by decide) (by decide) (by decide) ?_
    |>.withAttack (by decide) (by decide) (by decide) ?_
    |>.withSubgoal (by decide) (by decide) (by decide) (by decide) (by decide) ?_
    |>.withSubgoal (by decide) (by decide) (by decide) (by decide) (by decide) ?_
  all_goals simp [find?_withNode, find?_empty, Node.name, subgoalOver]

/-- The graph below the house: no parent is assigned to the window of the annex. -/
def annex : Graph where
  tree := { annexTree with parents := #[some 3, none, none, none] }
  root := 3
  attacks := [0]
  defenses := []
  subgoals := [3]
  ownerTable := .ofList []
  followerTable := .ofList []

theorem index_annex : index annex.tree 3 = annex := by
  have hwalk : annex.tree.depthFirst 3 = [3, 0] := by decide +kernel
  have hlisted : annex.tree.depthFirstWithDefenses 3 = [3, 0] := by
    have h0 : annex.tree.defensesOf 0 = [] := rfl
    have h3 : annex.tree.defensesOf 3 = [] := rfl
    unfold depthFirstWithDefenses
    simp [hwalk, Listing.addNode, h0, h3]
  unfold index
  rw [hlisted, hwalk]
  rfl

theorem built_annex : annex.Built :=
  built_of_index built_annexTree rfl rfl rfl (by decide +kernel) rfl index_annex

/-- The annex is a completed checkpoint, with and without an attack on its window, which is strictly
below it; but nothing climbs from the window to the annex, so the attack stays. -/
theorem unreachable_checkpoint_does_not_collapse :
    annex.Built ∧ annex.tree.isSubgoal 2 ∧ annex.isCheckpoint 2 ∧
    annex.covers ⟨.ofList [1], .ofList [2]⟩ ∧ annex.covers ⟨.empty, .ofList [2]⟩ ∧
    2 ∈ annex.propagate (.ofList [2]) ∧
    AgreeOn (fun x => ¬ (annex.tree.Below 2 x ∧ x ≠ 2))
      ⟨.ofList [1], .ofList [2]⟩ ⟨.empty, .ofList [2]⟩ ∧
    annex.normalize ⟨.ofList [1], .ofList [2]⟩ ≠ annex.normalize ⟨.empty, .ofList [2]⟩ := by
  refine ⟨built_annex, by decide, by decide, by decide, by decide, by decide +kernel, ?_,
    by decide +kernel⟩
  intro x hx
  have hwindow : annex.tree.Below 2 1 := .child (by decide) (.refl 1)
  have h1 : x ≠ 1 := fun h => hx (h ▸ ⟨hwindow, by decide⟩)
  simp [h1]

end AttackDefense.Graph
