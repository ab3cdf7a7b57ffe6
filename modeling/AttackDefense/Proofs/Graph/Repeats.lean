import AttackDefense.Proofs.Graph.Scope
import Mathlib.Data.List.Nodup

/-!
# Nodes that are listed twice

A node has one parent, so the walk from the root meets it twice only if its parent, or a subgoal
above it, is listed twice by its own parent.  Every subgoal has an attack below it.  So the attacks
of a graph tell whether any child is listed twice:

    g.attacks.Nodup ↔ ∀ p, g.Reachable p → (g.tree.children p).Nodup        (nodup_attacks_iff)
-/

namespace AttackDefense

namespace Tree

variable {t : Tree}

/-! ## Attacks below a node -/

/-- Below every goal there is an attack. -/
theorem Sound.exists_attack_below (hs : t.Sound) {x : NodeId} (h : t.isAttack x ∨ t.isSubgoal x) :
    ∃ a, t.Below x a ∧ t.isAttack a := by
  induction x using Nat.strongRecOn with
  | _ x ih =>
    rcases h with h | h
    · exact ⟨x, .refl x, h⟩
    · obtain ⟨s, hx⟩ := isSubgoal_iff.1 h
      have hfits : t.SubgoalFits x s := hs.fits x _ hx
      obtain ⟨c, hc⟩ := List.exists_mem_of_ne_nil _ hfits.nonempty
      have hchild : c ∈ t.children x := mem_children_iff.2 ⟨s, subgoal?_eq_some.2 hx, hc⟩
      obtain ⟨a, ha, hattack⟩ := ih c (children_lt hchild) (hs.kind_of_mem_children hchild)
      exact ⟨a, .child hchild ha, hattack⟩

/-- The walk from a node is part of each walk that meets it. -/
theorem Below.preOrder_sublist {p x : NodeId} (h : t.Below p x) :
    (t.preOrder x).Sublist (t.preOrder p) := by
  induction h with
  | refl => exact List.Sublist.refl _
  | @child p c x hc _ ih =>
    obtain ⟨before, later, hsplit⟩ := List.append_of_mem hc
    rw [preOrder_eq t p, hsplit, List.flatMap_append, List.flatMap_cons]
    apply List.Sublist.cons
    exact (ih.trans (List.sublist_append_left _ _)).trans (List.sublist_append_right _ _)

/-- Of two nodes on one climb one is above the other, unless they are the same. -/
theorem eq_or_above_of_climb {x a b : NodeId} (ha : a ∈ x :: t.ancestors x)
    (hb : b ∈ x :: t.ancestors x) : a = b ∨ a ∈ t.ancestors b ∨ b ∈ t.ancestors a := by
  rcases List.mem_cons.1 ha with rfl | ha
  · exact (List.mem_cons.1 hb).imp Eq.symm .inr
  · rcases List.mem_cons.1 hb with rfl | hb
    · exact .inr (.inl ha)
    · fun_induction ancestors t x with
      | case1 x hnone => cases ha
      | case2 x p hsome hlt ih =>
        rcases List.mem_cons.1 ha with rfl | ha
        · exact (List.mem_cons.1 hb).imp Eq.symm .inr
        · rcases List.mem_cons.1 hb with rfl | hb
          · exact .inr (.inl ha)
          · exact ih (List.mem_cons_of_mem _ ha) (List.mem_cons_of_mem _ hb) ha hb
      | case3 x p hsome hlt => cases ha

end Tree

namespace Graph

open AttackDefense.Tree

variable {g : Graph}

/-! ## Siblings -/

/-- Nothing lies below two children of one subgoal. -/
theorem Sound.eq_of_below_siblings (hg : g.Sound) {p c d x : NodeId} (hp : g.Reachable p)
    (hc : c ∈ g.tree.children p) (hd : d ∈ g.tree.children p) (hcx : g.tree.Below c x)
    (hdx : g.tree.Below d x) : c = d := by
  have hclimb : ∀ {c}, c ∈ g.tree.children p → g.tree.Below c x → c ∈ x :: g.tree.ancestors x := by
    intro c hc hcx
    rcases hg.eq_or_mem_ancestors (hp.step hc) hcx with rfl | h
    · exact List.mem_cons_self
    · exact List.mem_cons_of_mem _ h
  have hnot : ∀ {c d}, c ∈ g.tree.children p → d ∈ g.tree.children p →
      c ∉ g.tree.ancestors d := by
    intro c d hc hd h
    rw [hg.tree.ancestors_eq_cons (hg.parent p hp d hd)] at h
    have hlt : c < p := children_lt hc
    rcases List.mem_cons.1 h with rfl | h
    · exact absurd hlt (Nat.lt_irrefl _)
    · exact absurd hlt (Nat.lt_asymm (lt_of_mem_ancestors h))
  rcases eq_or_above_of_climb (hclimb hc hcx) (hclimb hd hdx) with h | h | h
  · exact h
  · exact absurd h (hnot hc hd)
  · exact absurd h (hnot hd hc)

/-! ## The walk -/

theorem Sound.nodup_preOrder (hg : g.Sound)
    (h : ∀ p, g.Reachable p → (g.tree.children p).Nodup) {p : NodeId} (hp : g.Reachable p) :
    (g.tree.preOrder p).Nodup := by
  induction p using Nat.strongRecOn with
  | _ p ih =>
    rw [preOrder_eq, List.nodup_cons, List.nodup_flatMap]
    refine ⟨?_, fun c hc => ih c (children_lt hc) (hp.step hc), ?_⟩
    · intro hmem
      obtain ⟨c, hc, hx⟩ := List.mem_flatMap.1 hmem
      exact absurd (mem_preOrder.1 hx).le (Nat.not_le.2 (children_lt hc))
    · refine (h p hp).imp_of_mem fun {c d} hc hd hne x hcx hdx => hne ?_
      exact hg.eq_of_below_siblings hp hc hd (mem_preOrder.1 hcx) (mem_preOrder.1 hdx)

/-- **Repeats.**  The attacks of a graph repeat exactly if some subgoal below the root lists a child
twice. -/
theorem Sound.nodup_attacks_iff (hg : g.Sound) :
    g.attacks.Nodup ↔ ∀ p, g.Reachable p → (g.tree.children p).Nodup := by
  rw [hg.attacks, depthFirst_eq_preOrder]
  constructor
  · intro h p hp
    have hbelow : ((g.tree.preOrder p).filter g.tree.isAttack).Nodup :=
      h.sublist (hp.preOrder_sublist.filter _)
    rw [preOrder_eq, List.filter_cons] at hbelow
    have hchildren :
        (((g.tree.children p).flatMap g.tree.preOrder).filter g.tree.isAttack).Nodup := by
      split at hbelow
      · exact (List.nodup_cons.1 hbelow).2
      · exact hbelow
    rw [List.filter_flatMap, List.nodup_flatMap] at hchildren
    refine hchildren.2.imp_of_mem fun {c d} hc _ hdisjoint => ?_
    rintro rfl
    -- an attack below a child that is listed twice is listed twice
    obtain ⟨a, ha, hattack⟩ := hg.tree.exists_attack_below (hg.tree.kind_of_mem_children hc)
    have hmem : a ∈ (g.tree.preOrder c).filter g.tree.isAttack :=
      List.mem_filter.2 ⟨mem_preOrder.2 ha, hattack⟩
    exact hdisjoint hmem hmem
  · exact fun h => (hg.nodup_preOrder h (.refl _)).filter _

end Graph

end AttackDefense
