import AttackDefense.Proofs.Graph.Forgetting

/-!
# Completed goals stay supported

A configuration is `Grounded` if its attacks and goals are those of the graph and every completed
goal that a defense can take back is supported by its completed children.  Every event keeps this,
and so does making the configuration canonical:

    g.Grounded c → e.Of g → g.Grounded (e.apply g c)               (Grounded.apply)
    g.Grounded c → g.Grounded (g.normalize c)                      (Grounded.normalize)

A defense keeps it because what it takes away from under a goal takes the goal away as well, up to
the first checkpoint, and a checkpoint needs no support.
-/

namespace AttackDefense.Graph

open AttackDefense.Tree

variable {g : Graph}

/-- The configuration is about nodes of the graph, and every completed goal that can be taken back is
supported. -/
structure Grounded (g : Graph) (c : Configuration) : Prop where
  activated : ∀ a ∈ c.activated, a ∈ g.attacks
  completed : ∀ x ∈ c.completed, x ∈ g.attacks ∨ x ∈ g.subgoals
  supported : ∀ x ∈ c.completed, x ∈ g.subgoals → ¬ g.isCheckpoint x →
    g.Supported (· ∈ c.completed) x

theorem grounded_empty (g : Graph) : g.Grounded .empty where
  activated := by simp [Configuration.empty]
  completed := by simp [Configuration.empty]
  supported := by simp [Configuration.empty]

variable {c : Configuration}

theorem Sound.not_mem_subgoals_of_mem_attacks (hg : g.Sound) {a : NodeId} (h : a ∈ g.attacks) :
    a ∉ g.subgoals := fun hs =>
  not_isSubgoal_of_isAttack (hg.mem_attacks.1 h).2 (hg.mem_subgoals.1 hs).2

/-! ## Events -/

/-- Whatever a defense takes from under a goal that can be taken back, it takes the goal as well. -/
theorem Grounded.applyDefense (hg : g.Sound) (h : g.Grounded c) (d : NodeId) :
    g.Grounded (g.applyDefense d c) where
  activated := fun a ha => h.activated a (mem_applyDefense_activated.1 ha).1
  completed := fun x hx => h.completed x (mem_applyDefense_completed.1 hx).1
  supported := by
    intro x hx hgoal hcheck
    obtain ⟨hx, hkept⟩ := mem_applyDefense_completed.1 hx
    apply (h.supported x hx hgoal hcheck).mono
    intro y hy hmem
    have hparent : g.tree.parent? y = some x := hg.parent x (hg.mem_subgoals.1 hgoal).1 y hy
    exact mem_applyDefense_completed.2 ⟨hmem, fun hl => hkept (hg.lost_of_parent hl hparent hcheck)⟩

theorem Grounded.apply (hg : g.Sound) (h : g.Grounded c) {e : Event} (he : e.Of g) :
    g.Grounded (e.apply g c) := by
  cases e with
  | activate a =>
    refine ⟨fun b hb => ?_, h.completed, h.supported⟩
    rcases NodeSet.mem_insert.1 hb with rfl | hb
    · exact he
    · exact h.activated b hb
  | complete a =>
    refine ⟨h.activated, fun x hx => ?_, fun x hx hgoal hcheck => ?_⟩
    · rcases NodeSet.mem_insert.1 hx with rfl | hx
      · exact .inl he
      · exact h.completed x hx
    · rcases NodeSet.mem_insert.1 hx with rfl | hx
      · exact absurd hgoal (hg.not_mem_subgoals_of_mem_attacks he)
      · exact (h.supported x hx hgoal hcheck).mono fun _ _ hy => NodeSet.mem_insert.2 (.inr hy)
  | deactivate a =>
    exact ⟨fun b hb => h.activated b (NodeSet.mem_erase.1 hb).1, h.completed, h.supported⟩
  | strike d => exact h.applyDefense hg d

/-! ## Canonical form -/

theorem Grounded.supported_propagate (hg : g.Sound) (h : g.Grounded c) {x : NodeId}
    (hx : x ∈ g.propagate c.completed) (hgoal : x ∈ g.subgoals) (hcheck : ¬ g.isCheckpoint x) :
    g.Supported (· ∈ g.propagate c.completed) x := by
  rcases hg.mem_or_supported_of_propagate hx with hx | hsup
  · exact (h.supported x hx hgoal hcheck).mono fun _ _ hy => g.subset_propagate _ hy
  · exact hsup

/-- A goal that is kept and no checkpoint keeps its children from being history. -/
theorem Grounded.normalize (hg : g.Sound) (h : g.Grounded c) : g.Grounded (g.normalize c) where
  activated := fun a ha => h.activated a (hg.mem_normalize_activated.1 ha).1
  completed := by
    intro x hx
    rcases mem_or_mem_subgoals_of_propagate (mem_normalize_completed.1 hx).1 with hx | hx
    · exact h.completed x hx
    · exact .inr hx
  supported := by
    intro x hx hgoal hcheck
    obtain ⟨hx, hkept⟩ := mem_normalize_completed.1 hx
    apply (h.supported_propagate hg hx hgoal hcheck).mono
    intro y hy hmem
    have hparent : g.tree.parent? y = some x := hg.parent x (hg.mem_subgoals.1 hgoal).1 y hy
    refine mem_normalize_completed.2 ⟨hmem, ?_⟩
    rw [hg.behind_iff_parent hparent]
    exact fun hb => hb.elim (fun hb => hcheck hb.2) hkept

end AttackDefense.Graph
