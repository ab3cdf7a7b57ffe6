import AttackDefense.Proofs.Automaton.Goal
import AttackDefense.Proofs.Graph.Followers

/-!
# What stays reached

A checkpoint is *sheltered* if no reset subgoal above it has a defense.  No defense takes a sheltered
checkpoint back, and none of the checkpoints above it (`Sheltered.not_lost`).  So once it is
completed, it stays completed or becomes history:

    g.Settled s q := q ∈ s ∨ g.Behind s q
    g.Sheltered q → g.Settled c.completed q →
      g.Settled (g.normalize (e.apply g c)).completed q                     (Settled.apply)

The root is sheltered, and a root that is no reset subgoal is a checkpoint.  When it is completed,
nothing else is left (`Regular.eq_of_root_mem`), so that no move is.
-/

namespace AttackDefense

open AttackDefense.Tree

variable {g : Graph} {c : Configuration} {q : NodeId}

namespace Graph

/-! ## Sheltered checkpoints -/

/-- No reset subgoal above the node has a defense. -/
def Sheltered (g : Graph) (q : NodeId) : Prop :=
  ∀ a ∈ g.tree.ancestors q, g.tree.isReset a → g.tree.defensesOf a = []

theorem Sheltered.of_ancestor (h : g.Sheltered q) {a : NodeId} (ha : a ∈ g.tree.ancestors q) :
    g.Sheltered a := fun b hb => h b (mem_ancestors_trans ha hb)

/-- Whatever would take it back is the checkpoint itself or a defended reset subgoal above it. -/
theorem Sheltered.not_lost (hg : g.Sound) (h : g.Sheltered q) (hq : g.isCheckpoint q) {s : NodeSet}
    {d : NodeId} : ¬ g.Lost s d q := by
  intro hl
  obtain ⟨o, ho, hr, hoq⟩ := hg.reset_of_lost_checkpoint hq hl
  obtain ⟨hreach, hd⟩ := (hg.mem_owners o d).1 ho.1
  rcases hg.eq_or_mem_ancestors hreach hoq with rfl | ha
  · exact hg.not_isCheckpoint_of_mem_owners ho.1 hq
  · rw [h o ha hr] at hd
    cases hd

/-- The node is completed, or a completed checkpoint stands above it. -/
def Settled (g : Graph) (s : NodeSet) (q : NodeId) : Prop := q ∈ s ∨ g.Behind s q

theorem Settled.mono {s u : NodeSet} (h : g.Settled s q)
    (hsu : ∀ a, a = q ∨ a ∈ g.tree.ancestors q ∧ g.isCheckpoint a → a ∈ s → a ∈ u) :
    g.Settled u q := by
  rcases h with h | ⟨a, ha, hs, hc⟩
  · exact .inl (hsu q (.inl rfl) h)
  · exact .inr ⟨a, ha, hsu a (.inr ⟨ha, hc⟩) hs, hc⟩

theorem Settled.normalize (hg : g.Sound) (h : g.Settled c.completed q) :
    g.Settled (g.normalize c).completed q := by
  have hgrown : g.Settled (g.propagate c.completed) q := h.mono fun a _ => g.subset_propagate _
  by_cases hb : g.Behind (g.propagate c.completed) q
  · exact .inr (hg.behind_normalize.2 hb)
  · exact .inl (mem_normalize_completed.2 ⟨hgrown.resolve_right hb, hb⟩)

/-- No event takes back a sheltered checkpoint or a checkpoint above it. -/
theorem Settled.apply (hg : g.Sound) (hq : g.isCheckpoint q) (hshelter : g.Sheltered q)
    (h : g.Settled c.completed q) (e : Event) : g.Settled (e.apply g c).completed q := by
  cases e with
  | activate a => exact h
  | complete a => exact h.mono fun b _ hb => NodeSet.mem_insert.2 (.inr hb)
  | deactivate a => exact h
  | strike d =>
    refine h.mono fun b hb hmem => mem_applyDefense_completed.2 ⟨hmem, ?_⟩
    rcases hb with rfl | ⟨hb, hc⟩
    · exact hshelter.not_lost hg hq
    · exact (hshelter.of_ancestor hb).not_lost hg hc

/-! ## Paths of moves -/

/-- Only a wait leads back to where it came from. -/
theorem waiting_of_mem_moves {phase : Phase} {m : Move} (h : (m, none) ∈ g.moves phase c) :
    phase = .waiting := by
  cases phase with
  | deciding =>
    rcases List.mem_append.1 h with h | h
    · obtain ⟨a, _, he⟩ := List.mem_map.1 h
      unfold startMove at he
      split at he <;> cases he
    · split at h
      · cases h
      · cases List.mem_singleton.1 h
  | waiting => rfl
  | paying a => cases List.mem_singleton.1 h
  | attempting a | resetting d =>
    simp only [moves, List.mem_cons, List.not_mem_nil, or_false] at h
    rcases h with h | h <;> cases h

theorem Regular.next (hg : g.Sound) {p p' : Phase × Configuration} (h : g.Regular p.1 p.2)
    (hnext : g.Next p p') : g.Regular p'.1 p'.2 := by
  obtain ⟨m, c, hmem, hc⟩ := hnext
  exact hc ▸ h.step hg hmem

theorem Settled.next (hg : g.Sound) (hq : g.isCheckpoint q) (hshelter : g.Sheltered q)
    {p p' : Phase × Configuration} (hp : g.Regular p.1 p.2) (h : g.Settled p.2.completed q)
    (hnext : g.Next p p') : g.Settled p'.2.completed q := by
  obtain ⟨m, c, hmem, hc⟩ := hnext
  rw [← hc]
  apply Settled.normalize hg
  rcases (step_of_mem_moves hmem).event hp.involves with rfl | ⟨e, _, rfl⟩
  · exact h
  · exact h.apply hg hq hshelter e

open Relation in
/-- **Invariant.**  Along every path of moves a sheltered checkpoint stays settled. -/
theorem Settled.path (hg : g.Sound) (hq : g.isCheckpoint q) (hshelter : g.Sheltered q)
    {p p' : Phase × Configuration} (hp : g.Regular p.1 p.2) (h : g.Settled p.2.completed q)
    (hpath : ReflTransGen g.Next p p') : g.Settled p'.2.completed q := by
  have key : g.Regular p'.1 p'.2 ∧ g.Settled p'.2.completed q := by
    induction hpath with
    | refl => exact ⟨hp, h⟩
    | tail _ hnext ih => exact ⟨ih.1.next hg hnext, ih.2.next hg hq hshelter ih.1 hnext⟩
  exact key.2

end Graph

namespace Automaton

open AttackDefense.Graph Relation

variable {m : Automaton}

/-! ## Paths of edges -/

/-- An edge leads along a move, or from a wait back to it. -/
theorem Unfolds.next_of_adjacent (h : m.Unfolds g) {i j : StateId} {s : State}
    (hs : m.state? i = some s) (hij : m.Adjacent i j) : ∃ u, m.state? j = some u ∧
      (u = s ∧ s.phase = .waiting ∨
        g.Next (s.phase, s.configuration) (u.phase, u.configuration)) := by
  obtain ⟨e, he, rfl⟩ := hij
  obtain ⟨⟨move, target⟩, hmem, _, _, hdest⟩ := exists_of_mem_left (h.rows i s hs) he
  cases target with
  | none =>
    dsimp only at hdest
    exact ⟨s, hdest ▸ hs, .inl ⟨rfl, waiting_of_mem_moves hmem⟩⟩
  | some target =>
    obtain ⟨phase, c⟩ := target
    obtain ⟨u, hu, hkey⟩ := (h.indexed _ _).1 hdest
    have htarget : (u.phase, u.configuration) = (phase, g.normalize c) := by
      rw [State.phase, State.configuration, hkey, configuration_keyOf]
      rfl
    refine ⟨u, hu, .inr ?_⟩
    rw [htarget]
    exact ⟨move, c, hmem, rfl⟩

/-- A path of edges follows a path of moves. -/
theorem Unfolds.path_of_adjacent (h : m.Unfolds g) {i j : StateId} {s : State}
    (hs : m.state? i = some s) (hij : ReflTransGen m.Adjacent i j) : ∃ u, m.state? j = some u ∧
      ReflTransGen g.Next (s.phase, s.configuration) (u.phase, u.configuration) := by
  induction hij with
  | refl => exact ⟨s, hs, .refl⟩
  | tail _ hstep ih =>
    obtain ⟨u, hu, hpath⟩ := ih
    obtain ⟨v, hv, ⟨rfl, _⟩ | hnext⟩ := h.next_of_adjacent hu hstep
    · exact ⟨v, hv, hpath⟩
    · exact ⟨v, hv, hpath.tail hnext⟩

/-! ## Checkpoints -/

/-- **Checkpoints are permanent.**  Let `q` be a checkpoint that is completed in a state of an
automaton, and let no reset subgoal above it have a defense.  After every path of edges it is still
completed, or a completed checkpoint stands above it. -/
theorem checkpoints_are_permanent (hg : g.Built) {maxStates : Nat} (h : build g maxStates = .ok m)
    {i j : StateId} {s u : State} (hs : m.state? i = some s) (hu : m.state? j = some u)
    (hpath : ReflTransGen m.Adjacent i j) {q : NodeId} (hcheck : g.isCheckpoint q)
    (hdone : q ∈ s.configuration.completed)
    (hshelter : ∀ a ∈ g.tree.ancestors q, g.tree.isReset a → g.tree.defensesOf a = []) :
    q ∈ u.configuration.completed ∨
      ∃ a ∈ g.tree.ancestors q, a ∈ u.configuration.completed ∧ g.isCheckpoint a := by
  have hg := hg.sound
  have hm := unfolds_of_build hg h
  have hregular := (hm.states i s hs).2.regular hg
  obtain ⟨v, hv, hmoves⟩ := hm.path_of_adjacent hs hpath
  obtain rfl := Option.some.inj (hv.symm.trans hu)
  exact Settled.path hg hcheck hshelter hregular (.inl hdone) hmoves

/-- In the office the alarm takes back the theft and not the bribe, which counts until the heist is
done. -/
theorem checkpoints_are_permanent_office : ∃ m i j s u, build office 15 = .ok m ∧
    m.state? i = some s ∧ s.key = ⟨.waiting, [3], [2]⟩ ∧ m.state? j = some u ∧
    u.configuration = ⟨.empty, .ofList [2]⟩ ∧ ReflTransGen m.Adjacent i j ∧
    (2 ∈ u.configuration.completed ∨
      ∃ a ∈ office.tree.ancestors 2, a ∈ u.configuration.completed ∧ office.isCheckpoint a) := by
  obtain ⟨m, hm⟩ := exists_build_office
  have hunfolds := unfolds_of_build built_office.sound hm
  obtain ⟨i, s, hs, hkey⟩ := hunfolds.exists_state_iff.2 reachableKey_office
  have hconfiguration : s.configuration = ⟨.ofList [3], .ofList [2]⟩ := by
    rw [State.configuration, hkey]
    rfl
  have hreset : office.normalize (office.applyDefense 0 s.configuration) =
      ⟨.empty, .ofList [2]⟩ := by
    rw [applyDefense_office (by decide), hconfiguration]
    decide +kernel
  have hmoves := path_reset (g := office) (c := s.configuration) (d := 0)
    (by rw [hconfiguration]; decide +kernel) (by rw [hconfiguration]; decide +kernel)
  rw [hreset, show Phase.waiting = s.phase from (congrArg StateKey.phase hkey).symm] at hmoves
  obtain ⟨j, u, hu, htarget, hpath⟩ := hunfolds.exists_path hs hmoves
  refine ⟨m, i, j, s, u, hm, hs, hkey, hu, (Prod.mk.inj htarget).2, hpath, ?_⟩
  exact checkpoints_are_permanent built_office hm hs hu hpath (q := 2) (by decide)
    (by rw [hconfiguration]; decide) (by decide +kernel)

end Automaton

namespace Graph

/-! ## A reached root -/

/-- When a root that stays reached is completed, nothing else is left. -/
theorem Regular.eq_of_root_mem (hg : g.Sound) (hroot : ¬ g.tree.isReset g.root) {phase : Phase}
    (h : g.Regular phase c) (hmem : g.root ∈ c.completed) : c = ⟨.empty, .ofList [g.root]⟩ := by
  have hcheck : g.isCheckpoint g.root := by simp [isCheckpoint, hg.root_undefended, hroot]
  have honly : ∀ x ∈ c.nodes, x = g.root := by
    intro x hx
    refine (hg.eq_or_mem_ancestors (.refl _) (h.grounded.reachable hg hx)).resolve_right ?_
    intro ha
    exact hg.not_behind_of_mem_nodes h.canonical hx ⟨g.root, ha, hmem, hcheck⟩
  ext x
  · rw [NodeSet.mem_empty, iff_false]
    intro hx
    have hattack := (hg.mem_attacks.1 (h.grounded.activated x hx)).2
    rw [honly x (mem_nodes.2 (.inl hx))] at hattack
    exact not_isSubgoal_of_isAttack hattack hg.root_isSubgoal
  · rw [NodeSet.mem_ofList, List.mem_singleton]
    exact ⟨fun hx => honly x (mem_nodes.2 (.inr hx)), fun hx => hx ▸ hmem⟩

section

variable (hg : g.Sound) (hroot : ¬ g.tree.isReset g.root)

include hg

/-- No defense is in scope any more. -/
theorem activeDefenses_root : g.activeDefenses ⟨.empty, .ofList [g.root]⟩ = [] := by
  rw [List.eq_nil_iff_forall_not_mem]
  intro d hd
  obtain ⟨_, x, hx, hd⟩ := mem_activeDefenses.1 hd
  obtain rfl : x = g.root := by simpa [mem_nodes] using hx
  rw [hg.root_undefended, ancestors_eq_nil hg.root_parent] at hd
  simp at hd

include hroot

/-- No attack may be started any more: the root stands above all of them. -/
theorem not_isAvailable_root {a : NodeId} (ha : a ∈ g.attacks) :
    ¬ g.isAvailable ⟨.empty, .ofList [g.root]⟩ a := by
  intro havailable
  obtain ⟨_, hnot, hb⟩ := isAvailable_iff.1 havailable
  have hcheck : g.isCheckpoint g.root := by simp [isCheckpoint, hg.root_undefended, hroot]
  rcases hg.eq_or_mem_ancestors (.refl _) (hg.mem_attacks.1 ha).1 with rfl | habove
  · exact hnot (by simp)
  · exact hb ⟨g.root, habove, by simp, hcheck⟩

/-- Whoever has reached the root has a decision to make, and nothing to decide. -/
theorem Regular.phase_of_root_mem {phase : Phase} (h : g.Regular phase c)
    (hmem : g.root ∈ c.completed) : phase = .deciding := by
  obtain rfl := h.eq_of_root_mem hg hroot hmem
  cases phase with
  | deciding => rfl
  | paying a => exact absurd h.admits (not_isAvailable_root hg hroot h.involves)
  | waiting => exact absurd ⟨rfl, activeDefenses_root hg⟩ (h.busy rfl)
  | attempting a =>
    have ha : a ∈ NodeSet.empty := h.admits
    simp at ha
  | resetting d =>
    have hd : d ∈ g.activeDefenses ⟨.empty, .ofList [g.root]⟩ := h.admits
    rw [activeDefenses_root hg] at hd
    cases hd

theorem moves_root : g.moves .deciding ⟨.empty, .ofList [g.root]⟩ = [] := by
  have hnone : g.availableAttacks ⟨.empty, .ofList [g.root]⟩ = [] :=
    List.filter_eq_nil_iff.2 fun a ha => not_isAvailable_root hg hroot ha
  have hquiet : (⟨.empty, .ofList [g.root]⟩ : Configuration).activated.isEmpty ∧
      g.activeDefenses ⟨.empty, .ofList [g.root]⟩ = [] := ⟨rfl, activeDefenses_root hg⟩
  unfold moves
  dsimp only
  rw [hnone, if_pos hquiet]
  rfl

theorem ReachableKey.eq_of_root_mem {k : StateKey} (hk : g.ReachableKey k)
    (hmem : g.root ∈ k.configuration.completed) : k = ⟨.deciding, [], [g.root]⟩ := by
  have hregular := hk.regular hg
  rw [hk.eq_keyOf hg, hregular.phase_of_root_mem hg hroot hmem,
    hregular.eq_of_root_mem hg hroot hmem]
  simp [keyOf, sortedByName, NodeSet.empty, NodeSet.ofList, NodeSet.insert, NodeSet.insertSorted]

end

end Graph

namespace Automaton

open AttackDefense.Graph

variable {m : Automaton}

/-- **The goal is absorbing.**  Unless the root is a reset subgoal, an automaton has exactly one
accepting state.  In it the attacker decides, nothing is underway and nothing but the root is
completed, and no edge leaves it.  No other state has the root completed. -/
theorem goal_is_absorbing (hg : g.Built) (hroot : ¬ g.tree.isReset g.root) {maxStates : Nat}
    (h : build g maxStates = .ok m) :
    ∃ i s, m.state? i = some s ∧ m.acceptingStates = [i] ∧ m.accepting = some i ∧
      s.key = ⟨.deciding, [], [g.root]⟩ ∧ m.edgesOf i = [] ∧
      ∀ j u, m.state? j = some u → g.root ∈ u.key.completed → j = i := by
  have hg := hg.sound
  have hm := unfolds_of_build hg h
  obtain ⟨_, hinitial, _⟩ := hm.initial
  obtain ⟨_, _, hfirst, hfirst_accepting, _⟩ := hm.exists_accepting hg hinitial
  obtain ⟨i, s, haccepting, hs, hs_accepting⟩ :=
    exists_accepting_of_build h hfirst hfirst_accepting
  have hkey : ∀ j u, m.state? j = some u → g.root ∈ u.configuration.completed →
      u.key = ⟨.deciding, [], [g.root]⟩ := fun j u hu hmem =>
    (hm.states j u hu).2.eq_of_root_mem hg hroot hmem
  have hiff : ∀ j u, m.state? j = some u →
      (u.accepting ↔ g.root ∈ u.configuration.completed) := by
    intro j u hu
    rw [congrArg State.accepting (hm.states j u hu).1.eq_stateOf]
    simp only [stateOf, Bool.and_eq_true, beq_iff_eq, isAccepting_iff, and_iff_right_iff_imp]
    exact fun hmem => congrArg StateKey.phase (hkey j u hu hmem)
  have hs_key := hkey i s hs ((hiff i s hs).1 hs_accepting)
  have honly : ∀ j u, m.state? j = some u → g.root ∈ u.configuration.completed → j = i :=
    fun j u hu hmem => hm.indexed.key_inj hu hs ((hkey j u hu hmem).trans hs_key.symm)
  refine ⟨i, s, hs, ?_, haccepting, hs_key, ?_, fun j u hu hmem => ?_⟩
  · have hmem : ∀ j, j ∈ m.acceptingStates ↔ j ∈ [i] := by
      intro j
      rw [acceptingStates, List.mem_filter, List.mem_singleton, Option.any_eq_true]
      constructor
      · rintro ⟨_, u, hu, ha⟩
        exact honly j u hu ((hiff j u hu).1 ha)
      · rintro rfl
        exact ⟨List.mem_range.2 (StateTable.lt_size_of_get? hs), s, hs, hs_accepting⟩
    have hnodup : m.acceptingStates.Nodup := List.nodup_range.filter _
    exact List.perm_singleton.1
      ((List.perm_ext_iff_of_nodup hnodup (List.nodup_singleton i)).2 hmem)
  · have hrow := hm.rows i s hs
    have hmoves : g.moves s.phase s.configuration = [] := by
      rw [State.phase, State.configuration, hs_key]
      exact moves_root hg hroot
    rw [hmoves, List.forall₂_nil_right_iff] at hrow
    exact hrow
  · exact honly j u hu (NodeSet.mem_ofList.2 hmem)

/-- The small graph has one state in which its goal is reached. -/
theorem goal_is_absorbing_vault : ∃ m i s, build vault 7 = .ok m ∧ ¬ vault.tree.isReset 3 ∧
    m.state? i = some s ∧ m.acceptingStates = [i] ∧ m.accepting = some i ∧
    s.key = ⟨.deciding, [], [3]⟩ ∧ m.edgesOf i = [] := by
  obtain ⟨m, hm⟩ := exists_build_vault
  obtain ⟨i, s, hs, hstates, haccepting, hkey, hedges, _⟩ :=
    goal_is_absorbing built_vault (by decide) hm
  exact ⟨m, i, s, hm, by decide, hs, hstates, haccepting, hkey, hedges⟩

end Automaton

end AttackDefense
