import AttackDefense.Proofs.Automaton.Reachable
import AttackDefense.Proofs.Graph.Effect

/-!
# The configurations of an automaton

The configuration of every reachable key is canonical and grounded (`ReachableKey.regular`).  Three
main results follow.  The states of an automaton carry canonical configurations whose completed goals
are supported (`states_are_canonical`), a defense that is out of scope would change nothing
(`scope_is_sound`), and what a defense takes back can be said without following its walk
(`defense_effect_is_exact`).
-/

namespace AttackDefense

open AttackDefense.Tree

variable {g : Graph} {c : Configuration}

theorem Configuration.isEmpty_iff : c.isEmpty ↔ c = .empty := by
  obtain ⟨activated, completed⟩ := c
  simp [isEmpty, NodeSet.isEmpty_iff, empty]

namespace Graph

/-! ## Names -/

/-- Different nodes have different names, so their order by name is strict. -/
theorem Sound.pairwise_sortedByName (hg : g.Sound) {s : NodeSet}
    (hs : ∀ x ∈ s, (g.tree.node? x).isSome) :
    (g.sortedByName s.toList).Pairwise fun a b => g.name a < g.name b := by
  have hle : (g.sortedByName s.toList).Pairwise fun a b => g.name a ≤ g.name b := by
    have h : (g.sortedByName s.toList).Pairwise fun a b => decide (g.name a ≤ g.name b) = true :=
      List.pairwise_mergeSort (fun a b c => by simpa using String.le_trans)
        (fun a b => by simpa using String.le_total _ _) s.toList
    exact h.imp of_decide_eq_true
  have hnodup : (g.sortedByName s.toList).Nodup :=
    (List.mergeSort_perm _ _).nodup_iff.2 (s.sorted.imp Nat.ne_of_lt)
  have hmem : ∀ x ∈ g.sortedByName s.toList, (g.tree.node? x).isSome :=
    fun x hx => hs x (mem_sortedByName.1 hx)
  refine (hle.and hnodup).imp_of_mem fun {a b} ha hb h => ?_
  exact Std.lt_of_le_of_ne h.1 fun he => h.2 (hg.name_inj (hmem a ha) (hmem b hb) he)

end Graph

namespace Automaton

open AttackDefense.Graph

variable {m : Automaton}

/-- What is known of the configuration of a state. -/
theorem Unfolds.grounded (hg : g.Sound) (h : m.Unfolds g) {i : StateId} {s : State}
    (hs : m.state? i = some s) : g.Grounded s.configuration :=
  ((h.states i s hs).2.regular hg).grounded

/-! ## Canonical configurations -/

/-- **States are canonical.**  For every state of an automaton and its configuration `c`: `c` is its
own canonical form; what is underway are attacks below the root, and what is completed are attacks
and subgoals below the root; nothing is both; no completed checkpoint stands above any of it; every
completed subgoal that is no checkpoint is supported by its completed children; the key lists both in
the strict order of names; and the other fields of the state are what they are called. -/
theorem states_are_canonical (hg : g.Built) {maxStates : Nat} (h : build g maxStates = .ok m)
    {i : StateId} {s : State} (hs : m.state? i = some s) :
    g.normalize s.configuration = s.configuration ∧
    (∀ a ∈ s.configuration.activated, g.Reachable a ∧ g.tree.isAttack a) ∧
    (∀ x ∈ s.configuration.completed,
      g.Reachable x ∧ (g.tree.isAttack x ∨ g.tree.isSubgoal x)) ∧
    (∀ a ∈ s.configuration.activated, a ∉ s.configuration.completed) ∧
    (∀ x, x ∈ s.configuration.activated ∨ x ∈ s.configuration.completed →
      ∀ q ∈ g.tree.ancestors x, q ∈ s.configuration.completed → ¬ g.isCheckpoint q) ∧
    (∀ x ∈ s.configuration.completed, g.tree.isSubgoal x → ¬ g.isCheckpoint x →
      g.Supported (· ∈ s.configuration.completed) x) ∧
    s.key.activated.Pairwise (fun a b => g.name a < g.name b) ∧
    s.key.completed.Pairwise (fun a b => g.name a < g.name b) ∧
    s.activeDefenses = g.activeDefenses s.configuration ∧
    (s.accepting ↔ s.phase = .deciding ∧ g.root ∈ s.configuration.completed) ∧
    (s.initial ↔ s.phase = .deciding ∧ s.configuration = .empty) := by
  have hg := hg.sound
  have hm := unfolds_of_build hg h
  have hstate := (hm.states i s hs).1
  have hgrounded := hm.grounded hg hs
  have hcanonical := hstate.canonical
  have heq := hstate.eq_stateOf
  have hactivated : ∀ a ∈ s.configuration.activated, g.Reachable a ∧ g.tree.isAttack a :=
    fun a ha => hg.mem_attacks.1 (hgrounded.activated a ha)
  have hcompleted : ∀ x ∈ s.configuration.completed,
      g.Reachable x ∧ (g.tree.isAttack x ∨ g.tree.isSubgoal x) := by
    intro x hx
    rcases hgrounded.completed x hx with hx | hx
    · exact (hg.mem_attacks.1 hx).imp_right .inl
    · exact (hg.mem_subgoals.1 hx).imp_right .inr
  refine ⟨hcanonical, hactivated, hcompleted, ?_, ?_, ?_, ?_, ?_, ?_, ?_, ?_⟩
  · intro a ha
    rw [← hcanonical] at ha ⊢
    exact hg.not_mem_completed ha
  · intro x hx q hq hmem hcheck
    exact hg.not_behind_of_mem_nodes hcanonical (mem_nodes.2 hx) ⟨q, hq, hmem, hcheck⟩
  · intro x hx hgoal
    exact hgrounded.supported x hx (hg.mem_subgoals.2 ⟨(hcompleted x hx).1, hgoal⟩)
  · rw [heq]
    exact hg.pairwise_sortedByName fun a ha => isSome_node? (.inl (hactivated a ha).2)
  · rw [heq]
    exact hg.pairwise_sortedByName fun x hx => isSome_node? (hcompleted x hx).2
  · exact congrArg State.activeDefenses heq
  · rw [congrArg State.accepting heq]
    simp [stateOf, isAccepting_iff]
  · rw [congrArg State.initial heq]
    simp [stateOf, Configuration.isEmpty_iff]

/-- The state of the small graph in which its goal is reached is an accepting one. -/
theorem states_are_canonical_vault : ∃ m i s, build vault 7 = .ok m ∧ m.state? i = some s ∧
    s.key = ⟨.deciding, [], [3]⟩ ∧ vault.normalize s.configuration = s.configuration ∧
    s.accepting := by
  obtain ⟨m, hm⟩ := exists_build_vault
  obtain ⟨i, s, hs, hkey⟩ :=
    (unfolds_of_build built_vault.sound hm).exists_state_iff.2 reachableKey_vault.2
  obtain ⟨hcanonical, _, _, _, _, _, _, _, _, haccepting, _⟩ :=
    states_are_canonical built_vault hm hs
  refine ⟨m, i, s, hm, hs, hkey, hcanonical, haccepting.2 ?_⟩
  rw [State.phase, State.configuration, hkey]
  decide

/-! ## Scope -/

/-- **Scope is sound.**  For every state of an automaton, a success of a defense out of scope would
change nothing, and a success of a defense in scope changes nothing exactly when no attack that it
protects has any progress and nothing at or below a reset subgoal that it protects has, which is to
say that all that brings it into scope are completed subgoals that are no reset subgoals. -/
theorem scope_is_sound (hg : g.Built) {maxStates : Nat} (h : build g maxStates = .ok m)
    {i : StateId} {s : State} (hs : m.state? i = some s) {d : NodeId} (hd : d ∈ g.defenses) :
    (d ∉ g.activeDefenses s.configuration →
      g.normalize (g.applyDefense d s.configuration) = s.configuration) ∧
    (d ∈ g.activeDefenses s.configuration →
      (g.normalize (g.applyDefense d s.configuration) = s.configuration ↔
        g.Untouched d s.configuration)) ∧
    (g.Untouched d s.configuration ↔ g.InScopeByGoals d s.configuration) := by
  have hg := hg.sound
  have hm := unfolds_of_build hg h
  have hiff := (hm.grounded hg hs).normalize_applyDefense_eq_iff hg (hm.states i s hs).1.canonical
    (d := d)
  exact ⟨fun hn => hiff.2 (hg.untouched_of_not_mem_activeDefenses hd hn), fun _ => hiff,
    (hm.grounded hg hs).untouched_iff hg⟩

/-- While the attack of the small graph is underway, its alarm is in scope and would take it back. -/
theorem scope_is_sound_vault : ∃ m i s, build vault 7 = .ok m ∧ m.state? i = some s ∧
    s.key = ⟨.waiting, [1], []⟩ ∧ 0 ∈ vault.activeDefenses s.configuration ∧
    vault.normalize (vault.applyDefense 0 s.configuration) ≠ s.configuration := by
  obtain ⟨m, hm⟩ := exists_build_vault
  obtain ⟨i, s, hs, hkey⟩ :=
    (unfolds_of_build built_vault.sound hm).exists_state_iff.2 reachableKey_vault.1
  have hconfiguration : s.configuration = ⟨.ofList [1], .ofList []⟩ := by
    rw [State.configuration, hkey]
    rfl
  have hactive : 0 ∈ vault.activeDefenses s.configuration := by
    rw [hconfiguration]
    decide +kernel
  refine ⟨m, i, s, hm, hs, hkey, hactive, fun h => ?_⟩
  have huntouched := ((scope_is_sound built_vault hm hs (d := 0) (by decide)).2.1 hactive).1 h
  -- the alarm protects the reset subgoal 2, and the attack 1 is underway below it
  have howner : 2 ∈ vault.owners 0 := by
    rw [owners_vault]
    decide
  have hbelow : vault.tree.Below 2 1 := .child (by decide) (.refl 1)
  apply (huntouched 2 howner).2 (by decide) 1 hbelow
  rw [hconfiguration]
  decide

/-! ## Resets -/

/-- **Effect of a defense.**  For every state of an automaton, its configuration `c` and every
defense, a success of it leaves underway what was underway and is not wiped, and completed the least
set that holds the completed attacks and checkpoints that are not wiped and every subgoal that its
children complete.  So nothing changes at a node that is neither wiped nor above an owner of the
defense, and no progress is left at or below a reset subgoal that it protects. -/
theorem defense_effect_is_exact (hg : g.Built) {maxStates : Nat} (h : build g maxStates = .ok m)
    {i : StateId} {s : State} (hs : m.state? i = some s) (d : NodeId) :
    let c := s.configuration
    let after := g.normalize (g.applyDefense d c)
    after.activated = c.activated.filter (· ∉ g.wiped d) ∧
    g.IsLeastClosed (fun x => x ∈ c.completed ∧ (g.tree.isAttack x ∨ g.isCheckpoint x) ∧
      x ∉ g.wiped d) after.completed ∧
    (∀ x, x ∉ g.wiped d → (∀ o ∈ g.owners d, x ∉ g.tree.ancestors o) →
      (x ∈ after.activated ↔ x ∈ c.activated) ∧ (x ∈ after.completed ↔ x ∈ c.completed)) ∧
    (∀ o ∈ g.owners d, g.tree.isReset o → ∀ x ∈ g.tree.depthFirst o, x ∉ after.nodes) := by
  intro c after
  have hg := hg.sound
  have hm := unfolds_of_build hg h
  have hgrounded : g.Grounded c := hm.grounded hg hs
  have hc : g.normalize c = c := (hm.states i s hs).1.canonical
  have hactivated : after.activated = _ := hgrounded.activated_effect hg hc d
  have hcompleted : after.completed = _ := hgrounded.completed_effect hg hc d
  have hleast := hg.isLeastClosed_propagate ((g.firm c).filter (· ∉ g.wiped d))
  simp only [mem_firm_filter] at hleast
  refine ⟨hactivated, hcompleted ▸ hleast, fun x hw ho => ⟨?_, ?_⟩, fun o ho hr x hx => ?_⟩
  · rw [hactivated, NodeSet.mem_filter]
    simp [hw]
  · rw [hcompleted]
    constructor
    · rw [← hgrounded.propagate_applyDefense_eq_firm hg hc]
      exact propagate_applyDefense_subset hg hc
    · exact fun hx => hgrounded.mem_propagate_of_apart hg hx ⟨hw, ho⟩
  · have hbelow : ∀ y, g.tree.Below o y → y ∈ g.wiped d := fun y hy =>
      mem_wiped.2 ⟨o, ho, .inr ⟨hr, hy⟩⟩
    have hbelow' := mem_depthFirst.1 hx
    rw [mem_nodes, hactivated, hcompleted]
    rintro (hx | hx)
    · exact of_decide_eq_true (NodeSet.mem_filter.1 hx).2 (hbelow x hbelow')
    · refine hg.not_mem_propagate_of_below (fun y hy hb => ?_) x hx hbelow'
      exact (mem_firm_filter.1 hy).2.2 (hbelow y hb)

/-- The alarm of the small graph takes back the attack that is underway. -/
theorem defense_effect_is_exact_vault : ∃ m i s, build vault 7 = .ok m ∧ m.state? i = some s ∧
    s.configuration = ⟨.ofList [1], .empty⟩ ∧ 2 ∈ vault.owners 0 ∧ vault.tree.isReset 2 ∧
    1 ∈ vault.tree.depthFirst 2 ∧
    1 ∉ (vault.normalize (vault.applyDefense 0 s.configuration)).nodes := by
  obtain ⟨m, hm⟩ := exists_build_vault
  obtain ⟨i, s, hs, hkey⟩ :=
    (unfolds_of_build built_vault.sound hm).exists_state_iff.2 reachableKey_vault.1
  have hconfiguration : s.configuration = ⟨.ofList [1], .empty⟩ := by
    rw [State.configuration, hkey]
    rfl
  have howner : 2 ∈ vault.owners 0 := by
    rw [owners_vault]
    decide
  have hreset : vault.tree.isReset 2 := by decide
  have hwalk : 1 ∈ vault.tree.depthFirst 2 := mem_depthFirst.2 (.child (by decide) (.refl 1))
  obtain ⟨_, _, _, hgone⟩ := defense_effect_is_exact built_vault hm hs 0
  exact ⟨m, i, s, hm, hs, hconfiguration, howner, hreset, hwalk, hgone 2 howner hreset 1 hwalk⟩

end Automaton

end AttackDefense
