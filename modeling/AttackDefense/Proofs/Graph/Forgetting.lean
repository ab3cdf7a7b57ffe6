import AttackDefense.Proofs.Graph.Resets

/-!
# Forgetting history is invisible

A configuration with its whole history and its canonical form move alike.  For a configuration `c`
whose completed nodes are propagated, and for every event `e` of the graph:

    g.normalize (e.apply g (g.normalize c)) = g.normalize (e.apply g c)   (Event.normalize_apply)

So a run that normalizes after every event ends in the canonical form of the run that keeps all
history and only propagates (`forgetting_is_invisible`).
-/

namespace AttackDefense.Graph

open AttackDefense.Tree

variable {g : Graph}

/-! ## Events -/

/-- What can happen to the progress of attacks. -/
inductive Event where
  | activate (attack : NodeId)
  | complete (attack : NodeId)
  | deactivate (attack : NodeId)
  | strike (defense : NodeId)
deriving DecidableEq, Repr

namespace Event

/-- The event is about an attack or a defense of the graph. -/
def Of (g : Graph) : Event → Prop
  | .activate a | .complete a | .deactivate a => a ∈ g.attacks
  | .strike d => d ∈ g.defenses

def apply (g : Graph) : Event → Configuration → Configuration
  | .activate a, c => c.activate a
  | .complete a, c => c.complete a
  | .deactivate a, c => c.deactivate a
  | .strike d, c => g.applyDefense d c

/-- The event, with nothing forgotten. -/
def propagated (g : Graph) (c : Configuration) (e : Event) : Configuration :=
  ⟨(e.apply g c).activated, g.propagate (e.apply g c).completed⟩

/-- The event, with the canonical form taken afterwards. -/
def normalized (g : Graph) (c : Configuration) (e : Event) : Configuration :=
  g.normalize (e.apply g c)

end Event

/-! ## One event -/

theorem Struck.congr {s u : NodeSet} (h : ∀ x, g.Behind s x ↔ g.Behind u x) {d o : NodeId} :
    g.Struck s d o ↔ g.Struck u d o := by
  rw [Struck, Struck, h]

/-- Which nodes are lost depends on what is history only. -/
theorem Lost.congr {s u : NodeSet} (h : ∀ x, g.Behind s x ↔ g.Behind u x) {d x : NodeId} :
    g.Lost s d x ↔ g.Lost u d x := by
  simp only [Lost, Erased, Retracted, Struck.congr h]

theorem Erased.congr {s u : NodeSet} (h : ∀ x, g.Behind s x ↔ g.Behind u x) {d x : NodeId} :
    g.Erased s d x ↔ g.Erased u d x := by
  simp only [Erased, Struck.congr h]

/-- An attack that is neither kept nor history after a change was neither before it, when the change
has lost neither the attack nor a checkpoint above it. -/
theorem not_kept_and_not_behind {s v : NodeSet} (lost : NodeId → Prop)
    (hsub : ∀ q ∈ s, ¬ lost q → q ∈ v) {a : NodeId} (ha : ¬ lost a)
    (habove : ∀ q ∈ g.tree.ancestors a, g.isCheckpoint q → ¬ lost q)
    (hk : ¬ g.Kept v a) (hb : ¬ g.Behind v a) : ¬ g.Kept s a ∧ ¬ g.Behind s a := by
  constructor
  · intro h
    exact hk ⟨hsub a h.1 ha, hb⟩
  · rintro ⟨q, hq, hqs, hc⟩
    exact hb ⟨q, hq, hsub q hqs (habove q hq hc), hc⟩

section

variable (hg : g.Sound) {c : Configuration} (hclosed : g.propagate c.completed = c.completed)

include hg hclosed

/-- An event that takes no completion back: history is not needed for what follows from it. -/
theorem normalize_eq_of_more {before after : Configuration} (more : NodeId → Prop)
    (hbefore : ∀ x, x ∈ before.completed ↔ x ∈ c.completed ∨ more x)
    (hafter : ∀ x, x ∈ after.completed ↔ x ∈ (g.normalize c).completed ∨ more x)
    (hactivated : ∀ a, (a ∈ c.activated ↔ a ∈ (g.normalize c).activated) →
      (a ∈ after.activated ↔ a ∈ before.activated)) :
    g.normalize after = g.normalize before := by
  have hkept : ∀ x, x ∈ (g.normalize c).completed ↔ g.Kept c.completed x := by
    intro x
    rw [mem_normalize_completed, hclosed]
  apply hg.normalize_congr
  · exact kept_propagate_iff hg (fun _ => False) more hkept (by simpa using hbefore)
      (by simpa using hafter) (by simp)
  · intro a hk hb
    apply hactivated
    have h := not_kept_and_not_behind (s := c.completed) (fun _ => False)
      (fun q hq _ => g.subset_propagate _ ((hbefore q).2 (.inl hq))) id (fun _ _ _ => id) hk hb
    rw [hg.mem_normalize_activated, hclosed]
    exact ⟨fun ha => ⟨ha, h⟩, fun ha => ha.1⟩

theorem normalize_applyDefense_normalize (hactivated : ∀ a ∈ c.activated, g.tree.isAttack a)
    (d : NodeId) :
    g.normalize (g.applyDefense d (g.normalize c)) = g.normalize (g.applyDefense d c) := by
  have hkept : ∀ x, x ∈ (g.normalize c).completed ↔ g.Kept c.completed x := by
    intro x
    rw [mem_normalize_completed, hclosed]
  have hbehind : ∀ x, g.Behind (g.normalize c).completed x ↔ g.Behind c.completed x := by
    intro x
    rw [hg.behind_normalize, hclosed]
  apply hg.normalize_congr
  · apply kept_propagate_iff hg (g.Lost c.completed d) (fun _ => False) hkept
    · intro x
      rw [mem_applyDefense_completed, or_false]
    · intro x
      rw [mem_applyDefense_completed, Lost.congr hbehind, or_false]
    · -- a lost checkpoint lies in a subtree that is struck as a whole
      intro q _ hc hl x hx
      obtain ⟨o, ho, hr, hoq⟩ := hg.reset_of_lost_checkpoint hc hl
      have hqx : g.tree.Below q x := by
        rcases hx with rfl | hx
        · exact .refl x
        · exact hg.tree.below_of_mem_ancestors hx
      exact hg.not_mem_propagate_applyDefense ho hr (hoq.trans hqx)
  · intro a hk hb
    rw [mem_applyDefense_activated, mem_applyDefense_activated, Erased.congr hbehind,
      hg.mem_normalize_activated, hclosed]
    constructor
    · rintro ⟨⟨ha, _⟩, he⟩
      exact ⟨ha, he⟩
    · rintro ⟨ha, he⟩
      refine ⟨⟨ha, ?_⟩, he⟩
      refine not_kept_and_not_behind (g.Lost c.completed d) (fun q hq hl => ?_) ?_ ?_ hk hb
      · exact g.subset_propagate _ (mem_applyDefense_completed.2 ⟨hq, hl⟩)
      · rintro (hl | hl)
        · exact he hl
        · exact not_isSubgoal_of_isAttack (hactivated a ha) (hl.isSubgoal hg)
      · intro q hq hc hl
        obtain ⟨o, ho, hr, hoq⟩ := hg.reset_of_lost_checkpoint hc hl
        exact he (erased_of_reset ho hr (hoq.trans (hg.tree.below_of_mem_ancestors hq)))

theorem normalize_complete_normalize (a : NodeId) :
    g.normalize ((g.normalize c).complete a) = g.normalize (c.complete a) := by
  apply normalize_eq_of_more hg hclosed (fun x => x = a)
  · simp [Configuration.complete, or_comm]
  · simp [Configuration.complete, or_comm]
  · exact fun b hb => hb.symm

/-- **One event.**  It leads to the same canonical form from a configuration and from the canonical
form of it. -/
theorem Event.normalize_apply (hactivated : ∀ a ∈ c.activated, g.tree.isAttack a) (e : Event) :
    g.normalize (e.apply g (g.normalize c)) = g.normalize (e.apply g c) := by
  cases e with
  | activate a =>
    apply normalize_eq_of_more hg hclosed (fun _ => False)
    · simp [Event.apply, Configuration.activate]
    · simp [Event.apply, Configuration.activate]
    · intro b hb
      simp [Event.apply, Configuration.activate, hb]
  | complete a => exact normalize_complete_normalize hg hclosed a
  | deactivate a =>
    apply normalize_eq_of_more hg hclosed (fun _ => False)
    · simp [Event.apply, Configuration.deactivate]
    · simp [Event.apply, Configuration.deactivate]
    · intro b hb
      simp [Event.apply, Configuration.deactivate, hb]
  | strike d => exact normalize_applyDefense_normalize hg hclosed hactivated d

theorem isAvailable_normalize (a : NodeId) :
    g.isAvailable (g.normalize c) a = g.isAvailable c a := by
  rw [Bool.eq_iff_iff, isAvailable_iff, isAvailable_iff, hg.mem_normalize_activated,
    mem_normalize_completed, hg.behind_normalize, hclosed]
  constructor
  · rintro ⟨hn, hk, hb⟩
    exact ⟨fun ha => hn ⟨ha, hk, hb⟩, fun ha => hk ⟨ha, hb⟩, hb⟩
  · rintro ⟨hn, hs, hb⟩
    exact ⟨fun ha => hn ha.1, fun hk => hs hk.1, hb⟩

theorem isAccepting_normalize : g.isAccepting (g.normalize c) = g.isAccepting c := by
  rw [Bool.eq_iff_iff, isAccepting_iff, isAccepting_iff, mem_normalize_completed, hclosed, Kept]
  exact and_iff_left (hg.not_behind_root _)

end

/-! ## Runs -/

theorem Event.isAttack_of_mem_apply (hg : g.Sound) {c : Configuration} {e : Event} (he : e.Of g)
    (hc : ∀ a ∈ c.activated, g.tree.isAttack a) :
    ∀ a ∈ (e.apply g c).activated, g.tree.isAttack a := by
  intro a ha
  cases e with
  | activate b =>
    rcases NodeSet.mem_insert.1 ha with rfl | ha
    · exact (hg.mem_attacks.1 he).2
    · exact hc a ha
  | complete b => exact hc a ha
  | deactivate b => exact hc a (NodeSet.mem_erase.1 ha).1
  | strike d => exact hc a (mem_applyDefense_activated.1 ha).1

/-- Propagating first changes no canonical form. -/
theorem normalize_propagated (hg : g.Sound) (c : Configuration) :
    g.normalize ⟨c.activated, g.propagate c.completed⟩ = g.normalize c := by
  apply hg.normalize_congr
  · intro x
    rw [hg.propagate_propagate]
  · exact fun _ _ _ => Iff.rfl

/-- The run that forgets follows the run that remembers. -/
theorem foldl_normalized (hg : g.Sound) (es : List Event) (hes : ∀ e ∈ es, e.Of g)
    {c : Configuration} (hclosed : g.propagate c.completed = c.completed)
    (hactivated : ∀ a ∈ c.activated, g.tree.isAttack a) :
    es.foldl (Event.normalized g) (g.normalize c) =
      g.normalize (es.foldl (Event.propagated g) c) := by
  induction es generalizing c with
  | nil => rfl
  | cons e es ih =>
    have hstep : Event.normalized g (g.normalize c) e = g.normalize (Event.propagated g c e) :=
      calc g.normalize (e.apply g (g.normalize c))
        _ = g.normalize (e.apply g c) := e.normalize_apply hg hclosed hactivated
        _ = g.normalize (Event.propagated g c e) := (normalize_propagated hg _).symm
    rw [List.foldl_cons, List.foldl_cons, hstep]
    apply ih fun e' he' => hes e' (List.mem_cons_of_mem _ he')
    · exact hg.propagate_propagate _
    · exact Event.isAttack_of_mem_apply hg (hes e List.mem_cons_self) hactivated

/-- **Forgetting history is invisible.**  From a configuration whose completed nodes are propagated
and from its canonical form, every event leads to the same canonical form, the same attacks are
available, and the same is accepted; and a run that normalizes after each event ends in the
canonical form of the run that only propagates. -/
theorem forgetting_is_invisible (hg : g.Built) (c : Configuration)
    (hclosed : g.propagate c.completed = c.completed)
    (hactivated : ∀ a ∈ c.activated, g.tree.isAttack a) :
    (∀ e : Event, e.Of g →
      g.normalize (e.apply g (g.normalize c)) = g.normalize (e.apply g c)) ∧
    (∀ a ∈ g.attacks, g.isAvailable (g.normalize c) a = g.isAvailable c a) ∧
    g.isAccepting (g.normalize c) = g.isAccepting c ∧
    (∀ es : List Event, (∀ e ∈ es, e.Of g) →
      es.foldl (Event.normalized g) (g.normalize c) =
        g.normalize (es.foldl (Event.propagated g) c)) := by
  have hg := hg.sound
  refine ⟨fun e _ => e.normalize_apply hg hclosed hactivated, fun a _ => ?_, ?_, fun es hes => ?_⟩
  · exact isAvailable_normalize hg hclosed a
  · exact isAccepting_normalize hg hclosed
  · exact foldl_normalized hg es hes hclosed hactivated

/-- The goal is reached and everything below it is history. -/
theorem forgetting_is_invisible_vault :
    vault.propagate (.ofList [1, 2, 3]) = .ofList [1, 2, 3] ∧
    vault.normalize ⟨.empty, .ofList [1, 2, 3]⟩ = ⟨.empty, .ofList [3]⟩ ∧
    (∀ e : Event, e.Of vault → vault.normalize (e.apply vault ⟨.empty, .ofList [3]⟩) =
      vault.normalize (e.apply vault ⟨.empty, .ofList [1, 2, 3]⟩)) := by
  have hclosed : vault.propagate (.ofList [1, 2, 3]) = .ofList [1, 2, 3] := by decide
  have hnormal : vault.normalize ⟨.empty, .ofList [1, 2, 3]⟩ = ⟨.empty, .ofList [3]⟩ := by
    decide +kernel
  have h := forgetting_is_invisible built_vault ⟨.empty, .ofList [1, 2, 3]⟩ hclosed (by simp)
  rw [hnormal] at h
  exact ⟨hclosed, hnormal, h.1⟩

end AttackDefense.Graph
