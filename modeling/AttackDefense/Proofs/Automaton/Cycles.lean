import AttackDefense.Proofs.Automaton.Incidence
import AttackDefense.Proofs.Automaton.Permanence

/-!
# No cycle without waiting

`eagerness` is a number that grows along every move between two phases other than waiting:

    g.Regular p.1 p.2 → g.Next p q → p.1 ≠ .waiting → q.1 ≠ .waiting →
      eagerness p.1 p.2 < eagerness q.1 q.2                         (Regular.eagerness_lt)

An available attack that is started stays underway in the canonical form, so the attacker who starts
attacks gets more and more underway, and paying comes before starting.  A branch point is only
entered from waiting, so it may count least.  Along a walk that does not wait the number keeps
growing (`Unfolds.eagerness_lt_of_walk`); hence the walk is no cycle (`cycle_waits`).
-/

namespace AttackDefense

variable {g : Graph} {c : Configuration} {a : NodeId}

namespace NodeSet

theorem length_insertSorted {id : NodeId} {l : List NodeId} (h : id ∉ l) :
    (insertSorted id l).length = l.length + 1 := by
  induction l with
  | nil => rfl
  | cons b rest ih =>
    rw [List.mem_cons, not_or] at h
    unfold insertSorted
    split
    · rfl
    · rw [if_neg h.1, List.length_cons, ih h.2, List.length_cons]

/-- A new member makes a set larger by one. -/
theorem length_insert {s : NodeSet} {id : NodeId} (h : id ∉ s) :
    (s.insert id).toList.length = s.toList.length + 1 :=
  length_insertSorted h

end NodeSet

namespace Graph

/-! ## A number that grows -/

/-- How far the attacker has come since the last wait: twice the attacks underway, and one more for
an attack that is paid for. -/
def eagerness (phase : Phase) (c : Configuration) : Nat :=
  match phase with
  | .attempting _ | .resetting _ | .waiting => 0
  | .deciding => 2 * c.activated.toList.length + 1
  | .paying _ => 2 * c.activated.toList.length + 2

theorem eagerness_deciding (c : Configuration) :
    eagerness .deciding c = 2 * c.activated.toList.length + 1 := rfl

theorem eagerness_paying (a : NodeId) (c : Configuration) :
    eagerness (.paying a) c = 2 * c.activated.toList.length + 2 := rfl

theorem eagerness_deciding_pos (c : Configuration) : 0 < eagerness .deciding c := Nat.succ_pos _

/-- Starting an attack counts more than deciding about it, or paying for it. -/
theorem Sound.eagerness_activate (hg : g.Sound) (hc : g.normalize c = c)
    (ha : g.isAvailable c a) : eagerness .deciding (g.normalize (c.activate a)) =
      2 * c.activated.toList.length + 3 := by
  have hnew : a ∉ c.activated := (isAvailable_iff.1 ha).1
  rw [eagerness_deciding, hg.activated_normalize_activate hc ha, NodeSet.length_insert hnew]
  omega

/-- **Step.**  A move that neither leaves a wait nor leads to one makes the attacker more eager. -/
theorem Regular.eagerness_lt (hg : g.Sound) {p q : Phase × Configuration}
    (h : g.Regular p.1 p.2) (hnext : g.Next p q) (hp : p.1 ≠ .waiting) (hq : q.1 ≠ .waiting) :
    eagerness p.1 p.2 < eagerness q.1 q.2 := by
  obtain ⟨phase, c⟩ := p
  obtain ⟨phase', c'⟩ := q
  obtain ⟨m, d, hmem, rfl⟩ := hnext
  have hc : g.normalize c = c := h.canonical
  dsimp only at hmem hp hq ⊢
  cases step_of_mem_moves hmem with
  | pay _ =>
    rw [hc, eagerness_deciding, eagerness_paying]
    omega
  | start ha =>
    rw [hg.eagerness_activate hc (List.mem_filter.1 ha).2, eagerness_deciding]
    omega
  | paid _ a =>
    rw [hg.eagerness_activate hc h.admits, eagerness_paying]
    omega
  | wait => exact absurd rfl hq
  | attempt _ _ => exact absurd rfl hp
  | finish _ _ => exact absurd rfl hp
  | strike _ => exact absurd rfl hp
  | reset _ => exact absurd rfl hp
  | succeed _ a => exact eagerness_deciding_pos _
  | fail _ a => exact eagerness_deciding_pos _
  | defended _ d => exact eagerness_deciding_pos _
  | spared _ d => exact eagerness_deciding_pos _

end Graph

namespace Automaton

open AttackDefense.Graph Relation

variable {m : Automaton} {i j : StateId}

/-! ## Walks -/

/-- The edges lead from one state to another, one behind the other. -/
def Walk (m : Automaton) : StateId → List Edge → StateId → Prop
  | i, [], j => i = j
  | i, e :: rest, j => e ∈ m.edges.toList ∧ e.source = i ∧ m.Walk e.destination rest j

/-- The attacker waits in one of the states that the edges leave. -/
def Waits (m : Automaton) (es : List Edge) : Prop :=
  ∃ e ∈ es, ∃ s, m.state? e.source = some s ∧ s.phase = .waiting

theorem Waits.of_tail {e : Edge} {es : List Edge} (h : m.Waits es) : m.Waits (e :: es) := by
  obtain ⟨e', he', hwait⟩ := h
  exact ⟨e', List.mem_cons_of_mem e he', hwait⟩

/-- An edge that neither leaves a wait nor leads to one makes the attacker more eager. -/
theorem Unfolds.eagerness_lt_of_edge (hg : g.Sound) (h : m.Unfolds g) {e : Edge}
    (he : e ∈ m.edges.toList) {s u : State} (hs : m.state? e.source = some s)
    (hu : m.state? e.destination = some u) (hstart : s.phase ≠ .waiting)
    (hend : u.phase ≠ .waiting) :
    eagerness s.phase s.configuration < eagerness u.phase u.configuration := by
  obtain ⟨_, _, hrow⟩ := h.mem_edges_iff.1 he
  obtain ⟨v, hv, hmove⟩ := h.next_of_adjacent hs ⟨e, hrow, rfl⟩
  obtain rfl := Option.some.inj (hv.symm.trans hu)
  have hnext := hmove.resolve_left fun hback => hstart hback.2
  exact ((h.states _ s hs).2.regular hg).eagerness_lt hg hnext hstart hend

/-- **Run.**  Along a walk that does not pass through a wait the attacker becomes more eager, by
induction on the walk. -/
theorem Unfolds.eagerness_lt_of_walk (hg : g.Sound) (h : m.Unfolds g) {es : List Edge}
    (hes : es ≠ []) (hwalk : m.Walk i es j) (hwaits : ¬ m.Waits es) {s u : State}
    (hs : m.state? i = some s) (hu : m.state? j = some u) (hend : u.phase ≠ .waiting) :
    eagerness s.phase s.configuration < eagerness u.phase u.configuration := by
  induction es generalizing i s with
  | nil => exact absurd rfl hes
  | cons e rest ih =>
    obtain ⟨he, rfl, hrest⟩ := hwalk
    have hstart : s.phase ≠ .waiting := fun hphase =>
      hwaits ⟨e, List.mem_cons_self, s, hs, hphase⟩
    cases rest with
    | nil =>
      obtain rfl : e.destination = j := hrest
      exact h.eagerness_lt_of_edge hg he hs hu hstart hend
    | cons e' rest =>
      obtain ⟨_, v, _, _, hv, _, _⟩ := h.exists_move he
      have hstep : v.phase ≠ .waiting := fun hphase =>
        hwaits ⟨e', by simp, v, hrest.2.1 ▸ hv, hphase⟩
      calc eagerness s.phase s.configuration
        _ < eagerness v.phase v.configuration := h.eagerness_lt_of_edge hg he hs hv hstart hstep
        _ < eagerness u.phase u.configuration :=
          ih (List.cons_ne_nil _ _) hrest (fun hw => hwaits hw.of_tail) hv

/-- **No cycle without waiting.**  Every walk of edges that leads from a state back to it passes
through a state in which the attacker waits. -/
theorem cycle_waits (hg : g.Built) {maxStates : Nat} (h : build g maxStates = .ok m)
    {es : List Edge} (hes : es ≠ []) (hcycle : m.Walk i es i) :
    ∃ e ∈ es, ∃ s, m.state? e.source = some s ∧ s.phase = .waiting := by
  have hg := hg.sound
  have hm := unfolds_of_build hg h
  obtain ⟨e, rest, rfl⟩ := List.exists_cons_of_ne_nil hes
  obtain ⟨he, rfl, _⟩ := id hcycle
  obtain ⟨s, _, _, hs, _⟩ := hm.exists_move he
  by_contra hwaits
  have hstart : s.phase ≠ .waiting := fun hphase =>
    hwaits ⟨e, List.mem_cons_self, s, hs, hphase⟩
  exact Nat.lt_irrefl _ (hm.eagerness_lt_of_walk hg hes hcycle hwaits hs hs hstart)

/-- A path of edges, with the edges listed. -/
theorem Unfolds.exists_walk (h : m.Unfolds g) {s : State} (hs : m.state? i = some s)
    (hpath : TransGen m.Adjacent i j) : ∃ es, es ≠ [] ∧ m.Walk i es j := by
  have hedge : ∀ {i k s}, m.state? i = some s → m.Adjacent i k →
      ∃ e ∈ m.edges.toList, e.source = i ∧ e.destination = k := by
    rintro i k s hs ⟨e, he, rfl⟩
    have hsource := h.source_eq hs he
    exact ⟨e, h.mem_edges_iff.2 ⟨s, hsource ▸ hs, hsource ▸ he⟩, hsource, rfl⟩
  induction hpath using TransGen.head_induction_on generalizing s with
  | single hstep =>
    obtain ⟨e, he, hsource, rfl⟩ := hedge hs hstep
    exact ⟨[e], by simp, he, hsource, rfl⟩
  | head hstep _ ih =>
    obtain ⟨u, hu, _⟩ := h.next_of_adjacent hs hstep
    obtain ⟨e, he, hsource, rfl⟩ := hedge hs hstep
    obtain ⟨es, _, hes⟩ := ih hu
    exact ⟨e :: es, by simp, he, hsource, hes⟩

/-- In the small graph the alarm may go off in vain, and then the attacker waits again. -/
theorem cycle_waits_vault : ∃ m i s es, build vault 7 = .ok m ∧ m.state? i = some s ∧
    s.key = ⟨.deciding, [1], []⟩ ∧ es ≠ [] ∧ m.Walk i es i ∧
    ∃ e ∈ es, ∃ s, m.state? e.source = some s ∧ s.phase = .waiting := by
  obtain ⟨m, hm⟩ := exists_build_vault
  have hunfolds := unfolds_of_build built_vault.sound hm
  obtain ⟨i, s, hs, hkey⟩ := hunfolds.exists_state_iff.2
    (reachableKey_of_mem_vaultKeys ⟨.deciding, [1], []⟩ (by decide))
  let c : Configuration := ⟨.ofList [1], .empty⟩
  have hstate : (s.phase, s.configuration) = (.deciding, c) := by
    rw [State.phase, State.configuration, hkey]
    rfl
  have hwait : vault.Next (s.phase, s.configuration) (.waiting, c) :=
    hstate ▸ ⟨.wait, c, by decide +kernel, by decide +kernel⟩
  have hstrike : vault.Next (.waiting, c) (.resetting 0, c) :=
    ⟨.strike 0, c, by decide +kernel, by decide +kernel⟩
  have hspared : vault.Next (.resetting 0, c) (.deciding, c) :=
    ⟨_, c, List.mem_cons_of_mem _ List.mem_cons_self, by decide +kernel⟩
  obtain ⟨j, u, hu, hwaiting, hij⟩ := hunfolds.exists_adjacent hs hwait
  have hreset : ReflTransGen vault.Next (u.phase, u.configuration) (.deciding, c) :=
    hwaiting ▸ (ReflTransGen.single hstrike).tail hspared
  obtain ⟨k, v, hv, hback, hjk⟩ := hunfolds.exists_path hu hreset
  obtain rfl : k = i := by
    apply hunfolds.indexed.key_inj hv hs
    rw [(hunfolds.states k v hv).2.eq_keyOf built_vault.sound,
      (hunfolds.states i s hs).2.eq_keyOf built_vault.sound]
    exact keyOf_inj.2 (Prod.ext_iff.1 (hback.trans hstate.symm))
  obtain ⟨es, hes, hcycle⟩ := hunfolds.exists_walk hs (TransGen.head' hij hjk)
  exact ⟨m, k, s, es, hm, hs, hkey, hes, hcycle, cycle_waits built_vault hm hes hcycle⟩

end Automaton

end AttackDefense
