import AttackDefense.Proofs.Automaton.Twins
import AttackDefense.Proofs.Text.Identifiers

/-!
# Names of states

The name of a state shows its phase, the node that the phase is about, and the lists of nodes that
are activated and completed.  Names of nodes are identifiers of any length, and may be words that a
name of a state has anyway.  So the brackets tell the parts apart: no identifier has one, and a text
is cut in one way at the first bracket of a kind (`append_cons_inj`).  The identifiers of each part
are the names in it, and a name belongs to one node:

    (g.keyName k).toList = (g.phaseName k.phase).toList ++ '(' :: …               (toList_keyName)
    identifiers (g.listText ids) = ids.map g.name                            (identifiers_listText)
    g.keyName k = g.keyName k' ↔ k = k'                                    (Sound.keyName_inj)

Keys of their own tell phases and canonical configurations apart (`keyOf_inj`).
-/

namespace AttackDefense

open AttackDefense.Tree

/-! ## Texts without a character -/

theorem not_mem_intercalate {c : Char} {sep : String} (hsep : c ∉ sep.toList) {texts : List String}
    (h : ∀ text ∈ texts, c ∉ text.toList) : c ∉ (sep.intercalate texts).toList := by
  induction texts with
  | nil => simp
  | cons s texts ih =>
    rw [List.forall_mem_cons] at h
    cases texts with
    | nil => simpa using h.1
    | cons t texts =>
      rw [String.intercalate_cons_cons, String.toList_append, String.toList_append]
      simp only [List.mem_append, not_or]
      exact ⟨⟨h.1, hsep⟩, ih h.2⟩

theorem not_mem_of_isIdentifier {name : String} (h : isIdentifier name) {c : Char}
    (hc : ¬ isWordChar c) : c ∉ name.toList :=
  fun hmem => hc ((isIdentifier_iff.1 h).2 c hmem)

namespace Graph

variable {g : Graph} {k k' : StateKey} {ids ids' : List NodeId}

/-! ## Parts of a name -/

/-- The nodes that a key is about. -/
def nodesOf (k : StateKey) : List NodeId := k.phase.node?.toList ++ k.activated ++ k.completed

/-- How a phase is shown. -/
def phaseName (g : Graph) (phase : Phase) : String :=
  phase.tag ++ match phase.node? with
    | some id => "[" ++ g.name id ++ "]"
    | none => ""

/-- How nodes are listed. -/
def listText (g : Graph) (ids : List NodeId) : String := ", ".intercalate (ids.map g.name)

theorem toList_keyName (k : StateKey) : (g.keyName k).toList = (g.phaseName k.phase).toList ++
    '(' :: (("activated: [" ++ g.listText k.activated).toList ++
      ']' :: (", completed: [" ++ g.listText k.completed ++ "])").toList) := by
  unfold keyName phaseName listText
  cases k.phase.node? <;> simp

theorem isIdentifier_tag (phase : Phase) : isIdentifier phase.tag := by
  have htags : ∀ tag ∈ ["Attacker", "ActivationCost", "NoActivation", "Completion", "Defense"],
      isIdentifier tag := by decide
  exact htags _ (by cases phase <;> simp [Phase.tag])

/-- Phases with one tag differ in the node that they are about. -/
theorem phase_eq {phase phase' : Phase} (htag : phase.tag = phase'.tag)
    (hnode : phase.node? = phase'.node?) : phase = phase' := by
  cases phase <;> cases phase' <;> simp_all [Phase.tag, Phase.node?]

/-! ## Names of nodes -/

theorem Sound.isIdentifier_name (hg : g.Sound) {x : NodeId} (hx : (g.tree.node? x).isSome) :
    isIdentifier (g.name x) := by
  obtain ⟨node, hnode⟩ := Option.isSome_iff_exists.1 hx
  have hname : g.name x = node.name := by simp [name, Tree.name, hnode]
  rw [hname]
  exact hg.tree.identifier x node hnode

section

variable (hg : g.Sound)

include hg

/-- Names tell lists of nodes apart. -/
theorem map_name_inj (hids : ∀ x ∈ ids, (g.tree.node? x).isSome)
    (hids' : ∀ x ∈ ids', (g.tree.node? x).isSome) (h : ids.map g.name = ids'.map g.name) :
    ids = ids' := by
  have hfind : ∀ {l : List NodeId}, (∀ x ∈ l, (g.tree.node? x).isSome) →
      (l.map g.name).map g.tree.find? = l.map some := by
    intro l hl
    rw [List.map_map]
    exact List.map_congr_left fun x hx => hg.find?_name (hl x hx)
  have hsome : ids.map some = ids'.map some := by rw [← hfind hids, ← hfind hids', h]
  exact List.map_injective_iff.2 (Option.some_injective _) hsome

theorem identifiers_listText (hids : ∀ x ∈ ids, (g.tree.node? x).isSome) :
    identifiers (g.listText ids) = ids.map g.name := by
  rw [listText, identifiers_intercalate (by decide), List.flatMap_map]
  induction ids with
  | nil => rfl
  | cons x ids ih =>
    rw [List.forall_mem_cons] at hids
    rw [List.flatMap_cons, identifiers_of_isIdentifier (hg.isIdentifier_name hids.1), ih hids.2]
    rfl

theorem not_mem_listText (hids : ∀ x ∈ ids, (g.tree.node? x).isSome) {c : Char}
    (hc : ¬ isWordChar c) (hsep : c ∉ ", ".toList) : c ∉ (g.listText ids).toList := by
  refine not_mem_intercalate hsep fun text htext => ?_
  obtain ⟨x, hx, rfl⟩ := List.mem_map.1 htext
  exact not_mem_of_isIdentifier (hg.isIdentifier_name (hids x hx)) hc

theorem listText_inj (hids : ∀ x ∈ ids, (g.tree.node? x).isSome)
    (hids' : ∀ x ∈ ids', (g.tree.node? x).isSome) (h : g.listText ids = g.listText ids') :
    ids = ids' := by
  apply map_name_inj hg hids hids'
  rw [← identifiers_listText hg hids, ← identifiers_listText hg hids', h]

theorem identifiers_phaseName {phase : Phase} (h : ∀ x ∈ phase.node?, (g.tree.node? x).isSome) :
    identifiers (g.phaseName phase) = phase.tag :: phase.node?.toList.map g.name := by
  have htag := identifiers_of_isIdentifier (isIdentifier_tag phase)
  unfold phaseName
  cases hnode : phase.node? with
  | none => simpa using htag
  | some x =>
    have hname := identifiers_of_isIdentifier (hg.isIdentifier_name (h x hnode))
    have hclose : identifiers (g.name x ++ "]" ++ "") = identifiers (g.name x) ++ identifiers "" :=
      identifiers_append (by decide) _ _
    rw [String.append_empty, identifiers_empty, List.append_nil] at hclose
    have hcut : phase.tag ++ ("[" ++ g.name x ++ "]") = phase.tag ++ "[" ++ (g.name x ++ "]") := by
      simp only [String.append_assoc]
    dsimp only
    rw [hcut, identifiers_append (by decide), hclose, htag, hname]
    rfl

theorem not_mem_phaseName {phase : Phase} (h : ∀ x ∈ phase.node?, (g.tree.node? x).isSome) :
    '(' ∉ (g.phaseName phase).toList := by
  have htag := not_mem_of_isIdentifier (isIdentifier_tag phase) (c := '(') (by decide)
  unfold phaseName
  cases hnode : phase.node? with
  | none => simpa using htag
  | some x =>
    have hname := not_mem_of_isIdentifier (hg.isIdentifier_name (h x hnode)) (c := '(') (by decide)
    simpa [not_or] using ⟨htag, hname⟩

theorem phaseName_inj {phase phase' : Phase} (h : ∀ x ∈ phase.node?, (g.tree.node? x).isSome)
    (h' : ∀ x ∈ phase'.node?, (g.tree.node? x).isSome)
    (hname : g.phaseName phase = g.phaseName phase') : phase = phase' := by
  have hwords := congrArg identifiers hname
  rw [identifiers_phaseName hg h, identifiers_phaseName hg h', List.cons.injEq] at hwords
  have hnodes := map_name_inj hg (fun x hx => h x (Option.mem_toList.1 hx))
    (fun x hx => h' x (Option.mem_toList.1 hx)) hwords.2
  exact phase_eq hwords.1 (by simpa using congrArg List.head? hnodes)

/-- **Names.**  Keys about nodes of the tree have different names. -/
theorem Sound.keyName_inj (hk : ∀ x ∈ nodesOf k, (g.tree.node? x).isSome)
    (hk' : ∀ x ∈ nodesOf k', (g.tree.node? x).isSome) : g.keyName k = g.keyName k' ↔ k = k' := by
  refine ⟨fun h => ?_, fun h => h ▸ rfl⟩
  simp only [nodesOf, List.forall_mem_append, Option.mem_toList] at hk hk'
  have hbracket : ∀ {ids}, (∀ x ∈ ids, (g.tree.node? x).isSome) →
      ']' ∉ ("activated: [" ++ g.listText ids).toList := by
    intro ids hids
    rw [String.toList_append, List.mem_append, not_or]
    exact ⟨by decide, not_mem_listText hg hids (by decide) (by decide)⟩
  have hlist := congrArg String.toList h
  rw [toList_keyName, toList_keyName,
    append_cons_inj (not_mem_phaseName hg hk.1.1) (not_mem_phaseName hg hk'.1.1),
    append_cons_inj (hbracket hk.1.2) (hbracket hk'.1.2)] at hlist
  simp only [String.toList_inj] at hlist
  obtain ⟨hphase, hactivated, hcompleted⟩ := hlist
  rw [String.append_right_inj] at hactivated
  rw [String.append_left_inj, String.append_right_inj] at hcompleted
  cases k
  cases k'
  rw [StateKey.mk.injEq]
  exact ⟨phaseName_inj hg hk.1.1 hk'.1.1 hphase, listText_inj hg hk.1.2 hk'.1.2 hactivated,
    listText_inj hg hk.2 hk'.2 hcompleted⟩

end

theorem Sound.member_of_involves (hg : g.Sound) {phase : Phase} (h : g.Involves phase) :
    ∀ x ∈ phase.node?, g.Member x := by
  cases phase with
  | paying a | attempting a =>
    rintro _ ⟨⟩
    exact .inl (hg.mem_attacks.1 h).1
  | resetting d =>
    rintro _ ⟨⟩
    exact .inr h
  | deciding | waiting => simp [Phase.node?]

/-- A reachable key is about nodes of the tree. -/
theorem ReachableKey.isSome_node? (hg : g.Sound) (hk : g.ReachableKey k) :
    ∀ x ∈ nodesOf k, (g.tree.node? x).isSome := by
  have hregular := hk.regular hg
  simp only [nodesOf, List.forall_mem_append, Option.mem_toList]
  refine ⟨⟨fun x hx => ?_, fun x hx => ?_⟩, fun x hx => ?_⟩
  · exact hg.isSome_of_member (hg.member_of_involves hregular.involves x hx)
  · have hattack := hg.mem_attacks.1 (hregular.grounded.activated x (NodeSet.mem_ofList.2 hx))
    exact Graph.isSome_node? (.inl hattack.2)
  · rcases hregular.grounded.completed x (NodeSet.mem_ofList.2 hx) with h | h
    · exact Graph.isSome_node? (.inl (hg.mem_attacks.1 h).2)
    · exact Graph.isSome_node? (.inr (hg.mem_subgoals.1 h).2)

end Graph

namespace Automaton

open AttackDefense.Graph

variable {g : Graph} {m : Automaton}

theorem Unfolds.stateName?_inj (hg : g.Sound) (h : m.Unfolds g) {i j : StateId} {name : String}
    (hi : m.stateName? i = some name) (hj : m.stateName? j = some name) : i = j := by
  obtain ⟨s, hs, hsname⟩ := Option.map_eq_some_iff.1 hi
  obtain ⟨u, hu, huname⟩ := Option.map_eq_some_iff.1 hj
  rw [h.graph] at hsname huname
  have hkey := (hg.keyName_inj ((h.states i s hs).2.isSome_node? hg)
    ((h.states j u hu).2.isSome_node? hg)).1 (hsname.trans huname.symm)
  exact h.indexed.key_inj hs hu hkey

/-- **States and their names.**  A state that is made has its phase and the canonical form of its
configuration, and two of them have one key just if they agree in both.  In an automaton each state
has a name, and different states have different names. -/
theorem names_identify_states (hg : g.Built) :
    (∀ phase phase' c c' s s', g.makeState phase c = .ok s → g.makeState phase' c' = .ok s' →
      (s.key = s'.key ↔ phase = phase' ∧ g.normalize c = g.normalize c')) ∧
    (∀ phase c s, g.makeState phase c = .ok s →
      s.phase = phase ∧ s.configuration = g.normalize c) ∧
    ∀ maxStates m, build g maxStates = .ok m →
      (∀ i < m.size, ∃ name, m.stateName? i = some name) ∧
      ∀ i j name, m.stateName? i = some name → m.stateName? j = some name → i = j := by
  refine ⟨?_, ?_, ?_⟩
  · intro phase phase' c c' s s' hs hs'
    obtain ⟨_, rfl⟩ := (makeState_eq_ok hg.sound).1 hs
    obtain ⟨_, rfl⟩ := (makeState_eq_ok hg.sound).1 hs'
    exact keyOf_inj
  · intro phase c s hs
    obtain ⟨_, rfl⟩ := (makeState_eq_ok hg.sound).1 hs
    exact ⟨rfl, configuration_stateOf phase _⟩
  · intro maxStates m hm
    refine ⟨fun i hi => ?_, fun i j name hi hj =>
      (unfolds_of_build hg.sound hm).stateName?_inj hg.sound hi hj⟩
    have hs : m.state? i = some m.table.states[i] := Array.getElem?_eq_getElem hi
    exact ⟨m.graph.keyName m.table.states[i].key, by rw [stateName?, hs]; rfl⟩

/-- The small graph: it makes a difference whether the attacker decides or waits. -/
theorem names_identify_states_vault : ∃ m s s', build vault 7 = .ok m ∧
    vault.makeState .deciding .empty = .ok s ∧ vault.makeState .waiting .empty = .ok s' ∧
    s.key ≠ s'.key ∧ s.configuration = .empty ∧ s'.configuration = .empty ∧
    (∀ i < m.size, ∃ name, m.stateName? i = some name) ∧
    ∀ i j name, m.stateName? i = some name → m.stateName? j = some name → i = j := by
  obtain ⟨m, hm⟩ := exists_build_vault
  obtain ⟨s, hs⟩ : ∃ s, vault.makeState .deciding .empty = .ok s :=
    ⟨_, (makeState_eq_ok built_vault.sound).2 ⟨trivial, rfl⟩⟩
  obtain ⟨s', hs'⟩ : ∃ s', vault.makeState .waiting .empty = .ok s' :=
    ⟨_, (makeState_eq_ok built_vault.sound).2 ⟨trivial, rfl⟩⟩
  have hempty := built_vault.sound.normalize_empty
  obtain ⟨hkeys, hstates, hnames⟩ := names_identify_states built_vault
  refine ⟨m, s, s', hm, hs, hs', fun h => ?_, (hstates _ _ _ hs).2.trans hempty,
    (hstates _ _ _ hs').2.trans hempty, hnames 7 m hm⟩
  cases ((hkeys _ _ _ _ _ _ hs hs').1 h).1

end Automaton

end AttackDefense
