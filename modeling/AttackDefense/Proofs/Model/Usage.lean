import AttackDefense.Proofs.Automaton.Keys
import AttackDefense.Proofs.Graph.Followers
import AttackDefense.Proofs.Model.Document
import AttackDefense.Proofs.Model.Symbols

/-!
# Everything that is used is declared

The labels of a document show the invariants of locations and the labels of transitions
(`shown_of_label`).  Conditions are built from symbols, and the identifiers in their texts are the
texts of these symbols, as long as these are identifiers:

    identifiers i.text = i.symbols.map Symbol.text                          (identifiers_invariant)
    identifiers l.text = l.symbols.map Symbol.text                          (identifiers_label)

All of these symbols are declared.  The attacks that a state or a move is about are attacks of the
graph, a defense is followed by defenses of the graph only, and an activation cost is paid only where
there is one (`declares_invariant`, `declares_label`).
-/

namespace AttackDefense.Model

open AttackDefense.Graph Automaton Markup Element

/-! ## Symbols in conditions -/

def Guard.Atom.symbols : Guard.Atom → List Symbol
  | .due node | .notDue node => [.clock (.of node), .constant (.duration node)]
  | .paid => [.clock .payment]

def Invariant.Conjunct.symbols : Invariant.Conjunct → List Symbol
  | .stopped clock => [.clock clock]
  | .unpaid => [.clock .payment]
  | .costRate rates => .clock .cost :: rates.map .constant
  | .notPast node => [.clock (.of node), .constant (.duration node)]

def Invariant.symbols (i : Invariant) : List Symbol := i.conjuncts.flatMap Conjunct.symbols

def Label.symbols : Label → List Symbol
  | .assignment clock => [.clock clock]
  | .guard g => g.flatMap Guard.Atom.symbols
  | .probability _ => []

theorem identifiers_atom {atom : Guard.Atom}
    (h : ∀ s ∈ atom.symbols, Tree.isIdentifier s.text) :
    identifiers atom.text = atom.symbols.map Symbol.text := by
  cases atom with
  | due node | notDue node =>
    simp only [Guard.Atom.symbols, List.forall_mem_cons, Symbol.text] at h
    rw [Guard.Atom.text, identifiers_append (by decide), identifiers_of_isIdentifier h.1,
      identifiers_of_isIdentifier h.2.1]
    rfl
  | paid => decide

theorem identifiers_conjunct {conjunct : Invariant.Conjunct}
    (h : ∀ s ∈ conjunct.symbols, Tree.isIdentifier s.text) :
    identifiers conjunct.text = conjunct.symbols.map Symbol.text := by
  cases conjunct with
  | stopped clock =>
    simp only [Invariant.Conjunct.symbols, List.forall_mem_cons, Symbol.text] at h
    have htext : (Invariant.Conjunct.stopped clock).text = clock.text ++ "' == " ++ "0" := by
      rw [String.append_assoc]
      rfl
    rw [htext, identifiers_append (by decide), identifiers_of_isIdentifier h.1]
    rfl
  | unpaid => decide
  | costRate rates =>
    simp only [Invariant.Conjunct.symbols, List.forall_mem_cons, List.forall_mem_map,
      Symbol.text] at h
    have hrates : identifiers (if rates.isEmpty then "0" else
        " + ".intercalate (rates.map Constant.text)) = rates.map Constant.text := by
      split
      · next hempty =>
        rw [List.isEmpty_iff.1 hempty]
        decide
      · rw [identifiers_intercalate (by decide), List.flatMap_map,
          List.flatMap_congr fun c hc => identifiers_of_isIdentifier (h.2 c hc)]
        exact List.map_eq_flatMap.symm
    rw [Invariant.Conjunct.text, identifiers_append (by decide), identifiers_of_isIdentifier h.1,
      hrates, Invariant.Conjunct.symbols, List.map_cons, List.map_map]
    rfl
  | notPast node =>
    simp only [Invariant.Conjunct.symbols, List.forall_mem_cons, Symbol.text] at h
    rw [Invariant.Conjunct.text, identifiers_append (by decide), identifiers_of_isIdentifier h.1,
      identifiers_of_isIdentifier h.2.1]
    rfl

/-- The identifiers of an invariant are the texts of its symbols. -/
theorem identifiers_invariant {i : Invariant} (h : ∀ s ∈ i.symbols, Tree.isIdentifier s.text) :
    identifiers i.text = i.symbols.map Symbol.text := by
  have hsep : IsSeparator (if i.oneLine then " && " else " &&\n") := by
    split <;> decide
  unfold Invariant.symbols at h ⊢
  rw [List.forall_mem_flatMap] at h
  rw [Invariant.text, identifiers_intercalate hsep, List.flatMap_map, List.map_flatMap]
  exact List.flatMap_congr fun conjunct hc => identifiers_conjunct (h conjunct hc)

/-- The identifiers of a label are the texts of its symbols. -/
theorem identifiers_label {l : Label} (h : ∀ s ∈ l.symbols, Tree.isIdentifier s.text) :
    identifiers l.text = l.symbols.map Symbol.text := by
  cases l with
  | assignment clock =>
    have hclock : Tree.isIdentifier clock.text := h _ (List.mem_singleton.2 rfl)
    have htext : (Label.assignment clock).text = clock.text ++ " = " ++ "0" := by
      rw [String.append_assoc]
      rfl
    rw [htext, identifiers_append (by decide), identifiers_of_isIdentifier hclock]
    rfl
  | guard g =>
    unfold Label.symbols at h ⊢
    rw [List.forall_mem_flatMap] at h
    rw [Label.text, Guard.text, identifiers_intercalate (by decide), List.flatMap_map,
      List.map_flatMap]
    exact List.flatMap_congr fun atom ha => identifiers_atom (h atom ha)
  | probability weight => exact identifiers_repr weight

/-! ## Declared symbols of nodes -/

variable {m : Model} {id : NodeId}

theorem declares_common {s : Symbol} (h : s ∈ commonSymbols) : m.Declares s :=
  declares_iff.2 (.inl h)

theorem declares_of_attack {a : Attack} (hid : id ∈ m.graph.attacks)
    (ha : m.graph.tree.attack? id = some a) {s : Symbol} (h : s ∈ symbolsOfAttack a) :
    m.Declares s :=
  declares_iff.2 (.inr (.inl ⟨a, List.mem_filterMap.2 ⟨id, hid, ha⟩, h⟩))

theorem declares_of_defense {d : Defense} (hid : id ∈ m.graph.defenses)
    (hd : m.graph.tree.defense? id = some d) {s : Symbol} (h : s ∈ symbolsOfDefense d) :
    m.Declares s :=
  declares_iff.2 (.inr (.inr ⟨d, List.mem_filterMap.2 ⟨id, hid, hd⟩, h⟩))

/-- An attack and a defense have their clock and their duration. -/
theorem declares_node (hg : m.graph.Sound) (hid : id ∈ m.graph.attacks ++ m.graph.defenses) :
    m.Declares (.clock (.of (m.graph.name id))) ∧
      m.Declares (.constant (.duration (m.graph.name id))) := by
  rcases List.mem_append.1 hid with hid | hid
  · obtain ⟨a, ha⟩ := Option.isSome_iff_exists.1 (hg.mem_attacks.1 hid).2
    rw [name_of_attack? ha]
    exact ⟨declares_of_attack hid ha (by simp [symbolsOfAttack]),
      declares_of_attack hid ha (by simp [symbolsOfAttack])⟩
  · obtain ⟨d, hd⟩ := Option.isSome_iff_exists.1 (hg.isDefense_of_mem_defenses hid)
    rw [name_of_defense? hd]
    exact ⟨declares_of_defense hid hd (by simp [symbolsOfDefense]),
      declares_of_defense hid hd (by simp [symbolsOfDefense])⟩

/-- The symbols that only attacks have are declared for attacks. -/
theorem exists_attack_of_declares {s : Symbol} (h : m.Declares s) (hcommon : s ∉ commonSymbols)
    (hdefense : ∀ d, s ∉ symbolsOfDefense d) :
    ∃ id ∈ m.graph.attacks, ∃ a, m.graph.tree.attack? id = some a ∧ s ∈ symbolsOfAttack a := by
  rcases declares_iff.1 h with h | ⟨a, ha, h⟩ | ⟨d, _, h⟩
  · exact absurd h hcommon
  · obtain ⟨id, hid, ha⟩ := List.mem_filterMap.1 ha
    exact ⟨id, hid, a, ha, h⟩
  · exact absurd h (hdefense d)

/-- An activation cost is declared only for attacks that have one. -/
theorem exists_activationCost_of_declares {name : String}
    (h : m.Declares (.constant (.activationCost name))) : ∃ id ∈ m.graph.attacks, ∃ a,
      m.graph.tree.attack? id = some a ∧ a.name = name ∧ a.activationCost.isSome := by
  obtain ⟨id, hid, a, ha, hs⟩ := exists_attack_of_declares h (by simp [commonSymbols])
    (by simp [symbolsOfDefense])
  simp only [mem_symbolsOfAttack, reduceCtorEq, Symbol.constant.injEq, Constant.activationCost.injEq,
    and_false, false_or, or_false] at hs
  exact ⟨id, hid, a, ha, hs.2.symm, hs.1⟩

/-- A proportional cost is declared only for attacks that have one. -/
theorem exists_proportionalCost_of_declares {name : String}
    (h : m.Declares (.constant (.proportionalCost name))) : ∃ id ∈ m.graph.attacks, ∃ a,
      m.graph.tree.attack? id = some a ∧ a.name = name ∧ a.proportionalCost.isSome := by
  obtain ⟨id, hid, a, ha, hs⟩ := exists_attack_of_declares h (by simp [commonSymbols])
    (by simp [symbolsOfDefense])
  simp only [mem_symbolsOfAttack, reduceCtorEq, Symbol.constant.injEq,
    Constant.proportionalCost.injEq, and_false, false_or] at hs
  exact ⟨id, hid, a, ha, hs.2.symm, hs.1⟩

/-- The texts of declared symbols are identifiers, since the names of nodes are. -/
theorem isIdentifier_of_declares (hg : m.graph.Sound) {s : Symbol} (h : m.Declares s) :
    Tree.isIdentifier s.text := by
  rcases declares_iff.1 h with h | ⟨a, ha, h⟩ | ⟨d, hd, h⟩
  · have hcommon : ∀ s ∈ commonSymbols, Tree.isIdentifier s.text := by decide
    exact hcommon s h
  · obtain ⟨id, _, ha⟩ := List.mem_filterMap.1 ha
    have hname : Tree.isIdentifier a.name := hg.tree.identifier id _ (Tree.attack?_eq_some.1 ha)
    rcases mem_symbolsOfAttack.1 h with rfl | rfl | rfl | ⟨_, rfl⟩ | ⟨_, rfl⟩
    all_goals exact isIdentifier_append (by decide) hname
  · obtain ⟨id, _, hd⟩ := List.mem_filterMap.1 hd
    have hname : Tree.isIdentifier d.name := hg.tree.identifier id _ (Tree.defense?_eq_some.1 hd)
    simp only [symbolsOfDefense, List.mem_cons, List.not_mem_nil, or_false] at h
    rcases h with rfl | rfl | rfl
    all_goals exact isIdentifier_append (by decide) hname

/-! ## Symbols of locations and transitions -/

section

variable {i : StateId} {s : State} (hg : m.graph.Built) (hm : m.automaton.Unfolds m.graph)

include hg hm

theorem declares_invariant (hs : m.automaton.state? i = some s) :
    ∀ u ∈ (m.invariant s).symbols, m.Declares u := by
  have hg := hg.sound
  have hkey := (hm.states i s hs).2
  have hregular := hkey.regular hg
  have htime : m.Declares (.clock .time) := declares_common (by decide)
  have hcost : m.Declares (.clock .cost) := declares_common (by decide)
  have hpayment : m.Declares (.clock .payment) := declares_common (by decide)
  unfold Invariant.symbols
  rw [List.forall_mem_flatMap]
  unfold invariant
  dsimp only
  split
  · simp only [List.forall_mem_cons, Invariant.Conjunct.symbols]
    exact ⟨⟨htime, by simp⟩, ⟨hcost, by simp⟩, by simp⟩
  · split
    · next a hphase =>
      obtain ⟨attack, ha, hpays⟩ :=
        (Option.any_eq_true ..).1 (hasActivationCost_of_paying hkey hphase)
      have hinvolves : m.graph.Involves s.phase := hregular.involves
      rw [hphase] at hinvolves
      have hrate : m.Declares (.constant (.activationCost (m.graph.name a))) := by
        rw [name_of_attack? ha]
        apply declares_of_attack hinvolves ha
        have hcost : attack.activationCost.isSome := Option.isSome_of_any hpays
        exact mem_symbolsOfAttack.2 (.inr (.inr (.inr (.inl ⟨hcost, rfl⟩))))
      simp only [List.forall_mem_append, List.forall_mem_cons, List.forall_mem_map,
        Invariant.Conjunct.symbols, List.map_cons, List.map_nil]
      refine ⟨⟨⟨htime, by simp⟩, ⟨hpayment, by simp⟩, ⟨hcost, hrate, by simp⟩, by simp⟩, ?_⟩
      exact ⟨fun id hid => ⟨(declares_node hg (List.mem_append_left _ hid)).1, by simp⟩,
        fun id hid => ⟨(declares_node hg (List.mem_append_right _ hid)).1, by simp⟩⟩
    · have hactivated : ∀ id ∈ s.key.activated, id ∈ m.graph.attacks :=
        fun id hid => hregular.grounded.activated id (NodeSet.mem_ofList.2 hid)
      simp only [List.forall_mem_cons, List.forall_mem_map, Invariant.Conjunct.symbols]
      refine ⟨⟨hcost, ?_⟩, ?_⟩
      · intro a ha
        obtain ⟨ha, hpays⟩ := List.mem_filter.1 ha
        obtain ⟨id, hid, ha⟩ := List.mem_filterMap.1 ha
        apply declares_of_attack (hactivated id hid) ha
        exact mem_symbolsOfAttack.2 (.inr (.inr (.inr (.inr ⟨hpays, rfl⟩))))
      · intro id hid
        have hid : id ∈ m.graph.attacks ++ m.graph.defenses := by
          rw [List.mem_append] at hid ⊢
          exact hid.symm.imp_left (hactivated id)
        exact ⟨(declares_node hg hid).1, (declares_node hg hid).2, by simp⟩

omit hm in
/-- The guard of a defense is about the defense and those that follow it. -/
theorem declares_defenseGuard {d : NodeId} (hd : d ∈ m.graph.attacks ++ m.graph.defenses) :
    ∀ u ∈ (Label.guard (m.defenseGuard d)).symbols, m.Declares u := by
  have hfollowers : ∀ f ∈ m.graph.followers d, f ∈ m.graph.attacks ++ m.graph.defenses :=
    fun f hf => List.mem_append_right _ (hg.followers_subset d hf)
  have hnode : ∀ id ∈ m.graph.attacks ++ m.graph.defenses, _ := fun id => declares_node hg.sound
  unfold Label.symbols defenseGuard
  simp only [List.flatMap_cons, List.flatMap_map, List.forall_mem_append, List.forall_mem_flatMap,
    Guard.Atom.symbols, List.forall_mem_cons]
  refine ⟨⟨(hnode d hd).1, (hnode d hd).2, by simp⟩, fun f hf => ?_⟩
  exact ⟨(hnode f (hfollowers f hf)).1, (hnode f (hfollowers f hf)).2, by simp⟩

theorem declares_label {e : Edge} (he : e ∈ m.automaton.edges.toList) :
    ∀ l ∈ (m.labelsOf e).1, ∀ u ∈ l.symbols, m.Declares u := by
  obtain ⟨s, _, target, hs, _, hmem, _⟩ := hm.exists_move he
  have hphase := ((hm.states _ s hs).2.regular hg.sound).involves
  have hnode {id : NodeId} (hid : e.move.node? = some id) :=
    declares_node hg.sound (node_of_mem_moves hphase hmem hid)
  have hpayment : m.Declares (.clock .payment) := declares_common (by decide)
  have hlabels : m.labelsOf e = m.labels s.phase e.move := by rw [labelsOf, hs]; rfl
  rw [hlabels]
  cases hmove : e.move with
  | start a =>
    rw [hmove] at hnode
    have hclock := (hnode rfl).1
    unfold labels
    dsimp only
    split
    · simp [Label.symbols, Guard.Atom.symbols, hclock, hpayment]
    · simp [Label.symbols, hclock]
  | pay a => simp [labels, Label.symbols, hpayment]
  | wait => simp [labels]
  | finish a =>
    rw [hmove] at hnode
    have ha := hnode rfl
    simp [labels, Label.symbols, Guard.Atom.symbols, ha.1, ha.2]
  | strike d | idle d =>
    rw [hmove] at hnode
    have hguard := declares_defenseGuard hg (node_of_mem_moves hphase (hmove ▸ hmem) rfl)
    simp only [labels, List.forall_mem_cons]
    exact ⟨List.forall_mem_singleton.2 (hnode rfl).1, hguard, by simp⟩
  | attackOutcome a success p => simp [labels, Label.symbols]
  | defenseOutcome d success p => simp [labels, Label.symbols]

end

/-! ## Labels of the document -/

/-- What a label shows: the invariant of a state or a label of an edge. -/
def Shown (m : Model) (content : String) : Prop :=
  (∃ i s, m.automaton.state? i = some s ∧ content = (m.invariant s).text) ∨
    ∃ e ∈ m.automaton.edges.toList, ∃ l ∈ (m.labelsOf e).1, content = l.text

theorem shown_of_location {i : StateId} {s : State} (hs : m.automaton.state? i = some s) :
    ∀ x ∈ (m.location i s).elements, x.tag = "label" → m.Shown x.content := by
  unfold location
  simp only [forall_elements_block, List.forall_mem_cons, forall_elements_text, tag_text, tag_block]
  exact ⟨by simp, by simp, fun _ => .inl ⟨i, s, hs, rfl⟩, by simp⟩

theorem shown_of_transition {e : Edge} (he : e ∈ m.automaton.edges.toList) :
    ∀ x ∈ (m.transition e).elements, x.tag = "label" → m.Shown x.content := by
  rw [transition_eq]
  simp only [forall_elements_block, List.forall_mem_append, List.forall_mem_cons,
    List.forall_mem_map, forall_elements_text, tag_text, tag_block]
  exact ⟨by simp, ⟨by simp, by simp, by simp⟩, fun l hl _ => .inr ⟨e, he, l, hl, rfl⟩⟩

theorem shown_of_queries : ∀ x ∈ m.queriesElement.elements, x.tag = "label" → m.Shown x.content := by
  unfold queriesElement queryElement
  split
  · simp [forall_elements_text]
  · simp [forall_elements_block, forall_elements_text]

/-- Every label of the document shows an invariant of a state or a label of an edge. -/
theorem shown_of_label (m : Model) :
    ∀ x ∈ m.document.elements, x.tag = "label" → m.Shown x.content := by
  have htemplate : ∀ x ∈ m.template.elements, x.tag = "label" → m.Shown x.content := by
    have hblock : m.template = .block "template" [] m.template.children := rfl
    rw [hblock, forall_elements_block, children_template]
    simp only [List.forall_mem_append, List.forall_mem_map, tag_block, heading, branchPoint,
      List.forall_mem_cons, forall_elements_text, tag_text]
    refine ⟨by simp, ⟨⟨⟨by simp, fun x hx => ?_⟩, by simp⟩, by simp⟩,
      fun e he => shown_of_transition he⟩
    exact shown_of_location (mem_numbered.1 (List.mem_filter.1 hx).1)
  unfold document
  simp only [forall_elements_block, List.forall_mem_cons, forall_elements_text, tag_text, tag_block]
  exact ⟨by simp, by simp, htemplate, by simp, shown_of_queries, by simp⟩

end AttackDefense.Model

namespace AttackDefense.Automaton

open AttackDefense.Graph Model Markup

variable {g : Graph} {a : Automaton} {m : Model}

end AttackDefense.Automaton
