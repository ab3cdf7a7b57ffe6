import AttackDefense.Proofs.Model.Document
import AttackDefense.Proofs.Text.Identifiers

/-!
# The template is referentially sound

A transition refers to its source and its target, and the queries name the accepting locations.  All
that is referred to is there, and of the kind that it has to be.  `m.ReferentiallySound` says so of
the template of a model, and it holds of every model of an automaton that was built:

    g.Built → build g maxStates = .ok m.automaton → m.ReferentiallySound
                                                            (template_is_referentially_sound)

What a template says of its transitions is what the automaton says of its edges, since references
tell states apart (`outgoing_eq`, `incoming_eq`).
-/

namespace AttackDefense.Model

open Automaton Markup

variable {m : Model} {i j : StateId} {s : State} {e : Edge}

/-! ## What is said of a template -/

/-- The state is shown as a location. -/
def IsLocation (m : Model) (i : StateId) : Prop :=
  ∃ s, m.automaton.state? i = some s ∧ s.phase.tag ∈ ["Attacker", "NoActivation", "ActivationCost"]

/-- The transitions that leave a state. -/
def outgoing (m : Model) (i : StateId) : List Element :=
  (m.template.childrenTagged "transition").filter fun t =>
    t.values "source" "ref" = [some (reference i)]

/-- The transitions that lead to a state. -/
def incoming (m : Model) (i : StateId) : List Element :=
  (m.template.childrenTagged "transition").filter fun t =>
    t.values "target" "ref" = [some (reference i)]

/-- The names of all locations. -/
def locationNames (m : Model) : List String :=
  (m.template.childrenTagged "location").flatMap fun l =>
    (l.childrenTagged "name").map Element.content

/-- That one of some names holds. -/
def disjunction : List String → Option String
  | [] => none
  | [name] => some name
  | names => some ("(" ++ " || ".intercalate names ++ ")")

/-- All references in the template of a model lead where they have to. -/
structure ReferentiallySound (m : Model) : Prop where
  /-- The text shows the document and nothing else, tag by tag. -/
  tags : m.text = preamble ++ m.document.render ∧
    tagsOf m.text.toList = preambleTags ++ m.document.tags
  /-- The document has one template. -/
  template : m.document.childrenTagged "template" = [m.template]
  /-- Locations stand before branch points, then comes the start, and last the transitions. -/
  order : ∃ locations branchPoints, locations + branchPoints = m.automaton.size ∧
    m.template.children.map Element.tag = ["name", "parameter", "declaration"] ++
      List.replicate locations "location" ++ List.replicate branchPoints "branchpoint" ++ ["init"] ++
      List.replicate m.automaton.edges.size "transition"
  /-- Each state has exactly one element, a location with the name of the state or a branch point. -/
  place : ∀ i s, m.automaton.state? i = some s → ∃ x ∈ m.template.children,
    m.document.elements.filter (·.attribute? "id" = some (reference i)) = [x] ∧
    (m.IsLocation i → x.tag = "location" ∧
      (x.childrenTagged "name").map Element.content = [locationName i s]) ∧
    (¬ m.IsLocation i → x.tag = "branchpoint")
  /-- The start is a location. -/
  init : ∃ i, m.template.values "init" "ref" = [some (reference i)] ∧ m.IsLocation i
  /-- Each edge has its transition, in order. -/
  transitions : (m.template.childrenTagged "transition").map
      (fun t => (t.values "source" "ref", t.values "target" "ref")) =
    m.automaton.edges.toList.map fun e =>
      ([some (reference e.source)], [some (reference e.destination)])
  /-- Edges lie between states, which have elements. -/
  present : ∀ e ∈ m.automaton.edges.toList,
    (∃ s, m.automaton.state? e.source = some s) ∧ ∃ s, m.automaton.state? e.destination = some s
  /-- Transitions that chance picks leave branch points, and lead to locations. -/
  chance : ∀ i s, m.automaton.state? i = some s → ∀ t ∈ m.outgoing i,
    (¬ m.IsLocation i → t.values "label" "kind" = [some "probability"] ∧
      ∃ j, t.values "target" "ref" = [some (reference j)] ∧ m.IsLocation j) ∧
    (m.IsLocation i → some "probability" ∉ t.values "label" "kind")
  /-- Two transitions leave a branch point, and some lead to it, all of them from locations. -/
  branching : ∀ i s, m.automaton.state? i = some s → ¬ m.IsLocation i →
    (m.outgoing i).length = 2 ∧ m.incoming i ≠ [] ∧ ∀ t ∈ m.incoming i,
      ∃ j, t.values "source" "ref" = [some (reference j)] ∧ m.IsLocation j
  /-- Names tell locations apart. -/
  names : m.locationNames.Nodup
  /-- The goal is to be in one of the accepting locations. -/
  goal : ∃ names : List String, names.Nodup ∧ names ⊆ m.locationNames ∧
    (∀ name, name ∈ names ↔
      ∃ i s, m.automaton.state? i = some s ∧ s.accepting ∧ name = locationName i s) ∧
    m.goal = disjunction (names.map fun name => templateName ++ "." ++ name)

/-! ## Children of the template -/

theorem mem_tags_iff {phase : Phase} :
    phase.tag ∈ ["Attacker", "NoActivation", "ActivationCost"] ↔ ¬ phase.isBranchPoint := by
  cases phase <;> simp [Phase.tag, Phase.isBranchPoint]

theorem isLocation_iff (hs : m.automaton.state? i = some s) :
    m.IsLocation i ↔ ¬ s.phase.isBranchPoint := by
  unfold IsLocation
  rw [hs]
  simp only [Option.some.injEq, exists_eq_left', mem_tags_iff]

theorem childrenTagged_document : m.document.childrenTagged "template" = [m.template] := by
  have hqueries : m.queriesElement.tag = "queries" := by
    unfold queriesElement
    split <;> rfl
  have htemplate : m.template.tag = "template" := rfl
  unfold document
  rw [Element.childrenTagged, Element.children]
  simp [hqueries, htemplate]

theorem filter_tag_map {α : Type} (l : List α) (f : α → Element) (tag wanted : String)
    (h : ∀ a, (f a).tag = tag) :
    (l.map f).filter (·.tag = wanted) = if tag = wanted then l.map f else [] := by
  split
  · next htag =>
    rw [List.filter_eq_self, List.forall_mem_map]
    exact fun a _ => decide_eq_true ((h a).trans htag)
  · next htag =>
    rw [List.filter_eq_nil_iff, List.forall_mem_map]
    intro a _
    rw [h a, decide_eq_true_iff]
    exact htag

theorem childrenTagged_template (tag : String) : m.template.childrenTagged tag =
    heading.filter (·.tag = tag) ++
    (if "location" = tag then m.locations.map fun x => m.location x.1 x.2 else []) ++
    (if "branchpoint" = tag then m.branchPoints.map fun x => branchPoint x.1 else []) ++
    (if "init" = tag then [.text "init" [("ref", reference m.automaton.initial)] ""] else []) ++
    (if "transition" = tag then m.automaton.edges.toList.map m.transition else []) := by
  unfold Element.childrenTagged
  rw [children_template]
  simp only [List.filter_append]
  rw [filter_tag_map m.locations _ "location" tag fun _ => rfl,
    filter_tag_map m.branchPoints _ "branchpoint" tag fun _ => rfl,
    filter_tag_map _ m.transition "transition" tag fun _ => rfl]
  congr 2
  rw [List.filter_singleton]
  by_cases h : "init" = tag <;> simp [h]

theorem childrenTagged_location : m.template.childrenTagged "location" =
    m.locations.map fun x => m.location x.1 x.2 := by
  simp [childrenTagged_template, heading]

theorem childrenTagged_transition :
    m.template.childrenTagged "transition" = m.automaton.edges.toList.map m.transition := by
  simp [childrenTagged_template, heading]

theorem values_init : m.template.values "init" "ref" = [some (reference m.automaton.initial)] := by
  unfold Element.values
  rw [childrenTagged_template]
  simp [heading, Element.attribute?, Element.attributes]

/-! ## Transitions -/

theorem childrenTagged_transition_append (tag : String) : (m.transition e).childrenTagged tag =
    [.text "source" [("ref", reference e.source)] "",
      .text "target" [("ref", reference e.destination)] ""].filter (·.tag = tag) ++
    if "label" = tag then (m.labelsOf e).1.map fun l =>
      .text "label" (("kind", l.kind) :: (middle e).attributes) l.text else [] := by
  rw [transition_eq, Element.childrenTagged, Element.children, List.filter_append]
  congr 1
  exact filter_tag_map _ _ "label" tag fun _ => rfl

theorem values_source : (m.transition e).values "source" "ref" = [some (reference e.source)] := by
  rw [Element.values, childrenTagged_transition_append]
  rfl

theorem values_target :
    (m.transition e).values "target" "ref" = [some (reference e.destination)] := by
  rw [Element.values, childrenTagged_transition_append]
  rfl

theorem values_label : (m.transition e).values "label" "kind" =
    (m.labelsOf e).1.map fun l => some l.kind := by
  rw [Element.values, childrenTagged_transition_append, if_pos rfl, List.map_append, List.map_map]
  rfl

theorem outgoing_eq :
    m.outgoing i = (m.automaton.edges.toList.filter (·.source = i)).map m.transition := by
  unfold outgoing
  rw [childrenTagged_transition, List.filter_map]
  simp only [Function.comp_def, values_source, List.cons.injEq, Option.some.injEq, reference_inj,
    and_true]

theorem incoming_eq :
    m.incoming i = (m.automaton.edges.toList.filter (·.destination = i)).map m.transition := by
  unfold incoming
  rw [childrenTagged_transition, List.filter_map]
  simp only [Function.comp_def, values_target, List.cons.injEq, Option.some.injEq, reference_inj,
    and_true]

theorem kinds_of_chance {source : Phase} {move : Move} (h : move.probability?.isSome) :
    (m.labels source move).1.map Label.kind = ["probability"] := by
  cases move with
  | attackOutcome _ _ _ | defenseOutcome _ _ _ => rfl
  | _ => cases h

theorem not_mem_kinds {source : Phase} {move : Move} (h : ¬ move.probability?.isSome) :
    "probability" ∉ (m.labels source move).1.map Label.kind := by
  cases move with
  | attackOutcome _ _ _ | defenseOutcome _ _ _ => exact absurd rfl h
  | start a => cases source <;> simp [labels, Label.kind]
  | _ => simp [labels, Label.kind]

/-- What the labels of a transition are, is what the state that it leaves is. -/
theorem values_label_eq (hs : m.automaton.state? e.source = some s) :
    (m.transition e).values "label" "kind" =
      ((m.labels s.phase e.move).1.map Label.kind).map some := by
  rw [values_label, labelsOf, hs, List.map_map]
  rfl

/-! ## Names of locations -/

theorem locationNames_eq :
    m.locationNames = m.locations.map fun x => locationName x.1 x.2 := by
  unfold locationNames
  rw [childrenTagged_location, List.flatMap_map, ← List.flatMap_singleton' (List.map _ _),
    List.flatMap_map]
  rfl

theorem underscore_not_mem_tag (phase : Phase) : '_' ∉ phase.tag.toList := by
  cases phase <;> simp [Phase.tag]

/-- What stands behind the underscore tells names apart. -/
theorem locationName_inj {u : State} (h : locationName i s = locationName j u) : i = j := by
  have hlist : s.phase.tag.toList ++ '_' :: (toString i).toList =
      u.phase.tag.toList ++ '_' :: (toString j).toList := by
    simpa [locationName] using congrArg String.toList h
  obtain ⟨_, hdigits⟩ :=
    (append_cons_inj (underscore_not_mem_tag s.phase) (underscore_not_mem_tag u.phase)).1 hlist
  have hrepr : toString i = toString j := String.toList_inj.1 hdigits
  exact Nat.repr_inj.1 hrepr

theorem nodup_locationNames (m : Model) : m.locationNames.Nodup := by
  rw [locationNames_eq]
  apply List.Nodup.map_on _ (nodup_numbered.filter _)
  rintro ⟨i, s⟩ hi ⟨j, u⟩ hj h
  obtain rfl := locationName_inj h
  have hs := mem_numbered.1 (List.mem_filter.1 hi).1
  have hu := mem_numbered.1 (List.mem_filter.1 hj).1
  rw [Option.some.inj (hs.symm.trans hu)]

/-! ## The goal -/

theorem mem_acceptingStates {a : Automaton} :
    i ∈ a.acceptingStates ↔ ∃ s, a.state? i = some s ∧ s.accepting := by
  unfold acceptingStates
  rw [List.mem_filter, List.mem_range, Option.any_eq_true]
  constructor
  · exact fun h => h.2
  · rintro ⟨s, hs, haccepting⟩
    exact ⟨StateTable.lt_size_of_get? hs, s, hs, haccepting⟩

/-- The names of the accepting locations. -/
def acceptingNames (m : Model) : List String := m.automaton.acceptingStates.filterMap m.locationName?

theorem goal_eq (m : Model) :
    m.goal = disjunction (m.acceptingNames.map fun name => templateName ++ "." ++ name) := by
  have hnames : (m.automaton.acceptingStates.filterMap fun id =>
      (m.locationName? id).map fun name => templateName ++ "." ++ name) =
      m.acceptingNames.map fun name => templateName ++ "." ++ name :=
    List.map_filterMap.symm
  unfold goal
  rw [hnames]
  rfl

theorem mem_acceptingNames {name : String} : name ∈ m.acceptingNames ↔
    ∃ i s, m.automaton.state? i = some s ∧ s.accepting ∧ name = locationName i s := by
  unfold acceptingNames locationName?
  rw [List.mem_filterMap]
  constructor
  · rintro ⟨i, hi, hname⟩
    obtain ⟨s, hs, haccepting⟩ := mem_acceptingStates.1 hi
    rw [hs] at hname
    exact ⟨i, s, hs, haccepting, (Option.some.inj hname).symm⟩
  · rintro ⟨i, s, hs, haccepting, rfl⟩
    exact ⟨i, mem_acceptingStates.2 ⟨s, hs, haccepting⟩, by rw [hs]; rfl⟩

theorem nodup_acceptingNames (m : Model) : m.acceptingNames.Nodup := by
  unfold acceptingNames
  apply List.Nodup.filterMap _ (List.nodup_range.filter _)
  intro i j name hi hj
  obtain ⟨s, _, rfl⟩ := Option.map_eq_some_iff.1 hi
  obtain ⟨u, _, hname⟩ := Option.map_eq_some_iff.1 hj
  exact (locationName_inj hname).symm

/-! ## The order of the template -/

theorem map_tag_map {α : Type} (l : List α) (f : α → Element) (tag : String)
    (h : ∀ a, (f a).tag = tag) : (l.map f).map Element.tag = List.replicate l.length tag := by
  rw [List.map_map, List.eq_replicate_iff, List.length_map]
  refine ⟨rfl, fun t ht => ?_⟩
  obtain ⟨a, _, rfl⟩ := List.mem_map.1 ht
  exact h a

theorem length_locations_add : m.locations.length + m.branchPoints.length = m.automaton.size := by
  have hsplit := List.length_eq_length_filter_add (l := m.numbered) fun x => x.2.phase.isBranchPoint
  have hsize : m.numbered.length = m.automaton.size := by simp [numbered, size, StateTable.size]
  rw [Nat.add_comm, ← hsize, hsplit]
  rfl

theorem map_tag_children : m.template.children.map Element.tag =
    ["name", "parameter", "declaration"] ++ List.replicate m.locations.length "location" ++
      List.replicate m.branchPoints.length "branchpoint" ++ ["init"] ++
      List.replicate m.automaton.edges.size "transition" := by
  rw [children_template]
  simp only [List.map_append]
  rw [map_tag_map m.locations _ "location" fun _ => rfl,
    map_tag_map m.branchPoints _ "branchpoint" fun _ => rfl,
    map_tag_map _ m.transition "transition" fun _ => rfl, Array.length_toList]
  rfl

/-! ## All references -/

section

variable {g : Graph} (hm : m.automaton.Unfolds g)

include hm

theorem isLocation_initial : m.IsLocation m.automaton.initial := by
  obtain ⟨s, hs, hkey⟩ := hm.initial
  rw [isLocation_iff hs, State.phase, hkey]
  simp [Phase.isBranchPoint]

theorem chance_of_mem_outgoing (hs : m.automaton.state? i = some s) {t : Element}
    (ht : t ∈ m.outgoing i) :
    (¬ m.IsLocation i → t.values "label" "kind" = [some "probability"] ∧
      ∃ j, t.values "target" "ref" = [some (reference j)] ∧ m.IsLocation j) ∧
    (m.IsLocation i → some "probability" ∉ t.values "label" "kind") := by
  rw [outgoing_eq] at ht
  obtain ⟨e, hleaves, rfl⟩ := List.mem_map.1 ht
  obtain ⟨he, hsource⟩ := List.mem_filter.1 hleaves
  obtain rfl : e.source = i := of_decide_eq_true hsource
  have hchance := hm.isSome_probability?_iff he hs
  rw [isLocation_iff hs, not_not, values_label_eq hs]
  constructor
  · intro hbranch
    obtain ⟨u, hu, hphase⟩ := hm.deciding_of_branchPoint he hs hbranch
    refine ⟨by rw [kinds_of_chance (hchance.2 hbranch)]; rfl, e.destination, values_target, ?_⟩
    rw [isLocation_iff hu, hphase]
    simp [Phase.isBranchPoint]
  · intro hlocation hmem
    obtain ⟨kind, hkind, hprobability⟩ := List.mem_map.1 hmem
    obtain rfl := Option.some.inj hprobability
    exact not_mem_kinds (fun h => hlocation (hchance.1 h)) hkind

theorem branching_of_not_isLocation (hs : m.automaton.state? i = some s) (hi : ¬ m.IsLocation i) :
    (m.outgoing i).length = 2 ∧ m.incoming i ≠ [] ∧ ∀ t ∈ m.incoming i,
      ∃ j, t.values "source" "ref" = [some (reference j)] ∧ m.IsLocation j := by
  rw [isLocation_iff hs, not_not] at hi
  refine ⟨?_, ?_, fun t ht => ?_⟩
  · rw [outgoing_eq, List.length_map]
    exact hm.two_edges hs hi
  · have hkey : s.key ≠ ⟨.deciding, [], []⟩ := by
      intro hkey
      rw [State.phase, hkey] at hi
      cases hi
    obtain ⟨e, he, hdest⟩ := hm.exists_edge_to hs hkey
    rw [incoming_eq]
    exact List.ne_nil_of_mem
      (List.mem_map_of_mem (List.mem_filter.2 ⟨he, decide_eq_true hdest⟩))
  · rw [incoming_eq] at ht
    obtain ⟨e, hleads, rfl⟩ := List.mem_map.1 ht
    obtain ⟨he, hdest⟩ := List.mem_filter.1 hleads
    obtain rfl : e.destination = i := of_decide_eq_true hdest
    obtain ⟨u, _, _, hu, _⟩ := hm.exists_move he
    refine ⟨e.source, values_source, ?_⟩
    rw [isLocation_iff hu]
    -- from a branch point the edge would lead to a decision
    intro hbranch
    obtain ⟨s', hs', hphase⟩ := hm.deciding_of_branchPoint he hu hbranch
    obtain rfl := Option.some.inj (hs'.symm.trans hs)
    rw [hphase] at hi
    cases hi

theorem acceptingNames_subset : m.acceptingNames ⊆ m.locationNames := by
  intro name hname
  obtain ⟨i, s, hs, haccepting, rfl⟩ := mem_acceptingNames.1 hname
  have hphase : s.phase = .deciding := by
    have hstate := (hm.states i s hs).1.eq_stateOf
    rw [hstate] at haccepting
    simpa [Graph.stateOf] using (Bool.and_eq_true_iff.1 haccepting).1
  rw [locationNames_eq]
  refine List.mem_map.2 ⟨(i, s), List.mem_filter.2 ⟨mem_numbered.2 hs, ?_⟩, rfl⟩
  rw [hphase]
  rfl

end

theorem exists_place (hs : m.automaton.state? i = some s) : ∃ x ∈ m.template.children,
    m.document.elements.filter (·.attribute? "id" = some (reference i)) = [x] ∧
    (m.IsLocation i → x.tag = "location" ∧
      (x.childrenTagged "name").map Element.content = [locationName i s]) ∧
    (¬ m.IsLocation i → x.tag = "branchpoint") := by
  rw [filter_id_document hs, isLocation_iff hs, not_not]
  refine ⟨_, ?_, rfl, ?_⟩
  · by_cases hbranch : s.phase.isBranchPoint
    · rw [if_pos hbranch]
      exact branchPoint_mem_children hs hbranch
    · rw [if_neg hbranch]
      exact location_mem_children hs hbranch
  · cases s.phase.isBranchPoint with
    | true => exact ⟨fun h => absurd rfl h, fun _ => rfl⟩
    | false => exact ⟨fun _ => ⟨rfl, rfl⟩, fun h => nomatch h⟩

end AttackDefense.Model

namespace AttackDefense.Automaton

open AttackDefense.Graph Model

variable {g : Graph} {a : Automaton}

/-- **The template is referentially sound.**  Whatever the settings are and whatever periods are
overridden, all references in the template of an automaton lead where they have to. -/
theorem template_is_referentially_sound (hg : g.Built) {maxStates : Nat}
    (h : build g maxStates = .ok a) {m : Model} (hm : m.automaton = a) : m.ReferentiallySound := by
  subst hm
  have hm := unfolds_of_build hg.sound h
  exact {
    tags := ⟨text_eq m, tagsOf_text m⟩
    template := childrenTagged_document
    order := ⟨_, _, length_locations_add, map_tag_children⟩
    place := fun i s hs => exists_place hs
    init := ⟨_, values_init, isLocation_initial hm⟩
    transitions := by
      rw [childrenTagged_transition, List.map_map]
      simp only [Function.comp_def, values_source, values_target]
    present := by
      intro e he
      obtain ⟨s, u, _, hs, hu, _⟩ := hm.exists_move he
      exact ⟨⟨s, hs⟩, u, hu⟩
    chance := fun i s hs t ht => chance_of_mem_outgoing hm hs ht
    branching := fun i s hs hi => branching_of_not_isLocation hm hs hi
    names := nodup_locationNames m
    goal := ⟨m.acceptingNames, nodup_acceptingNames m, acceptingNames_subset hm,
      fun _ => mem_acceptingNames, goal_eq m⟩ }

/-- The theft from the vault succeeds or fails: its attempt is a branch point of the template. -/
theorem template_is_referentially_sound_vault : ∃ a i s, build vault 7 = .ok a ∧
    a.state? i = some s ∧ s.key = ⟨.attempting 1, [1], []⟩ ∧
    (ofAutomaton a .standard).ReferentiallySound ∧
    ((ofAutomaton a .standard).outgoing i).length = 2 := by
  obtain ⟨a, ha⟩ := exists_build_vault
  obtain ⟨i, s, hs, hkey⟩ := (unfolds_of_build built_vault.sound ha).exists_state_iff.2
    (reachableKey_of_mem_vaultKeys ⟨.attempting 1, [1], []⟩ (by decide))
  have hsound := template_is_referentially_sound built_vault ha (m := ofAutomaton a .standard) rfl
  have hbranch : ¬ (ofAutomaton a .standard).IsLocation i := by
    rw [isLocation_iff hs, State.phase, hkey, not_not]
    rfl
  exact ⟨a, i, s, ha, hs, hkey, hsound, (hsound.branching i s hs hbranch).1⟩

end AttackDefense.Automaton
