import AttackDefense.Model.Document
import AttackDefense.Proofs.Automaton.Incidence
import AttackDefense.Proofs.Markup.Reading
import Std.Data.String.ToNat

/-!
# What stands in a document

The elements of the template, in order (`children_template`), and of the whole document.  Every state
has one element, which is found by its reference:

    m.automaton.state? i = some s → the elements of the document with the reference of i are
      [if s.phase.isBranchPoint then branchPoint i else m.location i s]     (filter_id_document)

The tags of the text are those of the document behind those of the preamble (`tagsOf_text`), so that
what is proved of the document can be read off the text.
-/

namespace AttackDefense.Model

open Automaton Markup

variable {m : Model} {i j : StateId} {s : State}

/-! ## States in the document -/

theorem mem_numbered : (i, s) ∈ m.numbered ↔ m.automaton.state? i = some s := by
  unfold numbered state? StateTable.get?
  simp [List.mem_zipIdx_iff_getElem?]

theorem nodup_numbered : m.numbered.Nodup := by
  apply List.Nodup.of_map Prod.fst
  unfold numbered
  rw [List.map_map]
  show (m.automaton.table.states.toList.zipIdx.map Prod.snd).Nodup
  rw [List.zipIdx_map_snd]
  exact List.nodup_range'

theorem reference_inj : reference i = reference j ↔ i = j := by
  unfold reference
  rw [String.append_right_inj]
  exact Nat.repr_inj

/-- Of the states with some property one is picked out by its number. -/
theorem flatMap_numbered {α : Type} (hs : m.automaton.state? i = some s) (p : State → Bool)
    (f : StateId × State → List α) :
    ((m.numbered.filter fun x => p x.2).flatMap fun x => if x.1 = i then f x else []) =
      if p s then f (i, s) else [] := by
  have hpair : ∀ x ∈ m.numbered.filter fun x => p x.2, x.1 = i → x = (i, s) := by
    rintro ⟨j, u⟩ hx rfl
    have hu := mem_numbered.1 (List.mem_filter.1 hx).1
    rw [Option.some.inj (hu.symm.trans hs)]
  by_cases hp : p s
  · have hmem : (i, s) ∈ m.numbered.filter fun x => p x.2 :=
      List.mem_filter.2 ⟨mem_numbered.2 hs, hp⟩
    rw [if_pos hp, ← flatMap_ite_eq (nodup_numbered.filter _) hmem f]
    apply List.flatMap_congr
    intro x hx
    have hiff : x.1 = i ↔ x = (i, s) := ⟨hpair x hx, fun h => congrArg Prod.fst h⟩
    simp only [hiff]
  · rw [if_neg hp, List.flatMap_eq_nil_iff]
    intro x hx
    rw [if_neg]
    intro hxi
    have hps := (List.mem_filter.1 hx).2
    rw [hpair x hx hxi] at hps
    exact hp hps

/-! ## The elements of the template -/

/-- The states that are no branch points, and those that are. -/
def locations (m : Model) : List (StateId × State) :=
  m.numbered.filter fun x => !x.2.phase.isBranchPoint

def branchPoints (m : Model) : List (StateId × State) :=
  m.numbered.filter fun x => x.2.phase.isBranchPoint

/-- What stands in the template before the locations. -/
def heading : List Element :=
  [.text "name" [("x", "0"), ("y", "0")] templateName, .text "parameter" [] "",
    .text "declaration" [] ""]

/-- What stands in the template. -/
theorem children_template : m.template.children = heading ++
    m.locations.map (fun x => m.location x.1 x.2) ++ m.branchPoints.map (fun x => branchPoint x.1) ++
    [.text "init" [("ref", reference m.automaton.initial)] ""] ++
    m.automaton.edges.toList.map m.transition := by
  unfold template
  rw [List.partition_eq_filter_filter]
  rfl

/-- The labels of an edge, and whether the attacker controls it. -/
def labelsOf (m : Model) (e : Edge) : List Label × Bool :=
  m.labels (((m.automaton.state? e.source).map State.phase).getD .deciding) e.move

/-- Where the labels of an edge stand. -/
def middle (e : Edge) : Position := (Position.ofState e.source).between (.ofState e.destination)

theorem transition_eq (e : Edge) : m.transition e =
    .block "transition" (if (m.labelsOf e).2 then [] else [("controllable", "false")])
      ([.text "source" [("ref", reference e.source)] "",
        .text "target" [("ref", reference e.destination)] ""] ++
      (m.labelsOf e).1.map fun l =>
        .text "label" (("kind", l.kind) :: (middle e).attributes) l.text) :=
  rfl

theorem filter_id_location (k : StateId) :
    (m.location j s).elements.filter (·.attribute? "id" = some (reference k)) =
      if j = k then [m.location j s] else [] := by
  have hself : (m.location j s).attribute? "id" = some (reference j) := rfl
  have hname : ∀ p : Position, ∀ text,
      (Element.text "name" p.attributes text).attribute? "id" = none := fun _ _ => rfl
  have hlabel : ∀ p : Position, ∀ text,
      (Element.text "label" (("kind", "invariant") :: p.attributes) text).attribute? "id" = none :=
    fun _ _ => rfl
  unfold location at hself ⊢
  simp only [Element.elements, elementsOf, List.singleton_append, List.filter_cons, hself, hname,
    hlabel, reduceCtorEq, List.filter_nil, Option.some.injEq, reference_inj]
  simp

theorem filter_id_branchPoint (k : StateId) :
    (branchPoint j).elements.filter (·.attribute? "id" = some (reference k)) =
      if j = k then [branchPoint j] else [] := by
  have hself : (branchPoint j).attribute? "id" = some (reference j) := rfl
  unfold branchPoint at hself ⊢
  simp only [Element.elements, List.filter_cons, hself, List.filter_nil, Option.some.injEq,
    reference_inj]
  simp

/-- No element in it has an identity. -/
def Anonymous (e : Element) : Prop := ∀ x ∈ e.elements, x.attribute? "id" = none

theorem anonymous_text {tag content : String} {attributes : List (String × String)} :
    Anonymous (.text tag attributes content) ↔ attributes.lookup "id" = none :=
  forall_elements_text

theorem anonymous_block {tag : String} {attributes : List (String × String)}
    {children : List Element} : Anonymous (.block tag attributes children) ↔
      attributes.lookup "id" = none ∧ ∀ e ∈ children, Anonymous e :=
  forall_elements_block

theorem Anonymous.filter_eq_nil {e : Element} (h : Anonymous e) (r : String) :
    e.elements.filter (·.attribute? "id" = some r) = [] := by
  rw [List.filter_eq_nil_iff]
  intro x hx
  simp [h x hx]

theorem anonymous_heading : ∀ e ∈ heading, Anonymous e := by
  simp [heading, anonymous_text]

theorem anonymous_transition (e : Edge) : Anonymous (m.transition e) := by
  rw [transition_eq]
  refine anonymous_block.2 ⟨by split <;> rfl, ?_⟩
  rw [List.forall_mem_append, List.forall_mem_map]
  exact ⟨by simp [anonymous_text], fun l _ => anonymous_text.2 rfl⟩

theorem anonymous_queries : Anonymous m.queriesElement := by
  unfold queriesElement
  split
  · exact anonymous_text.2 rfl
  · refine anonymous_block.2 ⟨rfl, ?_⟩
    rw [List.forall_mem_map]
    intro q _
    exact anonymous_block.2 ⟨rfl, by simp [anonymous_text]⟩

/-- What stands in the template stands in the document. -/
theorem mem_elements_of_mem_template {e x : Element} (he : e ∈ m.template.children)
    (hx : x ∈ e.elements) : x ∈ m.document.elements := by
  have htemplate : x ∈ m.template.elements := mem_elements_block he hx
  exact mem_elements_block (List.mem_cons_of_mem _ List.mem_cons_self) htemplate

theorem location_mem_children (hs : m.automaton.state? i = some s) (h : ¬ s.phase.isBranchPoint) :
    m.location i s ∈ m.template.children := by
  simp only [children_template, List.mem_append, List.mem_map]
  refine .inl (.inl (.inl (.inr ⟨(i, s), List.mem_filter.2 ⟨mem_numbered.2 hs, ?_⟩, rfl⟩)))
  simpa using h

theorem branchPoint_mem_children (hs : m.automaton.state? i = some s) (h : s.phase.isBranchPoint) :
    branchPoint i ∈ m.template.children := by
  simp only [children_template, List.mem_append, List.mem_map]
  exact .inl (.inl (.inr ⟨(i, s), List.mem_filter.2 ⟨mem_numbered.2 hs, h⟩, rfl⟩))

/-- **Identity.**  Exactly one element has the reference of a state. -/
theorem filter_id_document (hs : m.automaton.state? i = some s) :
    m.document.elements.filter (·.attribute? "id" = some (reference i)) =
      [if s.phase.isBranchPoint then branchPoint i else m.location i s] := by
  have hnil : ∀ es : List Element, (∀ e ∈ es, Anonymous e) →
      (es.flatMap fun e => e.elements.filter (·.attribute? "id" = some (reference i))) = [] :=
    fun es h => List.flatMap_eq_nil_iff.2 fun e he => (h e he).filter_eq_nil _
  have hlocations : (m.locations.map fun x => m.location x.1 x.2).flatMap
      (fun e => e.elements.filter (·.attribute? "id" = some (reference i))) =
        if !s.phase.isBranchPoint then [m.location i s] else [] := by
    rw [List.flatMap_map]
    simp only [filter_id_location]
    exact flatMap_numbered hs (fun s => !s.phase.isBranchPoint) fun x => [m.location x.1 x.2]
  have hpoints : (m.branchPoints.map fun x => branchPoint x.1).flatMap
      (fun e => e.elements.filter (·.attribute? "id" = some (reference i))) =
        if s.phase.isBranchPoint then [branchPoint i] else [] := by
    rw [List.flatMap_map]
    simp only [filter_id_branchPoint]
    exact flatMap_numbered hs (fun s => s.phase.isBranchPoint) fun x => [branchPoint x.1]
  have htemplate : m.template.elements.filter (·.attribute? "id" = some (reference i)) =
      [if s.phase.isBranchPoint then branchPoint i else m.location i s] := by
    have helements : m.template.elements = m.template :: elementsOf m.template.children := rfl
    have hself : m.template.attribute? "id" = none := rfl
    rw [helements, List.filter_cons, hself, elementsOf_eq_flatMap, List.filter_flatMap,
      children_template]
    simp only [List.flatMap_append]
    rw [hnil _ anonymous_heading, hlocations, hpoints, hnil _ (by simp [anonymous_text]),
      hnil (m.automaton.edges.toList.map m.transition)
        (List.forall_mem_map.2 fun e _ => anonymous_transition e)]
    cases s.phase.isBranchPoint <;> simp
  have helements : m.document.elements = m.document :: elementsOf m.document.children := rfl
  have hself : m.document.attribute? "id" = none := rfl
  have hchildren : m.document.children = [.text "declaration" [] m.declaration, m.template,
    .text "system" [] ("system " ++ templateName ++ ";"), m.queriesElement] := rfl
  rw [helements, List.filter_cons, hself, elementsOf_eq_flatMap, List.filter_flatMap, hchildren]
  simp only [List.flatMap_cons, List.flatMap_nil, htemplate, anonymous_queries.filter_eq_nil]
  simp [Element.elements, Element.attribute?, Element.attributes]

/-! ## Heads and blocks -/

theorem legible_location : (m.location i s).Legible := by
  refine legible_block.2 ⟨(by decide : IsHead "location" ["id", "x", "y"]), by simp, ?_⟩
  simp only [List.forall_mem_cons, legible_text]
  exact ⟨(by decide : IsHead "name" ["x", "y"]), (by decide : IsHead "label" ["kind", "x", "y"]),
    by simp⟩

theorem legible_transition (e : Edge) : (m.transition e).Legible := by
  rw [transition_eq]
  refine legible_block.2 ⟨by split <;> decide, by simp, ?_⟩
  rw [List.forall_mem_append, List.forall_mem_map]
  simp only [List.forall_mem_cons, legible_text]
  exact ⟨⟨(by decide : IsHead "source" ["ref"]), (by decide : IsHead "target" ["ref"]), by simp⟩,
    fun l _ => (by decide : IsHead "label" ["kind", "x", "y"])⟩

theorem legible_queries : m.queriesElement.Legible := by
  unfold queriesElement
  split
  · exact legible_text.2 (by decide)
  · next hne =>
    refine legible_block.2 ⟨by decide, by simpa using hne, ?_⟩
    rw [List.forall_mem_map]
    intro q _
    refine legible_block.2 ⟨by decide, by simp, ?_⟩
    simp only [List.forall_mem_cons, legible_text]
    exact ⟨(by decide : IsHead "formula" []), (by decide : IsHead "comment" []), by simp⟩

theorem legible_template : m.template.Legible := by
  have hblock : m.template = .block "template" [] m.template.children := rfl
  rw [hblock, legible_block, children_template]
  simp only [List.forall_mem_append, List.forall_mem_map]
  refine ⟨by decide, by simp [heading], ⟨⟨⟨?_, fun x _ => legible_location⟩, fun x _ => ?_⟩, ?_⟩,
    fun e _ => legible_transition e⟩
  · simp only [heading, List.forall_mem_cons, legible_text]
    exact ⟨(by decide : IsHead "name" ["x", "y"]), (by decide : IsHead "parameter" []),
      (by decide : IsHead "declaration" []), by simp⟩
  · exact legible_text.2 (by decide : IsHead "branchpoint" ["id", "x", "y"])
  · rw [List.forall_mem_singleton]
    exact legible_text.2 (by decide : IsHead "init" ["ref"])

theorem legible_document (m : Model) : m.document.Legible := by
  refine legible_block.2 ⟨by decide, by simp, ?_⟩
  simp only [List.forall_mem_cons, legible_text]
  exact ⟨(by decide : IsHead "declaration" []), legible_template, (by decide : IsHead "system" []),
    legible_queries, by simp⟩

/-! ## The tags of the text -/

/-- The tags of the preamble. -/
def preambleTags : List String :=
  ["?xml version=\"1.0\" encoding=\"utf-8\"?",
   "!DOCTYPE nta PUBLIC '-//Uppaal Team//DTD Flat System 1.1//EN' " ++
    "'http://www.it.uu.se/research/group/darts/uppaal/flat-1_2.dtd'"]

theorem preamble_eq : preamble = String.join (preambleTags.map tagLine) := by decide +kernel

theorem bare_preambleTags : ∀ tag ∈ preambleTags, Bare tag.toList := by decide +kernel

theorem tagsOf_preamble_append (rest : List Char) :
    tagsOf (preamble.toList ++ rest) = preambleTags ++ tagsOf rest := by
  have happend : ∀ tags : List String, (∀ tag ∈ tags, Bare tag.toList) →
      tagsOf ((String.join (tags.map tagLine)).toList ++ rest) = tags ++ tagsOf rest := by
    intro tags h
    induction tags with
    | nil => rw [List.map_nil, String.join_nil]; rfl
    | cons tag tags ih =>
      rw [List.forall_mem_cons] at h
      rw [List.map_cons, String.join_cons, tagLine, String.toList_append, String.toList_append,
        List.append_assoc, List.append_assoc, tagsOf_tag_append h.1,
        tagsOf_append_of_bare bare_newline, ih h.2, List.cons_append]
  rw [preamble_eq, happend preambleTags bare_preambleTags]

theorem text_eq (m : Model) : m.text = preamble ++ m.document.render :=
  Element.write_eq 0 preamble m.document

/-- **Tags.**  The tags of the text are those of the document, behind those of the preamble. -/
theorem tagsOf_text (m : Model) : tagsOf m.text.toList = preambleTags ++ m.document.tags := by
  have htags := m.document.tagsOf_write 0 [] (legible_document m).plain
  rw [List.append_nil, show tagsOf [] = [] from by rw [tagsOf], List.append_nil] at htags
  rw [text_eq, String.toList_append, tagsOf_preamble_append, Element.render, htags]

end AttackDefense.Model
