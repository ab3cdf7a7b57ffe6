import AttackDefense.Proofs.Model.References

/-!
# The text of a model is lossless

Whatever the names, formulas and comments of a model hold, its text is well-formed, and a reader
finds in it just the declaration, the invariants, the labels and the queries of the model, in order:

    read m.text = some m.document                                                    (read_text)
    ∃ root, m.Lossless root                                                   (text_is_lossless)

The names of locations and the values of attributes have no character that is written as an entity,
so that they stand in the text as they are (`unescaped_document`).
-/

namespace AttackDefense.Model

open Automaton Markup

variable {m : Model} {i : StateId} {s : State}

/-! ## Texts without entities -/

theorem verbatim_natToString (n : Nat) : Verbatim (toString n) := by
  have hspecial : ∀ d ∈ specials, ¬ d.isDigit := by simp [specials, Char.isDigit]
  have hdigits : (toString n).toList = Nat.toDigits 10 n := String.toList_ofList
  intro c hc hd
  rw [hdigits] at hc
  exact hspecial c hd (Nat.isDigit_of_mem_toDigits (by decide) (by decide) hc)

theorem verbatim_intToString (x : Int) : Verbatim (toString x) := by
  cases x with
  | ofNat n => exact verbatim_natToString n
  | negSucc n => exact verbatim_append.2 ⟨(by decide : Verbatim "-"), verbatim_natToString (n + 1)⟩

theorem verbatim_reference (i : StateId) : Verbatim (reference i) :=
  verbatim_append.2 ⟨by decide, verbatim_natToString i⟩

theorem verbatim_tag (phase : Phase) : Verbatim phase.tag := by
  have htags : ∀ tag ∈ ["Attacker", "ActivationCost", "NoActivation", "Completion", "Defense"],
      Verbatim tag := by decide
  exact htags _ (by cases phase <;> simp [Phase.tag])

theorem verbatim_kind (l : Label) : Verbatim l.kind := by
  have hkinds : ∀ kind ∈ ["assignment", "guard", "probability"], Verbatim kind := by decide
  exact hkinds _ (by cases l <;> simp [Label.kind])

theorem verbatim_locationName (i : StateId) (s : State) : Verbatim (locationName i s) :=
  verbatim_append.2 ⟨verbatim_append.2 ⟨verbatim_tag s.phase, by decide⟩, verbatim_natToString i⟩

theorem verbatim_attributes (p : Position) : ∀ a ∈ p.attributes, Verbatim a.2 := by
  simp only [Position.attributes, List.forall_mem_cons]
  exact ⟨verbatim_intToString _, verbatim_intToString _, by simp⟩

/-- The tags of the elements whose text is a name. -/
def nameTags : List String := ["name", "system"]

/-- Values of attributes and names are written as they are. -/
def Unescaped (e : Element) : Prop :=
  ∀ x ∈ e.elements, (∀ a ∈ x.attributes, Verbatim a.2) ∧ (x.tag ∈ nameTags → Verbatim x.content)

section

variable {tag content : String} {attributes : List (String × String)} {children : List Element}

theorem unescaped_name (hcontent : Verbatim content) :
    Unescaped (.text tag attributes content) ↔ ∀ a ∈ attributes, Verbatim a.2 :=
  forall_elements_text.trans (and_iff_left fun _ => hcontent)

theorem unescaped_text (htag : tag ∉ nameTags) :
    Unescaped (.text tag attributes content) ↔ ∀ a ∈ attributes, Verbatim a.2 :=
  forall_elements_text.trans (and_iff_left fun h => absurd h htag)

theorem unescaped_block (htag : tag ∉ nameTags) : Unescaped (.block tag attributes children) ↔
    (∀ a ∈ attributes, Verbatim a.2) ∧ ∀ e ∈ children, Unescaped e :=
  forall_elements_block.trans (and_congr_left' (and_iff_left fun h => absurd h htag))

end

theorem unescaped_location : Unescaped (m.location i s) := by
  refine (unescaped_block (by decide)).2 ⟨?_, ?_⟩
  · rw [List.forall_mem_cons]
    exact ⟨verbatim_reference i, verbatim_attributes _⟩
  · simp only [List.forall_mem_cons]
    refine ⟨(unescaped_name (verbatim_locationName i s)).2 (verbatim_attributes _),
      (unescaped_text (by decide)).2 ?_, by simp⟩
    rw [List.forall_mem_cons]
    exact ⟨(by decide : Verbatim "invariant"), verbatim_attributes _⟩

theorem unescaped_transition (e : Edge) : Unescaped (m.transition e) := by
  have hreference (tag : String) (htag : tag ∉ nameTags) (i : StateId) :
      Unescaped (.text tag [("ref", reference i)] "") :=
    (unescaped_text htag).2 (List.forall_mem_singleton.2 (verbatim_reference i))
  rw [transition_eq]
  refine (unescaped_block (by decide)).2 ⟨by split <;> decide, ?_⟩
  rw [List.forall_mem_append, List.forall_mem_map]
  simp only [List.forall_mem_cons]
  refine ⟨⟨hreference "source" (by decide) _, hreference "target" (by decide) _, by simp⟩, ?_⟩
  intro l _
  rw [unescaped_text (by decide), List.forall_mem_cons]
  exact ⟨verbatim_kind l, verbatim_attributes _⟩

theorem unescaped_queries : Unescaped m.queriesElement := by
  unfold queriesElement
  split
  · exact (unescaped_text (by decide)).2 (by simp)
  · refine (unescaped_block (by decide)).2 ⟨by simp, ?_⟩
    rw [List.forall_mem_map]
    intro q _
    refine (unescaped_block (by decide)).2 ⟨by simp, ?_⟩
    simp only [List.forall_mem_cons]
    exact ⟨(unescaped_text (by decide)).2 (by simp), (unescaped_text (by decide)).2 (by simp),
      by simp⟩

theorem unescaped_template : Unescaped m.template := by
  have hblock : m.template = .block "template" [] m.template.children := rfl
  rw [hblock, unescaped_block (by decide), children_template]
  simp only [List.forall_mem_append, List.forall_mem_map]
  refine ⟨by simp, ⟨⟨⟨?_, fun x _ => unescaped_location⟩, fun x _ => ?_⟩, ?_⟩,
    fun e _ => unescaped_transition e⟩
  · simp only [heading, List.forall_mem_cons]
    exact ⟨(unescaped_name (by decide)).2 (by decide), (unescaped_text (by decide)).2 (by simp),
      (unescaped_text (by decide)).2 (by simp), by simp⟩
  · refine (unescaped_text (by decide)).2 ?_
    rw [List.forall_mem_cons]
    exact ⟨verbatim_reference _, verbatim_attributes _⟩
  · rw [List.forall_mem_singleton, unescaped_text (by decide), List.forall_mem_singleton]
    exact verbatim_reference _

theorem unescaped_document (m : Model) : Unescaped m.document := by
  refine (unescaped_block (by decide)).2 ⟨by simp, ?_⟩
  simp only [List.forall_mem_cons]
  exact ⟨(unescaped_text (by decide)).2 (by simp), unescaped_template,
    (unescaped_name (by decide)).2 (by simp), unescaped_queries, by simp⟩

/-! ## Reading the text -/

theorem wellFormed_document (m : Model) : WellFormed m.document.render :=
  (m.document.written_write 0 (legible_document m)).wellFormed

theorem prologue_preambleTags : ∀ tag ∈ preambleTags, tag? tag.toList = some .prologue := by
  have hhead : ∀ tag ∈ preambleTags, tag.toList.head? = some '?' ∨ tag.toList.head? = some '!' := by
    decide +kernel
  exact fun tag htag => tag?_prologue (hhead tag htag)

/-- **Reading.**  The text of a model is read back as its document. -/
theorem read_text (m : Model) : read m.text = some m.document := by
  obtain ⟨gap, raw, hgap, hraw, hrun⟩ := run_prologue bare_preambleTags prologue_preambleTags
    (by decide : Blank []) (by decide : Blank [])
  rw [← preamble_eq] at hrun
  rw [text_eq]
  exact read_append hgap hraw hrun (m.document.written_write 0 (legible_document m))

/-! ## What the document says -/

theorem tag_queriesElement : m.queriesElement.tag = "queries" := by
  unfold queriesElement
  split <;> rfl

theorem childrenTagged_queries : m.document.childrenTagged "queries" = [m.queriesElement] := by
  have htemplate : m.template.tag = "template" := rfl
  unfold document
  rw [Element.childrenTagged, Element.children]
  simp [tag_queriesElement, htemplate]

theorem childrenTagged_declaration :
    m.document.childrenTagged "declaration" = [.text "declaration" [] m.declaration] := by
  have htemplate : m.template.tag = "template" := rfl
  unfold document
  rw [Element.childrenTagged, Element.children]
  simp [tag_queriesElement, htemplate]

theorem childrenTagged_query :
    m.queriesElement.childrenTagged "query" = m.queries.map queryElement := by
  unfold queriesElement
  split
  · next h =>
    rw [h]
    rfl
  · exact filter_tag_map _ _ "query" "query" fun _ => rfl

theorem labels_location :
    (m.location i s).labels = [(some "invariant", (m.invariant s).text)] := rfl

theorem labels_transition (e : Edge) :
    (m.transition e).labels = (m.labelsOf e).1.map fun l => (some l.kind, l.text) := by
  rw [Element.labels, childrenTagged_transition_append, if_pos rfl, List.map_append, List.map_map]
  rfl

/-- A document from which all texts of a model are read. -/
structure Lossless (m : Model) (root : Element) : Prop where
  /-- Behind the preamble all that is opened is closed, in order, and all else is character data. -/
  wellFormed : ∃ body, m.text = preamble ++ body ∧ WellFormed body
  /-- It is what a reader finds in the text. -/
  read : Markup.read m.text = some root
  /-- Names and the values of attributes stand in the text as they are. -/
  unescaped : Unescaped root
  declaration : (root.path ["declaration"]).map Element.content = [m.declaration]
  /-- Each location has the invariant of its state. -/
  invariants : (root.path ["template", "location"]).map (fun l => (l.attribute? "id", l.labels)) =
    m.locations.map fun x => (some (reference x.1), [(some "invariant", (m.invariant x.2).text)])
  /-- Each transition has the labels of its edge. -/
  labels : (root.path ["template", "transition"]).map Element.labels =
    m.automaton.edges.toList.map fun e => (m.labelsOf e).1.map fun l => (some l.kind, l.text)
  queries : (root.path ["queries", "query"]).map
      (fun q => (q.contents "formula", q.contents "comment")) =
    m.queries.map fun q => ([q.formula], [q.comment])

/-- **Losslessness.**  The text of a model is well-formed, and all that the model says is read from
it, in order. -/
theorem text_is_lossless (m : Model) : ∃ root, m.Lossless root := by
  refine ⟨m.document, ?_⟩
  constructor
  case wellFormed => exact ⟨m.document.render, text_eq m, wellFormed_document m⟩
  case read => exact read_text m
  case unescaped => exact unescaped_document m
  case declaration =>
    simp only [Element.path, childrenTagged_declaration, List.flatMap_singleton]
    rfl
  case invariants =>
    simp only [Element.path, childrenTagged_document, childrenTagged_location,
      List.flatMap_singleton, List.flatMap_singleton', List.map_map]
    exact List.map_congr_left fun x _ => congrArg (some (reference x.1), ·) labels_location
  case labels =>
    simp only [Element.path, childrenTagged_document, childrenTagged_transition,
      List.flatMap_singleton, List.flatMap_singleton', List.map_map]
    exact List.map_congr_left fun e _ => labels_transition e
  case queries =>
    simp only [Element.path, childrenTagged_queries, childrenTagged_query, List.flatMap_singleton,
      List.flatMap_singleton', List.map_map]
    rfl

end AttackDefense.Model
