import AttackDefense.Markup.Element
import Mathlib.Data.List.Basic

/-!
# Elements and tags of documents

What can be asked of a document: the elements in it (`Element.elements`), and the attributes, the
children and the content of each.  The tags of a text are what stands between `<` and the next `>`
(`tagsOf`).  Nothing that is escaped has a bracket left, so the tags of a written document are those
of its elements, in order and nested as these are:

    e.write depth out = out ++ e.write depth ""                             (Element.write_eq)
    e.Plain → tagsOf ((e.write depth "").toList ++ rest) = e.tags ++ tagsOf rest
                                                                    (Element.tagsOf_write)
-/

namespace AttackDefense.Markup

/-! ## Parts of elements -/

namespace Element

def tag : Element → String
  | .text tag _ _ | .block tag _ _ => tag

@[simp] theorem tag_text (tag : String) (attributes : List (String × String)) (content : String) :
    (Element.text tag attributes content).tag = tag :=
  rfl

@[simp] theorem tag_block (tag : String) (attributes : List (String × String))
    (children : List Element) : (Element.block tag attributes children).tag = tag :=
  rfl

def attributes : Element → List (String × String)
  | .text _ attributes _ | .block _ attributes _ => attributes

def attribute? (e : Element) (key : String) : Option String := e.attributes.lookup key

def children : Element → List Element
  | .text .. => []
  | .block _ _ children => children

/-- The text in an element; a block has none. -/
def content : Element → String
  | .text _ _ content => content
  | .block .. => ""

/-- The children with a tag. -/
def childrenTagged (e : Element) (tag : String) : List Element := e.children.filter (·.tag = tag)

/-- The values of an attribute at the children with a tag. -/
def values (e : Element) (tag key : String) : List (Option String) :=
  (e.childrenTagged tag).map (·.attribute? key)

/-- The contents of the children with a tag. -/
def contents (e : Element) (tag : String) : List String := (e.childrenTagged tag).map content

/-- The elements that lie below one, each step with its tag. -/
def path (e : Element) : List String → List Element
  | [] => [e]
  | tag :: tags => (e.childrenTagged tag).flatMap (·.path tags)

/-- The labels of an element, each with its kind. -/
def labels (e : Element) : List (Option String × String) :=
  (e.childrenTagged "label").map fun l => (l.attribute? "kind", l.content)

end Element

mutual

/-- An element and all elements in it. -/
def Element.elements : Element → List Element
  | .text tag attributes content => [.text tag attributes content]
  | .block tag attributes children => .block tag attributes children :: elementsOf children

def elementsOf : List Element → List Element
  | [] => []
  | e :: rest => e.elements ++ elementsOf rest

end

theorem elementsOf_eq_flatMap (es : List Element) : elementsOf es = es.flatMap Element.elements := by
  induction es with
  | nil => rfl
  | cons e es ih => rw [elementsOf, ih, List.flatMap_cons]

theorem mem_elements_block {tag : String} {attributes : List (String × String)}
    {children : List Element} {e x : Element} (he : e ∈ children) (hx : x ∈ e.elements) :
    x ∈ (Element.block tag attributes children).elements := by
  rw [Element.elements, elementsOf_eq_flatMap]
  exact List.mem_cons_of_mem _ (List.mem_flatMap.2 ⟨e, he, hx⟩)

section

variable {p : Element → Prop} {tag : String} {attributes : List (String × String)}

theorem forall_elements_text {content : String} :
    (∀ x ∈ (Element.text tag attributes content).elements, p x) ↔ p (.text tag attributes content) :=
  List.forall_mem_singleton

theorem forall_elements_block {children : List Element} :
    (∀ x ∈ (Element.block tag attributes children).elements, p x) ↔
      p (.block tag attributes children) ∧ ∀ e ∈ children, ∀ x ∈ e.elements, p x := by
  rw [Element.elements, List.forall_mem_cons, elementsOf_eq_flatMap, List.forall_mem_flatMap]

end

/-! ## Tags of a text -/

/-- The tags of a text, each without its brackets. -/
def tagsOf : List Char → List String
  | [] => []
  | c :: rest =>
    if c = '<' then String.ofList (rest.takeWhile (· ≠ '>')) :: tagsOf (rest.dropWhile (· ≠ '>'))
    else tagsOf rest
termination_by text => text.length
decreasing_by
  · exact Nat.lt_succ_of_le (List.dropWhile_sublist _).length_le
  · exact Nat.lt_succ_self _

/-- No bracket stands in the text. -/
def Bare (text : List Char) : Prop := ∀ c ∈ text, c ≠ '<' ∧ c ≠ '>'

instance : DecidablePred Bare := fun text => text.decidableBAll fun c => c ≠ '<' ∧ c ≠ '>'

theorem bare_append {text rest : List Char} : Bare (text ++ rest) ↔ Bare text ∧ Bare rest :=
  List.forall_mem_append

theorem bare_flatMap {α : Type} {l : List α} {f : α → List Char} :
    Bare (l.flatMap f) ↔ ∀ a ∈ l, Bare (f a) :=
  List.forall_mem_flatMap

theorem bare_escape (text : String) : Bare (escape text).toList := by
  rw [escape, String.toList_ofList, bare_flatMap]
  intro c _
  unfold escapeChar Bare
  split_ifs with h1 h2 h3 h4 h5
  all_goals simp [*]

theorem tagsOf_append_of_bare {text : List Char} (h : Bare text) (rest : List Char) :
    tagsOf (text ++ rest) = tagsOf rest := by
  induction text with
  | nil => rfl
  | cons c text ih =>
    rw [List.cons_append, tagsOf, if_neg (h c List.mem_cons_self).1]
    exact ih fun d hd => h d (List.mem_cons_of_mem c hd)

/-- A tag at the front of a text. -/
theorem tagsOf_tag_append {inner : String} (h : Bare inner.toList) (rest : List Char) :
    tagsOf (("<" ++ inner ++ ">").toList ++ rest) = inner :: tagsOf rest := by
  have hinner : ∀ c ∈ inner.toList, decide (c ≠ '>') = true :=
    fun c hc => decide_eq_true (h c hc).2
  have hsplit : ("<" ++ inner ++ ">").toList ++ rest = '<' :: (inner.toList ++ '>' :: rest) := by
    simp
  rw [hsplit, tagsOf, if_pos rfl, List.takeWhile_append_of_pos hinner,
    List.dropWhile_append_of_pos hinner]
  simp [tagsOf]

/-! ## Tags of elements -/

/-- An opening tag without its brackets. -/
def openText (tag : String) (attributes : List (String × String)) : String :=
  tag ++ String.join (attributes.map fun (k, v) => " " ++ k ++ "=\"" ++ escape v ++ "\"")

mutual

/-- The tags of an element and of all elements in it. -/
def Element.tags : Element → List String
  | .text tag attributes _ => [openText tag attributes, "/" ++ tag]
  | .block tag attributes children =>
    openText tag attributes :: (tagsOfAll children ++ ["/" ++ tag])

def tagsOfAll : List Element → List String
  | [] => []
  | e :: rest => e.tags ++ tagsOfAll rest

end

theorem openTag_eq (tag : String) (attributes : List (String × String)) :
    openTag tag attributes = "<" ++ openText tag attributes ++ ">" := by
  have hfold : ∀ out : String,
      attributes.foldl (fun out (k, v) => out ++ " " ++ k ++ "=\"" ++ escape v ++ "\"") out =
        out ++ String.join (attributes.map fun (k, v) => " " ++ k ++ "=\"" ++ escape v ++ "\"") := by
    induction attributes with
    | nil => simp
    | cons a attributes ih =>
      intro out
      rw [List.foldl_cons, ih, List.map_cons, String.join_cons]
      simp only [String.append_assoc]
  rw [openTag, hfold, openText]
  simp only [String.append_assoc]

theorem closeTag_eq (tag : String) : closeTag tag = "<" ++ ("/" ++ tag) ++ ">" := by
  simp [closeTag, ← String.append_assoc]

/-- The names of tags and of attributes have no brackets. -/
def Element.Plain (e : Element) : Prop :=
  ∀ x ∈ e.elements, Bare x.tag.toList ∧ ∀ a ∈ x.attributes, Bare a.1.toList

theorem plain_text {tag content : String} {attributes : List (String × String)} :
    (Element.text tag attributes content).Plain ↔
      Bare tag.toList ∧ ∀ a ∈ attributes, Bare a.1.toList :=
  forall_elements_text

theorem plain_block {tag : String} {attributes : List (String × String)} {children : List Element} :
    (Element.block tag attributes children).Plain ↔ Bare tag.toList ∧
      (∀ a ∈ attributes, Bare a.1.toList) ∧ ∀ e ∈ children, e.Plain :=
  forall_elements_block.trans and_assoc

theorem bare_openText {tag : String} {attributes : List (String × String)} (htag : Bare tag.toList)
    (hkeys : ∀ a ∈ attributes, Bare a.1.toList) : Bare (openText tag attributes).toList := by
  rw [openText, String.toList_append, bare_append, String.toList_join, bare_flatMap]
  refine ⟨htag, fun text htext => ?_⟩
  obtain ⟨a, ha, rfl⟩ := List.mem_map.1 htext
  simp only [String.toList_append, bare_append]
  exact ⟨⟨⟨⟨by decide, hkeys a ha⟩, by decide⟩, bare_escape _⟩, by decide⟩

/-! ## Writing -/

theorem bare_indentation (depth : Nat) : Bare (indentation depth).toList := by
  rw [indentation, String.toList_ofList]
  intro c hc
  rw [List.eq_of_mem_replicate hc]
  decide

mutual

/-- What is written stands behind what is there. -/
theorem Element.write_eq (depth : Nat) (out : String) :
    ∀ e : Element, e.write depth out = out ++ e.write depth ""
  | .text tag attributes content => by simp [Element.write, String.append_assoc]
  | .block tag attributes children => by
    rw [Element.write, Element.write, writeAll_eq _ _ children,
      writeAll_eq _ ("" ++ indentation depth ++ openTag tag attributes ++ "\n") children]
    simp only [String.append_assoc, String.empty_append]

theorem writeAll_eq (depth : Nat) (out : String) :
    ∀ es : List Element, writeAll depth out es = out ++ writeAll depth "" es
  | [] => by simp [writeAll]
  | e :: rest => by
    rw [writeAll, writeAll, Element.write_eq depth out e, writeAll_eq depth (out ++ _) rest,
      writeAll_eq depth (e.write depth "") rest, String.append_assoc]

end

theorem tagsOf_openTag_append {tag : String} {attributes : List (String × String)}
    (htag : Bare tag.toList) (hkeys : ∀ a ∈ attributes, Bare a.1.toList) (rest : List Char) :
    tagsOf ((openTag tag attributes).toList ++ rest) = openText tag attributes :: tagsOf rest := by
  rw [openTag_eq, tagsOf_tag_append (bare_openText htag hkeys)]

theorem tagsOf_closeTag_append {tag : String} (htag : Bare tag.toList) (rest : List Char) :
    tagsOf ((closeTag tag).toList ++ rest) = ("/" ++ tag) :: tagsOf rest := by
  have hinner : Bare ("/" ++ tag).toList := by
    rw [String.toList_append, bare_append]
    exact ⟨by decide, htag⟩
  rw [closeTag_eq, tagsOf_tag_append hinner]

theorem bare_newline : Bare "\n".toList := by decide

mutual

/-- **Tags.**  The tags of what is written of a document are those of its elements. -/
theorem Element.tagsOf_write (depth : Nat) (rest : List Char) :
    ∀ e : Element, e.Plain → tagsOf ((e.write depth "").toList ++ rest) = e.tags ++ tagsOf rest
  | .text tag attributes content, h => by
    obtain ⟨htag, hkeys⟩ := plain_text.1 h
    rw [Element.write, Element.tags]
    simp only [String.empty_append, String.toList_append, List.append_assoc]
    rw [tagsOf_append_of_bare (bare_indentation depth), tagsOf_openTag_append htag hkeys,
      tagsOf_append_of_bare (bare_escape content), tagsOf_closeTag_append htag,
      tagsOf_append_of_bare bare_newline]
    rfl
  | .block tag attributes children, h => by
    obtain ⟨htag, hkeys, hchildren⟩ := plain_block.1 h
    rw [Element.write, writeAll_eq, Element.tags]
    simp only [String.empty_append, String.toList_append, List.append_assoc]
    rw [tagsOf_append_of_bare (bare_indentation depth), tagsOf_openTag_append htag hkeys,
      tagsOf_append_of_bare bare_newline, tagsOf_writeAll (depth + 1) _ children hchildren,
      tagsOf_append_of_bare (bare_indentation depth), tagsOf_closeTag_append htag,
      tagsOf_append_of_bare bare_newline]
    simp

theorem tagsOf_writeAll (depth : Nat) (rest : List Char) :
    ∀ es : List Element, (∀ e ∈ es, e.Plain) →
      tagsOf ((writeAll depth "" es).toList ++ rest) = tagsOfAll es ++ tagsOf rest
  | [], _ => by simp [writeAll, tagsOfAll]
  | e :: es, h => by
    rw [writeAll, writeAll_eq, tagsOfAll, String.toList_append, List.append_assoc,
      Element.tagsOf_write depth _ e (h e List.mem_cons_self),
      tagsOf_writeAll depth rest es fun x hx => h x (List.mem_cons_of_mem e hx), List.append_assoc]

end

end AttackDefense.Markup
