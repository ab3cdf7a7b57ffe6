import AttackDefense.Proofs.Markup.Elements

/-!
# Reading documents

A reader of marked-up texts, character by character, with a stack of the elements that are open
(`step`).  It refuses a tag that closes another element than the innermost one, text with a bracket,
a quote or a lone ampersand, attributes without quotes or with one key twice, and text beside
elements.  What it reads has all entities decoded, so a document that was written is read back:

    unescape (escape text).toList = text.toList                                  (unescape_escape)
    e.Legible → Written (e.write depth "") [e]                             (Element.written_write)
    Written text [e] → read (before ++ text) = some e                                (read_append)

`Written text es` says that a text is well-formed and adds some elements to the one that is open,
and nothing else.  Such texts can be put together (`Written.append`, `Written.block`), which is how
documents are written.
-/

namespace AttackDefense.Markup

/-! ## Character data -/

/-- What follows the ampersand of an entity. -/
def entities : List String := ["amp;", "lt;", "gt;", "quot;", "apos;"]

/-- No bracket and no quote stands in the text, and an ampersand only where an entity begins. -/
def isCharData : List Char → Bool
  | [] => true
  | c :: rest =>
    c ∉ ['<', '>', '\x22', '\x27'] && (c ≠ '&' || entities.any fun e => e.toList.isPrefixOf rest) &&
      isCharData rest

/-- The text that character data stands for. -/
def decode? (raw : List Char) : Option String :=
  if isCharData raw then some (String.ofList (unescape raw)) else none

theorem isCharData_escapeChar_append (c : Char) (rest : List Char) :
    isCharData (escapeChar c ++ rest) = isCharData rest := by
  unfold escapeChar
  split_ifs with h1 h2 h3 h4 h5
  case neg => simp [isCharData, h1, h2, h3, h4, h5]
  all_goals simp [isCharData, entities, List.isPrefixOf]

theorem unescape_escapeChar_append (c : Char) (rest : List Char) :
    unescape (escapeChar c ++ rest) = c :: unescape rest := by
  unfold escapeChar
  split_ifs with h1 h2 h3 h4 h5
  case neg => simp [unescape, h1]
  all_goals
    subst c
    rfl

theorem isCharData_escape (text : String) : isCharData (escape text).toList := by
  rw [escape, String.toList_ofList]
  induction text.toList with
  | nil => rfl
  | cons c cs ih => rw [List.flatMap_cons, isCharData_escapeChar_append, ih]

/-- **Entities.**  What was escaped is decoded again. -/
theorem unescape_escape (text : String) : unescape (escape text).toList = text.toList := by
  rw [escape, String.toList_ofList]
  induction text.toList with
  | nil => rfl
  | cons c cs ih => rw [List.flatMap_cons, unescape_escapeChar_append, ih]

theorem decode?_escape (text : String) : decode? (escape text).toList = some text := by
  rw [decode?, if_pos (isCharData_escape text), unescape_escape, String.ofList_toList]

/-- The characters that are written as entities. -/
def specials : List Char := ['&', '<', '>', '\x22', '\x27']

/-- A text without such characters. -/
def Verbatim (text : String) : Prop := ∀ c ∈ text.toList, c ∉ specials

instance : DecidablePred Verbatim := fun text => text.toList.decidableBAll fun c => c ∉ specials

theorem escapeChar_of_not_mem {c : Char} (h : c ∉ specials) : escapeChar c = [c] := by
  simp only [specials, List.mem_cons, not_or] at h
  simp [escapeChar, h]

/-- It is written as it is. -/
theorem Verbatim.escape_eq {text : String} (h : Verbatim text) : escape text = text := by
  have hflat : ∀ raw : List Char, (∀ c ∈ raw, c ∉ specials) → raw.flatMap escapeChar = raw := by
    intro raw h
    induction raw with
    | nil => rfl
    | cons c raw ih =>
      rw [List.forall_mem_cons] at h
      rw [List.flatMap_cons, escapeChar_of_not_mem h.1, ih h.2, List.singleton_append]
  rw [escape, hflat _ h, String.ofList_toList]

theorem verbatim_append {s t : String} : Verbatim (s ++ t) ↔ Verbatim s ∧ Verbatim t := by
  rw [Verbatim, String.toList_append]
  exact List.forall_mem_append

/-- White space only. -/
def Blank (raw : List Char) : Prop := ∀ c ∈ raw, c.isWhitespace

instance : DecidablePred Blank := fun raw => raw.decidableBAll fun c : Char => c.isWhitespace

theorem blank_append {raw rest : List Char} : Blank (raw ++ rest) ↔ Blank raw ∧ Blank rest :=
  List.forall_mem_append

theorem verbatim_of_blank {text : String} (h : Blank text.toList) : Verbatim text := by
  have hspecial : ∀ d ∈ specials, ¬ d.isWhitespace := by simp [specials, Char.isWhitespace]
  exact fun c hc hd => hspecial c hd (h c hc)

theorem isCharData_of_blank {text : String} (h : Blank text.toList) : isCharData text.toList := by
  rw [← (verbatim_of_blank h).escape_eq]
  exact isCharData_escape text

theorem decode?_of_blank {raw : List Char} (h : Blank raw) :
    decode? raw = some (String.ofList raw) := by
  rw [← String.toList_ofList (l := raw)] at h
  conv_lhs => rw [← String.toList_ofList (l := raw), ← (verbatim_of_blank h).escape_eq]
  exact decode?_escape _

/-! ## Tags -/

/-- A letter, and letters or digits behind it. -/
def isName : List Char → Bool
  | [] => false
  | c :: rest => c.isAlpha && rest.all Char.isAlphanum

/-- What a tag says. -/
inductive Tag where
  | opening (name : String) (attributes : List (String × String))
  | closing (name : String)
  /-- What may stand before the elements of a document. -/
  | prologue

/-- A key, and the equals sign behind it. -/
def key? (text : List Char) : Option String :=
  let name := text.dropLast
  if text.getLast? = some '=' ∧ isName name then some (String.ofList name) else none

/-- Attributes that were cut at their quotes. -/
def attributes? : List (List Char) → Option (List (String × String))
  | [[]] => some []
  | (' ' :: lead) :: raw :: rest => do
    let key ← key? lead
    let value ← decode? raw
    let others ← attributes? rest
    if key ∈ others.map Prod.fst then none else some ((key, value) :: others)
  | _ => none

/-- The tag between two brackets. -/
def tag? : List Char → Option Tag
  | '/' :: name => if isName name then some (.closing (String.ofList name)) else none
  | '?' :: _ | '!' :: _ => some .prologue
  | inner =>
    let name := inner.takeWhile (· ≠ ' ')
    if isName name then
      (attributes? ((inner.dropWhile (· ≠ ' ')).splitOn '\x22')).map (.opening (String.ofList name))
    else none

/-! ## The reader -/

/-- An element that is open, with what was read of it. -/
structure Open where
  tag : String
  attributes : List (String × String)
  content : String
  children : List Element

/-- An element is a text, or it is a block in which nothing but elements stands. -/
def Open.element? (o : Open) : Option Element :=
  match o.children with
  | [] => some (.text o.tag o.attributes o.content)
  | children =>
    if Blank o.content.toList then some (.block o.tag o.attributes children) else none

def Open.addContent (o : Open) (content : String) : Open :=
  { o with content := o.content ++ content }

def Open.addChild (o : Open) (e : Element) : Open := { o with children := o.children ++ [e] }

/-- The characters since the last tag, or since the bracket that opened this one. -/
inductive Span where
  | data (raw : List Char)
  | tag (inner : List Char)

structure Reader where
  /-- The open elements, the innermost one first; the last one stands for the whole text. -/
  stack : List Open
  span : Span

/-- What a tag does to the open elements. -/
def applyTag : Tag → List Open → Option (List Open)
  | .opening tag attributes, stack => some (⟨tag, attributes, "", []⟩ :: stack)
  | .closing tag, o :: outer :: below =>
    if o.tag = tag then o.element?.map fun e => outer.addChild e :: below else none
  | .closing _, _ => none
  | .prologue, [document] => if document.children.isEmpty then some [document] else none
  | .prologue, _ => none

/-- Reads one character. -/
def step : Reader → Char → Option Reader
  | ⟨stack, .data raw⟩, c =>
    if c = '<' then
      match stack with
      | [] => none
      | o :: below => (decode? raw).map fun content => ⟨o.addContent content :: below, .tag []⟩
    else some ⟨stack, .data (raw ++ [c])⟩
  | ⟨stack, .tag inner⟩, c =>
    if c = '>' then do
      let tag ← tag? inner
      let stack ← applyTag tag stack
      return ⟨stack, .data []⟩
    else if c = '<' then none
    else some ⟨stack, .tag (inner ++ [c])⟩

/-- The reader before the text. -/
def Reader.start : Reader := ⟨[⟨"", [], "", []⟩], .data []⟩

/-- The element that was read, if it is complete and the only one. -/
def Reader.result? : Reader → Option Element
  | ⟨[⟨_, _, content, [e]⟩], .data raw⟩ => if Blank content.toList ∧ Blank raw then some e else none
  | _ => none

/-- Reads a text. -/
def run (r : Reader) (text : String) : Option Reader := text.toList.foldlM step r

/-- The document that a text stands for. -/
def read (text : String) : Option Element := (run .start text).bind Reader.result?

/-! ## Heads of elements -/

/-- Tag and keys are names, and no key stands twice. -/
def IsHead (tag : String) (keys : List String) : Prop :=
  isName tag.toList ∧ (∀ key ∈ keys, isName key.toList) ∧ keys.Nodup

instance (tag : String) (keys : List String) : Decidable (IsHead tag keys) := instDecidableAnd

theorem isAlphanum_of_isName {name : List Char} (h : isName name) : ∀ c ∈ name, c.isAlphanum := by
  cases name with
  | nil => simp
  | cons c rest =>
    simp only [isName, Bool.and_eq_true, List.all_eq_true] at h
    rw [List.forall_mem_cons]
    exact ⟨by simp [Char.isAlphanum, h.1], h.2⟩

theorem ne_of_isName {name : List Char} (h : isName name) {d : Char} (hd : ¬ d.isAlphanum) :
    ∀ c ∈ name, c ≠ d := by
  rintro c hc rfl
  exact hd (isAlphanum_of_isName h c hc)

theorem bare_of_isName {name : List Char} (h : isName name) : Bare name :=
  fun c hc => ⟨ne_of_isName h (by decide) c hc, ne_of_isName h (by decide) c hc⟩

theorem ne_quote_of_isCharData {raw : List Char} (h : isCharData raw) : ∀ c ∈ raw, c ≠ '\x22' := by
  induction raw with
  | nil => simp
  | cons c raw ih =>
    simp only [isCharData, Bool.and_eq_true, decide_eq_true_eq] at h
    rw [List.forall_mem_cons]
    exact ⟨fun hc => h.1.1 (by simp [hc]), ih h.2⟩

theorem key?_append {key : String} (h : isName key.toList) :
    key? (key.toList ++ ['=']) = some key := by
  simp [key?, h]

/-- Attributes are told apart by their quotes. -/
theorem attributes?_flatMap {attributes : List (String × String)}
    (hkeys : ∀ a ∈ attributes, isName a.1.toList) (hnodup : (attributes.map Prod.fst).Nodup) :
    attributes? ((attributes.flatMap fun a => ' ' :: (a.1.toList ++ '=' :: '\x22' ::
      ((escape a.2).toList ++ ['\x22']))).splitOn '\x22') = some attributes := by
  induction attributes with
  | nil => rfl
  | cons a attributes ih =>
    rw [List.forall_mem_cons] at hkeys
    rw [List.map_cons, List.nodup_cons] at hnodup
    have hlead : ∀ c ∈ ' ' :: (a.1.toList ++ ['=']), (c == '\x22') = false := by
      simp only [List.forall_mem_cons, List.forall_mem_append]
      exact ⟨by decide, fun c hc => beq_false_of_ne (ne_of_isName hkeys.1 (by decide) c hc),
        by decide, by simp⟩
    have hraw : ∀ c ∈ (escape a.2).toList, (c == '\x22') = false := fun c hc =>
      beq_false_of_ne (ne_quote_of_isCharData (isCharData_escape a.2) c hc)
    have htext : ∀ rest : List Char, (' ' :: (a.1.toList ++ '=' :: '\x22' ::
        ((escape a.2).toList ++ ['\x22']))) ++ rest =
          (' ' :: (a.1.toList ++ ['='])) ++ '\x22' :: ((escape a.2).toList ++ '\x22' :: rest) := by
      simp
    rw [List.flatMap_cons, htext, List.splitOn, List.splitOnP_append_cons _ _ (by decide),
      List.splitOnP_append_cons _ _ (by decide), List.splitOnP_eq_singleton hlead,
      List.splitOnP_eq_singleton hraw]
    have ih := ih hkeys.2 hnodup.2
    rw [List.splitOn] at ih
    simp only [List.singleton_append, attributes?, key?_append hkeys.1, decode?_escape, ih]
    simp only [Option.bind_eq_bind, Option.bind_some, if_neg hnodup.1]

theorem toList_openText (tag : String) (attributes : List (String × String)) :
    (openText tag attributes).toList = tag.toList ++ attributes.flatMap fun a => ' ' ::
      (a.1.toList ++ '=' :: '\x22' :: ((escape a.2).toList ++ ['\x22'])) := by
  rw [openText, String.toList_append, String.toList_join, List.flatMap_map]
  simp

/-- A name is followed by attributes. -/
theorem tag?_append {name rest : List Char} (h : isName name) (hrest : ∀ c ∈ rest.head?, c = ' ') :
    tag? (name ++ rest) =
      (attributes? (rest.splitOn '\x22')).map (.opening (String.ofList name)) := by
  have hspace : ∀ c ∈ name, decide (c ≠ ' ') = true := fun c hc =>
    decide_eq_true (ne_of_isName h (by decide) c hc)
  have hcut : rest.takeWhile (· ≠ ' ') = [] ∧ rest.dropWhile (· ≠ ' ') = rest := by
    cases rest with
    | nil => exact ⟨rfl, rfl⟩
    | cons c rest =>
      obtain rfl : c = ' ' := hrest c rfl
      exact ⟨rfl, rfl⟩
  cases name with
  | nil => cases h
  | cons c name =>
    have hslash : c ≠ '/' := ne_of_isName h (by decide) c List.mem_cons_self
    have hquery : c ≠ '?' := ne_of_isName h (by decide) c List.mem_cons_self
    have hbang : c ≠ '!' := ne_of_isName h (by decide) c List.mem_cons_self
    rw [List.cons_append, tag?]
    · rw [← List.cons_append, List.takeWhile_append_of_pos hspace,
        List.dropWhile_append_of_pos hspace, hcut.1, hcut.2, List.append_nil, if_pos h]
    · exact fun _ heq => hslash (List.cons.inj heq).1
    · exact fun _ heq => hquery (List.cons.inj heq).1
    · exact fun _ heq => hbang (List.cons.inj heq).1

theorem tag?_openText {tag : String} {attributes : List (String × String)}
    (h : IsHead tag (attributes.map Prod.fst)) :
    tag? (openText tag attributes).toList = some (.opening tag attributes) := by
  obtain ⟨htag, hkeys, hnodup⟩ := h
  rw [List.forall_mem_map] at hkeys
  rw [toList_openText, tag?_append htag, attributes?_flatMap hkeys hnodup, String.ofList_toList]
  · rfl
  · cases attributes with
    | nil => simp
    | cons a attributes => simp

theorem tag?_closing {tag : String} (h : isName tag.toList) :
    tag? ("/" ++ tag).toList = some (.closing tag) := by
  rw [String.toList_append, show "/".toList = ['/'] from rfl, List.singleton_append, tag?, if_pos h,
    String.ofList_toList]

theorem tag?_prologue {inner : List Char} (h : inner.head? = some '?' ∨ inner.head? = some '!') :
    tag? inner = some .prologue := by
  cases inner with
  | nil => simp at h
  | cons c rest =>
    rcases h with h | h
    · obtain rfl : c = '?' := Option.some.inj h
      rfl
    · obtain rfl : c = '!' := Option.some.inj h
      rfl

/-! ## Texts that add elements -/

/-- Every tag that is opened is closed, in order, and all else is character data. -/
inductive WellFormed : String → Prop
  | data {raw : String} : isCharData raw.toList → WellFormed raw
  | element {inner tag body : String} {attributes : List (String × String)} :
    tag? inner.toList = some (.opening tag attributes) → WellFormed body →
      WellFormed ("<" ++ inner ++ ">" ++ body ++ closeTag tag)
  | append {s t : String} : WellFormed s → WellFormed t → WellFormed (s ++ t)

/-- The text is well-formed, and to read it adds some elements to the one that is open, and else
nothing but white space. -/
structure Written (text : String) (es : List Element) : Prop where
  wellFormed : WellFormed text
  reads : ∀ (o : Open) (below : List Open) (raw : List Char), Blank raw →
    ∃ gap raw', Blank gap ∧ Blank raw' ∧
      run ⟨o :: below, .data raw⟩ text =
        some ⟨⟨o.tag, o.attributes, o.content ++ String.ofList gap, o.children ++ es⟩ :: below,
          .data raw'⟩

variable {s t text tag : String} {es fs : List Element} {attributes : List (String × String)}

theorem run_append {r r' : Reader} (h : run r s = some r') : run r (s ++ t) = run r' t := by
  unfold run at *
  rw [String.toList_append, List.foldlM_append, h]
  rfl

theorem run_data {stack : List Open} {raw : List Char} (h : ∀ c ∈ text.toList, c ≠ '<') :
    run ⟨stack, .data raw⟩ text = some ⟨stack, .data (raw ++ text.toList)⟩ := by
  unfold run
  generalize text.toList = l at h ⊢
  induction l generalizing raw with
  | nil => simp
  | cons c l ih =>
    rw [List.forall_mem_cons] at h
    have hstep : step ⟨stack, .data raw⟩ c = some ⟨stack, .data (raw ++ [c])⟩ := by
      simp [step, h.1]
    rw [List.foldlM_cons, hstep, Option.bind_eq_bind, Option.bind_some, ih h.2]
    simp

theorem run_inner {stack : List Open} {inner : List Char} (h : Bare text.toList) :
    run ⟨stack, .tag inner⟩ text = some ⟨stack, .tag (inner ++ text.toList)⟩ := by
  unfold run
  generalize text.toList = l at h ⊢
  induction l generalizing inner with
  | nil => simp
  | cons c l ih =>
    rw [Bare, List.forall_mem_cons] at h
    have hstep : step ⟨stack, .tag inner⟩ c = some ⟨stack, .tag (inner ++ [c])⟩ := by
      simp [step, h.1.1, h.1.2]
    rw [List.foldlM_cons, hstep, Option.bind_eq_bind, Option.bind_some, ih h.2]
    simp

/-- A tag takes what stands before it as content. -/
theorem run_tag {o : Open} {below stack : List Open} {raw : List Char} {inner content : String}
    {tag : Tag} (hraw : decode? raw = some content) (hinner : Bare inner.toList)
    (htag : tag? inner.toList = some tag)
    (happly : applyTag tag (o.addContent content :: below) = some stack) :
    run ⟨o :: below, .data raw⟩ ("<" ++ inner ++ ">") = some ⟨stack, .data []⟩ := by
  have hopen : run ⟨o :: below, .data raw⟩ "<" = some ⟨o.addContent content :: below, .tag []⟩ := by
    simp [run, step, hraw]
  have hclose : run ⟨o.addContent content :: below, .tag inner.toList⟩ ">" =
      some ⟨stack, .data []⟩ := by
    simp [run, step, htag, happly]
  have hmiddle := run_append (t := inner) hopen
  rw [run_inner hinner, List.nil_append] at hmiddle
  rw [run_append hmiddle, hclose]

theorem written_of_blank (h : Blank text.toList) : Written text [] where
  wellFormed := .data (isCharData_of_blank h)
  reads := by
    intro o below raw hraw
    have hne : ∀ c ∈ text.toList, c ≠ '<' := by
      rintro c hc rfl
      exact absurd (h _ hc) (by decide)
    refine ⟨[], raw ++ text.toList, by simp [Blank], blank_append.2 ⟨hraw, h⟩, ?_⟩
    rw [run_data hne]
    simp

theorem Written.append (hs : Written s es) (ht : Written t fs) : Written (s ++ t) (es ++ fs) where
  wellFormed := hs.wellFormed.append ht.wellFormed
  reads := by
    intro o below raw hraw
    obtain ⟨gap, raw', hgap, hraw', hrun⟩ := hs.reads o below raw hraw
    obtain ⟨gap', raw'', hgap', hraw'', hrun'⟩ := ht.reads _ below raw' hraw'
    refine ⟨gap ++ gap', raw'', blank_append.2 ⟨hgap, hgap'⟩, hraw'', ?_⟩
    rw [run_append hrun, hrun', String.append_assoc, ← String.ofList_append, List.append_assoc]

/-- The opening tag of an element begins it. -/
theorem run_openTag (o : Open) (below : List Open) {raw : List Char}
    (h : IsHead tag (attributes.map Prod.fst)) (hraw : Blank raw) :
    run ⟨o :: below, .data raw⟩ (openTag tag attributes) =
      some ⟨⟨tag, attributes, "", []⟩ :: o.addContent (String.ofList raw) :: below, .data []⟩ := by
  have hkeys : ∀ a ∈ attributes, Bare a.1.toList := fun a ha =>
    bare_of_isName (h.2.1 a.1 (List.mem_map_of_mem ha))
  rw [openTag_eq]
  exact run_tag (decode?_of_blank hraw) (bare_openText (bare_of_isName h.1) hkeys)
    (tag?_openText h) rfl

/-- The closing tag of an element ends it. -/
theorem run_closeTag {o outer : Open} {below : List Open} {raw : List Char} {content : String}
    {e : Element} (htag : isName o.tag.toList) (hraw : decode? raw = some content)
    (he : (o.addContent content).element? = some e) :
    run ⟨o :: outer :: below, .data raw⟩ (closeTag o.tag) =
      some ⟨outer.addChild e :: below, .data []⟩ := by
  have hinner : Bare ("/" ++ o.tag).toList := by
    rw [String.toList_append, bare_append]
    exact ⟨by decide, bare_of_isName htag⟩
  have happly : applyTag (.closing o.tag) (o.addContent content :: outer :: below) =
      some (outer.addChild e :: below) := by
    rw [applyTag, if_pos (show (o.addContent content).tag = o.tag from rfl), he]
    rfl
  rw [closeTag_eq]
  exact run_tag hraw hinner (tag?_closing htag) happly

theorem WellFormed.between (h : IsHead tag (attributes.map Prod.fst)) (hbody : WellFormed text) :
    WellFormed (openTag tag attributes ++ text ++ closeTag tag) := by
  rw [openTag_eq]
  exact .element (tag?_openText h) hbody

theorem written_text (h : IsHead tag (attributes.map Prod.fst)) (content : String) :
    Written (openTag tag attributes ++ escape content ++ closeTag tag)
      [.text tag attributes content] where
  wellFormed := .between h (.data (isCharData_escape content))
  reads := by
    intro o below raw hraw
    have hne : ∀ c ∈ (escape content).toList, c ≠ '<' := fun c hc => (bare_escape content c hc).1
    refine ⟨raw, [], hraw, by simp [Blank], ?_⟩
    have hopen := run_append (t := escape content) (run_openTag o below h hraw)
    rw [run_data hne, List.nil_append] at hopen
    rw [run_append hopen]
    refine run_closeTag (o := ⟨tag, attributes, "", []⟩) h.1 (decode?_escape content) ?_
    simp [Open.addContent, Open.element?]

theorem Written.block (h : IsHead tag (attributes.map Prod.fst)) (hbody : Written text es)
    (hes : es ≠ []) :
    Written (openTag tag attributes ++ text ++ closeTag tag) [.block tag attributes es] where
  wellFormed := .between h hbody.wellFormed
  reads := by
    intro o below raw hraw
    obtain ⟨gap, raw', hgap, hraw', hrun⟩ := hbody.reads ⟨tag, attributes, "", []⟩
      (o.addContent (String.ofList raw) :: below) [] (by simp [Blank])
    refine ⟨raw, [], hraw, by simp [Blank], ?_⟩
    have hopen := run_append (t := text) (run_openTag o below h hraw)
    rw [hrun, List.nil_append, String.empty_append] at hopen
    rw [run_append hopen]
    refine run_closeTag (o := ⟨tag, attributes, String.ofList gap, es⟩) h.1
      (decode?_of_blank hraw') ?_
    have hblank : Blank (String.ofList gap ++ String.ofList raw').toList := by
      simpa [blank_append] using ⟨hgap, hraw'⟩
    cases es with
    | nil => exact absurd rfl hes
    | cons e es => exact if_pos hblank

/-! ## Documents -/

/-- Every element has a head that can be read, and no block is empty. -/
def Element.Legible (e : Element) : Prop :=
  ∀ x ∈ e.elements, IsHead x.tag (x.attributes.map Prod.fst) ∧
    match x with
    | .text .. => True
    | .block _ _ children => children ≠ []

theorem legible_text {content : String} :
    (Element.text tag attributes content).Legible ↔ IsHead tag (attributes.map Prod.fst) :=
  forall_elements_text.trans (and_iff_left trivial)

theorem legible_block : (Element.block tag attributes es).Legible ↔
    IsHead tag (attributes.map Prod.fst) ∧ es ≠ [] ∧ ∀ e ∈ es, e.Legible :=
  forall_elements_block.trans and_assoc

theorem Element.Legible.plain {e : Element} (h : e.Legible) : e.Plain := fun x hx =>
  ⟨bare_of_isName (h x hx).1.1, fun a ha =>
    bare_of_isName ((h x hx).1.2.1 a.1 (List.mem_map_of_mem ha))⟩

theorem blank_indentation (depth : Nat) : Blank (indentation depth).toList := by
  rw [indentation, String.toList_ofList]
  intro c hc
  rw [List.eq_of_mem_replicate hc]
  decide

theorem blank_newline : Blank "\n".toList := by decide

/-- An element on lines of its own. -/
theorem Written.line {e : Element} (h : Written text [e]) (depth : Nat) :
    Written (indentation depth ++ text ++ "\n") [e] := by
  have hline := ((written_of_blank (blank_indentation depth)).append h).append
    (written_of_blank blank_newline)
  simpa using hline

mutual

theorem Element.written_write (depth : Nat) :
    ∀ e : Element, e.Legible → Written (e.write depth "") [e]
  | .text tag attributes content, h => by
    have hline := (written_text (legible_text.1 h) content).line depth
    simpa [Element.write, String.append_assoc] using hline
  | .block tag attributes children, h => by
    obtain ⟨hhead, hne, hchildren⟩ := legible_block.1 h
    have hbody := ((written_of_blank blank_newline).append
      (written_writeAll (depth + 1) children hchildren)).append
        (written_of_blank (blank_indentation depth))
    rw [List.nil_append, List.append_nil] at hbody
    have hline := (hbody.block hhead hne).line depth
    rw [Element.write, writeAll_eq]
    simpa [String.append_assoc] using hline

theorem written_writeAll (depth : Nat) :
    ∀ es : List Element, (∀ e ∈ es, e.Legible) → Written (writeAll depth "" es) es
  | [], _ => written_of_blank (by simp [writeAll, Blank])
  | e :: es, h => by
    rw [writeAll, writeAll_eq, ← List.singleton_append]
    exact (Element.written_write depth e (h e List.mem_cons_self)).append
      (written_writeAll depth es fun x hx => h x (List.mem_cons_of_mem e hx))

end

/-- A tag on its line. -/
def tagLine (tag : String) : String := "<" ++ tag ++ ">" ++ "\n"

/-- Tags of the prologue, each on its line, leave nothing but white space. -/
theorem run_prologue {tags : List String} (hbare : ∀ tag ∈ tags, Bare tag.toList)
    (htags : ∀ tag ∈ tags, tag? tag.toList = some .prologue) {gap raw : List Char}
    (hgap : Blank gap) (hraw : Blank raw) :
    ∃ gap' raw', Blank gap' ∧ Blank raw' ∧
      run ⟨[⟨"", [], String.ofList gap, []⟩], .data raw⟩
          (String.join (tags.map tagLine)) =
        some ⟨[⟨"", [], String.ofList gap', []⟩], .data raw'⟩ := by
  induction tags generalizing gap raw with
  | nil => exact ⟨gap, raw, hgap, hraw, rfl⟩
  | cons tag tags ih =>
    rw [List.forall_mem_cons] at hbare htags
    obtain ⟨gap', raw', hgap', hraw', hrun⟩ := ih hbare.2 htags.2
      (blank_append.2 ⟨hgap, hraw⟩) blank_newline
    refine ⟨gap', raw', hgap', hraw', ?_⟩
    have htag : run ⟨[⟨"", [], String.ofList gap, []⟩], .data raw⟩ ("<" ++ tag ++ ">") =
        some ⟨[⟨"", [], String.ofList (gap ++ raw), []⟩], .data []⟩ := by
      rw [String.ofList_append]
      exact run_tag (decode?_of_blank hraw) hbare.1 htags.1 rfl
    have hnewline : run ⟨[⟨"", [], String.ofList (gap ++ raw), []⟩], .data []⟩ "\n" =
        some ⟨[⟨"", [], String.ofList (gap ++ raw), []⟩], .data "\n".toList⟩ := run_data (by simp)
    have hline := (run_append htag).trans hnewline
    rw [List.map_cons, String.join_cons, tagLine, run_append hline, hrun]

/-- **Reading.**  An element is read back, if the reader has found nothing before it. -/
theorem read_append {before : String} {gap raw : List Char} {e : Element} (hgap : Blank gap)
    (hraw : Blank raw)
    (hbefore : run .start before = some ⟨[⟨"", [], String.ofList gap, []⟩], .data raw⟩)
    (h : Written text [e]) :
    read (before ++ text) = some e := by
  obtain ⟨gap', raw', hgap', hraw', hrun⟩ :=
    h.reads ⟨"", [], String.ofList gap, []⟩ [] raw hraw
  have hblank : Blank (String.ofList gap ++ String.ofList gap').toList := by
    simpa [blank_append] using ⟨hgap, hgap'⟩
  rw [read, run_append hbefore, hrun, Option.bind_some]
  simp only [List.nil_append, Reader.result?, if_pos (And.intro hblank hraw')]

example : (read "<a>x &lt; y</a>").map Element.content = some "x < y" := by decide +kernel

example : ∀ text ∈ ["<a>x & y</a>", "<a><b></a></b>", "<a></a><a></a>"], (read text).isNone := by
  decide +kernel

end AttackDefense.Markup
