import AttackDefense.Proofs.Checker.Patterns

/-!
# Blocks of a report

A report that was put together from a preamble and a block for each of some formulas is cut into just
these blocks, whatever else stands in it, as long as no header does.  What is found in a block is
found behind its header:

    preamble and bodies without header → blocks (plainText (report preamble entries))
      = entries.map Entry.block                                               (blocks_report)
    firstMatch takeEstimate e.block.text = firstMatch takeEstimate e.body.toList
                                                               (firstMatch_takeEstimate_block)
-/

namespace AttackDefense.Checker

open Decimal

/-- What a checker reports on a formula. -/
structure Entry where
  formula : Nat
  /-- The text behind the header. -/
  body : String
deriving DecidableEq, Repr

def headerWord : String := "Verifying formula "

namespace Entry

def header (e : Entry) : String := headerWord ++ toString e.formula

def text (e : Entry) : String := e.header ++ e.body

def block (e : Entry) : Block := ⟨e.formula, e.text.toList⟩

@[simp] theorem block_formula (e : Entry) : e.block.formula = e.formula := rfl

end Entry

/-- A preamble, and a block for each entry. -/
def report (preamble : String) (entries : List Entry) : String :=
  preamble ++ String.join (entries.map Entry.text)

/-- A header begins somewhere in the text. -/
def HasHeader (text : String) : Prop :=
  ∃ s d t, text.toList = s ++ (headerWord.toList ++ d :: t) ∧ d.isDigit

/-- A report in which every header is the header of an entry, and in which nothing clears a line. -/
structure ReportOf (preamble : String) (entries : List Entry) : Prop where
  noEscape : '\x1b' ∉ (report preamble entries).toList
  nodup : (entries.map Entry.formula).Nodup
  lt_size : ∀ e ∈ entries, e.formula < UInt64.size
  preamble_plain : ¬ HasHeader preamble
  body_plain : ∀ e ∈ entries, ¬ HasHeader e.body
  /-- The number in a header ends with the header. -/
  digitsEnd : ∀ e ∈ entries, DigitsEnd e.body.toList

/-! ## Headers -/

section

variable {c : Char} {k n : Nat} {s text rest : List Char} {e : Entry} {done : Array Block}
  {current : Option (Nat × List Char)}

theorem exists_of_header? (h : header? text = some n) :
    ∃ d t, text = headerWord.toList ++ d :: t ∧ d.isDigit := by
  simp only [header?, Option.bind_eq_bind, Option.bind_eq_some_iff, afterWord_eq_some_iff] at h
  obtain ⟨behind, rfl, h⟩ := h
  cases behind with
  | nil => cases h
  | cons d t =>
    refine ⟨d, t, rfl, ?_⟩
    by_contra hd
    rw [List.takeWhile_cons_of_neg hd] at h
    cases h

theorem header?_of_digits (hk : k < UInt64.size) (hrest : DigitsEnd rest) :
    header? (headerWord.toList ++ (Nat.toDigits 10 k ++ rest)) = some k := by
  have hdigits : ∀ c ∈ Nat.toDigits 10 k, c.isDigit :=
    fun c hc => Nat.isDigit_of_mem_toDigits (by decide) (by decide) hc
  have hword : afterWord "Verifying formula " (headerWord.toList ++ (Nat.toDigits 10 k ++ rest)) =
      some (Nat.toDigits 10 k ++ rest) := afterWord_eq_some_iff.2 rfl
  simp only [header?, hword, Option.bind_eq_bind, Option.bind_some, takeWhile_digits hdigits hrest]
  split
  · exact absurd ‹_› (Nat.toDigits_ne_nil)
  · rw [digitsValue_toDigits, if_pos hk]

theorem header?_cons_of_ne (hc : c ≠ 'V') : header? (c :: rest) = none := by
  by_contra h
  obtain ⟨n, hn⟩ := Option.ne_none_iff_exists'.1 h
  obtain ⟨d, t, ht, -⟩ := exists_of_header? hn
  exact hc (List.cons.inj ht).1

/-- The text is empty, or it begins as headers do. -/
def BlockEnd (text : List Char) : Prop := ∀ c ∈ text.head?, c = 'V'

/-- No header begins in a text without one, also if another block follows. -/
theorem header?_append_of_not_hasHeader {body : String} (hbody : ¬ HasHeader body)
    (hrest : BlockEnd rest) (hne : s ≠ []) (hs : s <:+ body.toList) : header? (s ++ rest) = none := by
  have hdigit {d : Char} {t : List Char} (hd : d.isDigit) : rest ≠ d :: t := by
    rintro rfl
    rw [hrest d rfl] at hd
    revert hd
    decide
  by_contra h
  obtain ⟨n, hn⟩ := Option.ne_none_iff_exists'.1 h
  obtain ⟨d, t, ht, hd⟩ := exists_of_header? hn
  obtain ⟨before, hbefore⟩ := hs
  rcases List.append_eq_append_iff.1 ht with ⟨a, hword, hrest'⟩ | ⟨a, rfl, hrest'⟩
  · -- the header would begin in the text and go on in the next block
    cases a with
    | nil => exact hdigit hd hrest'
    | cons c a =>
      obtain rfl : c = 'V' := hrest c (by rw [hrest']; rfl)
      cases s with
      | nil => exact hne rfl
      | cons c' s =>
        have hmem : 'V' ∈ headerWord.toList.tail := by
          rw [hword]
          simp
        revert hmem
        decide
  · cases a with
    | nil => exact hdigit hd hrest'.symm
    | cons c a =>
      obtain ⟨rfl, rfl⟩ := List.cons.inj hrest'
      exact hbody ⟨before, d, a, hbefore.symm, hd⟩

/-! ## Cutting -/

/-- Text in which no header begins goes to the open block. -/
theorem cutBlocks_append (htext : ∀ s, s ≠ [] → s <:+ text → header? (s ++ rest) = none) :
    cutBlocks done current (text ++ rest) =
      cutBlocks done (current.map fun b => (b.1, text.reverse ++ b.2)) rest := by
  induction text generalizing current with
  | nil => simp
  | cons c text ih =>
    have hhead : header? (c :: (text ++ rest)) = none :=
      htext (c :: text) (by simp) (List.suffix_refl _)
    rw [List.cons_append, cutBlocks, hhead]
    refine (ih fun s hne hs => htext s hne (hs.trans (List.suffix_cons c text))).trans ?_
    rw [Option.map_map]
    congr 2
    funext b
    simp

theorem header_toList (e : Entry) :
    e.header.toList = headerWord.toList ++ Nat.toDigits 10 e.formula := by
  rw [Entry.header, String.toList_append]
  congr 1
  exact String.toList_ofList

theorem ne_of_mem_digits (hc : c ∈ Nat.toDigits 10 k) : c ≠ 'V' := by
  rintro rfl
  exact absurd (Nat.isDigit_of_mem_toDigits (by decide) (by decide) hc) (by decide)

/-- An entry closes the open block and opens the next one. -/
theorem cutBlocks_text (hk : e.formula < UInt64.size) (hdigits : DigitsEnd e.body.toList)
    (hbody : ¬ HasHeader e.body) (hrest : BlockEnd rest) :
    cutBlocks done current (e.text.toList ++ rest) =
      cutBlocks (cutBlocks.finish done current) (some (e.formula, e.text.toList.reverse)) rest := by
  have hword : headerWord.toList = 'V' :: headerWord.toList.tail := rfl
  have htext : e.text.toList = 'V' :: (headerWord.toList.tail ++ Nat.toDigits 10 e.formula) ++
      e.body.toList := by
    rw [Entry.text, String.toList_append, header_toList, ← List.cons_append, ← hword]
  have hbehind : DigitsEnd (e.body.toList ++ rest) := by
    cases hb : e.body.toList with
    | nil =>
      intro c hc
      obtain rfl := hrest c hc
      decide
    | cons c t =>
      rw [hb] at hdigits
      exact hdigits
  have hheader : header? ('V' :: (headerWord.toList.tail ++ Nat.toDigits 10 e.formula) ++
      (e.body.toList ++ rest)) = some e.formula := by
    rw [← List.cons_append, ← hword, List.append_assoc]
    exact header?_of_digits hk hbehind
  -- behind its first character the header holds no header
  have hinside (s : List Char) (hne : s ≠ [])
      (hs : s <:+ headerWord.toList.tail ++ Nat.toDigits 10 e.formula) :
      header? (s ++ (e.body.toList ++ rest)) = none := by
    cases s with
    | nil => exact absurd rfl hne
    | cons c s =>
      refine header?_cons_of_ne ?_
      rcases List.mem_append.1 (hs.subset List.mem_cons_self) with hc | hc
      · rintro rfl
        revert hc
        decide
      · exact ne_of_mem_digits hc
  rw [htext, List.append_assoc, List.cons_append, cutBlocks, ← List.cons_append, hheader]
  refine (cutBlocks_append hinside).trans ?_
  refine (cutBlocks_append fun s => header?_append_of_not_hasHeader hbody hrest).trans ?_
  simp

end

theorem blockEnd_join (entries : List Entry) :
    BlockEnd (String.join (entries.map Entry.text)).toList := by
  intro c hc
  cases entries with
  | nil => simp at hc
  | cons e entries =>
    have hne : headerWord.toList ≠ [] := by decide
    have hhead : headerWord.toList.head? = some 'V' := rfl
    simp only [List.map_cons, String.join_cons, Entry.text, String.toList_append, header_toList,
      List.append_assoc, List.head?_append_of_ne_nil _ hne, hhead] at hc
    exact (Option.some.inj hc).symm

theorem cutBlocks_join {entries : List Entry} (hk : ∀ e ∈ entries, e.formula < UInt64.size)
    (hdigits : ∀ e ∈ entries, DigitsEnd e.body.toList) (hbody : ∀ e ∈ entries, ¬ HasHeader e.body)
    (done : Array Block) (current : Option (Nat × List Char)) :
    cutBlocks done current (String.join (entries.map Entry.text)).toList =
      (cutBlocks.finish done current).toList ++ entries.map Entry.block := by
  induction entries generalizing done current with
  | nil => simp [cutBlocks]
  | cons e entries ih =>
    rw [List.forall_mem_cons] at hk hdigits hbody
    have hjoin : (String.join ((e :: entries).map Entry.text)).toList =
        e.text.toList ++ (String.join (entries.map Entry.text)).toList := by
      simp
    rw [hjoin, cutBlocks_text hk.1 hdigits.1 hbody.1 (blockEnd_join entries),
      ih hk.2 hdigits.2 hbody.2]
    simp [cutBlocks.finish, Entry.block]

/-! ## Clearing lines -/

theorem withoutWord_of_not_mem {c : Char} {word kept text : List Char} (h : c ∉ text) :
    withoutWord (c :: word) kept 0 text = kept.reverse ++ text := by
  induction text generalizing kept with
  | nil => simp [withoutWord]
  | cons d text ih =>
    obtain ⟨hne, htext⟩ := not_or.1 (List.mem_cons.not.1 h)
    have hprefix : (c :: word).isPrefixOf (d :: text) = false := by simp [List.isPrefixOf, hne]
    rw [withoutWord, hprefix, if_neg Bool.false_ne_true, ih htext]
    simp

/-- A text without escapes is read as it stands. -/
theorem plainText_of_not_mem {text : String} (h : '\x1b' ∉ text.toList) :
    plainText text = text.toList := by
  have hclear : "\x1b[2K".toList = '\x1b' :: "[2K".toList := rfl
  have hrest : "\x1b[K".toList = '\x1b' :: "[K".toList := rfl
  simp only [plainText, clearLine, List.foldl_cons, List.foldl_nil, hclear, hrest,
    withoutWord_of_not_mem h, List.reverse_nil, List.nil_append]

/-- **The blocks of a report are those of its entries.** -/
theorem blocks_report {preamble : String} {entries : List Entry} (h : ReportOf preamble entries) :
    blocks (plainText (report preamble entries)) = entries.map Entry.block := by
  have hpreamble : (report preamble entries).toList =
      preamble.toList ++ (String.join (entries.map Entry.text)).toList := String.toList_append
  rw [plainText_of_not_mem h.noEscape, hpreamble, blocks, cutBlocks_append fun s =>
    header?_append_of_not_hasHeader h.preamble_plain (blockEnd_join entries)]
  refine (cutBlocks_join h.lt_size h.digitsEnd h.body_plain #[] none).trans ?_
  simp [cutBlocks.finish]

/-! ## Looking into blocks -/

/-- The mark begins with no digit, and where the words of a header go on it does not fit. -/
def Foreign (mark : List Char) : Prop :=
  DigitsEnd mark ∧
    ∀ s ∈ headerWord.toList.tails, s ≠ [] → ¬ mark <+: s ∧ ¬ s <+: mark

instance (mark : List Char) : Decidable (Foreign mark) := inferInstanceAs (Decidable (_ ∧ _))

/-- What begins with a foreign mark is found in a block just where it is found behind the header. -/
theorem firstMatch_block {α : Type} {scan : List Char → Option α} {mark : String}
    (hscan : ∀ t a, scan t = some a → mark.toList <+: t) (hmark : Foreign mark.toList) (e : Entry) :
    firstMatch scan e.block.text = firstMatch scan e.body.toList := by
  have hnone {t : List Char} (h : ¬ mark.toList <+: t) : scan t = none :=
    Option.eq_none_iff_forall_ne_some.2 fun a ha => h (hscan t a ha)
  obtain ⟨hdigit, hword⟩ := hmark
  have htext : e.block.text =
      headerWord.toList ++ (Nat.toDigits 10 e.formula ++ e.body.toList) := by
    rw [Entry.block, Entry.text, String.toList_append, header_toList, List.append_assoc]
  rw [htext, firstMatch_append, firstMatch_append]
  · intro s hne hs
    cases s with
    | nil => exact absurd rfl hne
    | cons c s =>
      refine hnone fun hprefix => ?_
      have hc : c.isDigit :=
        Nat.isDigit_of_mem_toDigits (by decide) (by decide) (hs.subset List.mem_cons_self)
      cases hm : mark.toList with
      | nil =>
        have hapart := hword headerWord.toList (by decide) (by decide)
        exact hapart.1 (hm ▸ List.nil_prefix)
      | cons d m =>
        rw [hm] at hprefix hdigit
        obtain ⟨rfl, -⟩ := List.cons_prefix_cons.1 hprefix
        exact hdigit d rfl hc
  · intro s hne hs
    obtain ⟨hleft, hright⟩ := hword s ((List.mem_tails s _).2 hs) hne
    exact hnone fun hprefix => (List.prefix_or_prefix_of_prefix hprefix
      (List.prefix_append s _)).elim hleft hright

theorem foreign_satisfied : Foreign "Formula is satisfied.".toList := by decide

theorem foreign_estimate : Foreign "≈".toList := by decide

theorem foreign_interval : Foreign "in [".toList := by decide

end AttackDefense.Checker
