import AttackDefense.Checker.Report
import AttackDefense.Proofs.Decimal.Numerals

/-!
# Patterns in a text

What the patterns of a report are, without a scanner: an estimate is two numerals with `≈` before and
`±` between them, an interval is two numerals in brackets, and blanks may stand around each numeral.
The scanners find just these, and of the places where a pattern fits they take the first:

    takeNumeral text = some (n, rest) ↔ text = n ++ rest ∧ LongestNumeral n rest
                                                                    (takeNumeral_eq_some_iff)
    takeEstimate text = some m ↔ EstimateAt text m                 (takeEstimate_eq_some_iff)
    takeInterval text = some m ↔ IntervalAt text m                 (takeInterval_eq_some_iff)
    firstMatch scan text = some a ↔ FirstIn At text a                (firstMatch_eq_some_iff)
    mentions word text ↔ word.toList <:+: text                                (mentions_iff)
-/

namespace AttackDefense.Checker

open Decimal

/-! ## Numerals -/

section

variable {c : Char} {s m e n text rest : List Char}

/-- A prefix ends where a character stands that it cannot hold. -/
theorem eq_of_prefix_of_head {P : Char → Prop} (h : m <+: n) (hn : n <+: m ++ rest)
    (hchars : ∀ c ∈ n, P c) (hhead : ∀ c ∈ rest.head?, ¬ P c) : n = m := by
  obtain ⟨t, rfl⟩ := h
  cases t with
  | nil => exact List.append_nil m
  | cons c t =>
    obtain ⟨t', ht⟩ := (List.prefix_append_right_inj m).1 hn
    refine absurd (hchars c (by simp)) (hhead c ?_)
    rw [← ht]
    rfl

theorem takeSign_sound (text : List Char) :
    IsSign (takeSign text).1 ∧ (takeSign text).1 ++ (takeSign text).2 = text := by
  fun_cases takeSign text <;> exact ⟨by constructor, rfl⟩

theorem takeSign_append (hs : IsSign s) (hm : ∀ c ∈ m.head?, c ≠ '-' ∧ c ≠ '+') :
    takeSign (s ++ m) = (s, m) := by
  cases hs with
  | minus => rfl
  | plus => rfl
  | none =>
    cases m with
    | nil => rfl
    | cons c t =>
      obtain ⟨hminus, hplus⟩ := hm c rfl
      simp [takeSign, hminus, hplus]

theorem takeMantissa_sound (h : takeMantissa text = some (m, rest)) :
    IsMantissa m ∧ m ++ rest = text := by
  have htext := List.takeWhile_append_dropWhile (p := Char.isDigit) (l := text)
  have hdigits (t : List Char) : ∀ c ∈ t.takeWhile Char.isDigit, c.isDigit :=
    fun c hc => isDigit_of_mem_takeWhile hc
  revert h
  fun_cases takeMantissa text with
  | case1 | case3 => rintro ⟨⟩
  | case2 whole tail hdrop hwhole hplaces =>
    rintro ⟨⟩
    refine ⟨.fraction ⟨hplaces, hdigits tail⟩, ?_⟩
    rw [← htext, hdrop, show text.takeWhile Char.isDigit = [] from hwhole]
    simp
  | case4 whole tail hdrop hwhole =>
    rintro ⟨⟩
    refine ⟨.point ⟨hwhole, hdigits text⟩ (hdigits tail), ?_⟩
    conv_rhs => rw [← htext, hdrop]
    simp [whole]
  | case5 whole hwhole =>
    simp only [Option.some.injEq, Prod.mk.injEq]
    rintro ⟨rfl, rfl⟩
    exact ⟨.whole ⟨hwhole, hdigits text⟩, htext⟩

/-- A mantissa at the start of a text is found, or a longer one. -/
theorem takeMantissa_append (hm : IsMantissa m) (rest : List Char) :
    ∃ m' rest', takeMantissa (m ++ rest) = some (m', rest') ∧ m <+: m' := by
  have hpoint (t : List Char) : DigitsEnd ('.' :: t) := by simp
  cases hm with
  | whole h =>
    have hne : m ++ rest.takeWhile Char.isDigit ≠ [] := by simp [h.1]
    simp only [takeMantissa, List.takeWhile_append_of_pos h.2, List.dropWhile_append_of_pos h.2]
    split
    · exact absurd ‹_› hne
    · exact absurd ‹_› hne
    · exact ⟨_, _, rfl, by simp⟩
    · exact ⟨_, _, rfl, List.prefix_append m _⟩
  | @point w p h hp =>
    have htext : w ++ '.' :: p ++ rest = w ++ '.' :: (p ++ rest) := by simp
    simp only [takeMantissa, htext, takeWhile_digits h.2 (hpoint _),
      dropWhile_digits h.2 (hpoint _)]
    split
    · exact absurd rfl h.1
    · exact absurd rfl h.1
    · next heq =>
      cases heq
      exact ⟨_, _, rfl, by simp [List.takeWhile_append_of_pos hp]⟩
    · next hnot _ => exact absurd rfl (hnot _)
  | @fraction p h =>
    have hne : p ++ rest.takeWhile Char.isDigit ≠ [] := by simp [h.1]
    simp only [takeMantissa, List.cons_append, takeWhile_of_digitsEnd (hpoint _),
      dropWhile_of_digitsEnd (hpoint _), List.takeWhile_append_of_pos h.2]
    exact ⟨_, _, rfl, by simp⟩

theorem takeExponent_sound (text : List Char) :
    IsExponent (takeExponent text).1 ∧ (takeExponent text).1 ++ (takeExponent text).2 = text := by
  cases text with
  | nil => exact ⟨.none, rfl⟩
  | cons c rest =>
    obtain ⟨hs, hrest⟩ := takeSign_sound rest
    have hbehind := List.takeWhile_append_dropWhile (p := Char.isDigit) (l := (takeSign rest).2)
    simp only [takeExponent]
    split
    · next hc =>
      split
      · exact ⟨.none, rfl⟩
      · next hne =>
        refine ⟨.some hc hs ⟨hne, fun c hc => isDigit_of_mem_takeWhile hc⟩, ?_⟩
        simp only [List.cons_append, List.append_assoc, hbehind, hrest]
    · exact ⟨.none, rfl⟩

theorem takeExponent_append (he : IsExponent e) (rest : List Char) :
    e <+: (takeExponent (e ++ rest)).1 := by
  cases he with
  | none => exact List.nil_prefix
  | @some c s d hc hs hd =>
    have hhead : ∀ c ∈ (d ++ rest).head?, c ≠ '-' ∧ c ≠ '+' := by
      intro c hc
      rw [List.head?_append_of_ne_nil d hd.1] at hc
      exact sign_not_digit (.inl (hd.2 c (List.mem_of_mem_head? hc)))
    have hne : d ++ rest.takeWhile Char.isDigit ≠ [] := by simp [hd.1]
    simp only [takeExponent, List.cons_append, List.append_assoc, if_pos hc,
      takeSign_append hs hhead, List.takeWhile_append_of_pos hd.2]
    simp

theorem takeNumeral_sound (h : takeNumeral text = some (n, rest)) :
    IsNumeral n ∧ n ++ rest = text := by
  obtain ⟨hs, htext⟩ := takeSign_sound text
  simp only [takeNumeral, Option.bind_eq_bind, Option.bind_eq_some_iff] at h
  obtain ⟨⟨m, behind⟩, hm, h⟩ := h
  obtain ⟨hmantissa, hbehind⟩ := takeMantissa_sound hm
  obtain ⟨he, hrest⟩ := takeExponent_sound behind
  cases h
  refine ⟨.mk hs hmantissa he, ?_⟩
  rw [List.append_assoc, hrest, List.append_assoc, hbehind, htext]

/-- A numeral at the start of a text is found, or a longer one. -/
theorem takeNumeral_append (hn : IsNumeral n) (rest : List Char) :
    ∃ n' rest', takeNumeral (n ++ rest) = some (n', rest') ∧ n <+: n' := by
  obtain @⟨s, m, e, hs, hm, he⟩ := hn
  have hhead : ∀ c ∈ (m ++ (e ++ rest)).head?, c ≠ '-' ∧ c ≠ '+' := by
    obtain ⟨c, t, rfl, hc⟩ := hm.exists_cons
    simpa using sign_not_digit hc
  obtain ⟨m', behind, htake, hprefix⟩ := takeMantissa_append hm (e ++ rest)
  obtain ⟨hmantissa, hbehind⟩ := takeMantissa_sound htake
  refine ⟨s ++ m' ++ (takeExponent behind).1, (takeExponent behind).2, ?_, ?_⟩
  · simp [takeNumeral, List.append_assoc, takeSign_append hs hhead, htake]
  cases he with
  | none =>
    rw [List.append_nil]
    exact ((List.prefix_append_right_inj s).2 hprefix).trans (List.prefix_append _ _)
  | @some c s' d hc hs' hd =>
    -- the mark of the exponent ends the mantissa
    have hexponent := IsExponent.some hc hs' hd
    have hm' : m' = m := by
      refine eq_of_prefix_of_head hprefix ⟨behind, hbehind⟩ hmantissa.chars fun d hd => ?_
      exact hexponent.head_not d (by simpa using hd)
    subst hm'
    have heq : behind = c :: (s' ++ d) ++ rest := List.append_cancel_left hbehind
    rw [heq, List.prefix_append_right_inj]
    exact takeExponent_append hexponent rest

/-- A numeral with no longer one in its place. -/
def LongestNumeral (n rest : List Char) : Prop :=
  IsNumeral n ∧ ∀ m, IsNumeral m → m <+: n ++ rest → m.length ≤ n.length

/-- A numeral is the longest one if a character follows that no numeral has. -/
theorem longestNumeral_of_head (hn : IsNumeral n) (h : ∀ c ∈ rest.head?, ¬ IsNumeralChar c) :
    LongestNumeral n rest := by
  refine ⟨hn, fun m hm hprefix => ?_⟩
  rcases List.prefix_or_prefix_of_prefix hprefix (List.prefix_append n rest) with hmn | hnm
  · exact hmn.length_le
  · rw [eq_of_prefix_of_head hnm hprefix hm.chars h]

/-- **The scanner takes the longest numeral.** -/
theorem takeNumeral_eq_some_iff :
    takeNumeral text = some (n, rest) ↔ text = n ++ rest ∧ LongestNumeral n rest := by
  constructor
  · intro h
    obtain ⟨hn, rfl⟩ := takeNumeral_sound h
    refine ⟨rfl, hn, fun m hm ⟨t, ht⟩ => ?_⟩
    obtain ⟨n', rest', htake, hprefix⟩ := takeNumeral_append hm t
    rw [ht, h] at htake
    cases htake
    exact hprefix.length_le
  · rintro ⟨rfl, hn, hlongest⟩
    obtain ⟨n', rest', htake, hprefix⟩ := takeNumeral_append hn rest
    obtain ⟨hn', hrest⟩ := takeNumeral_sound htake
    have hle := hlongest n' hn' ⟨rest', hrest⟩
    obtain rfl : n = n' := hprefix.eq_of_length_le hle
    rw [htake, List.append_cancel_left hrest]

end

/-! ## Words and blanks -/

section

variable {word mark : String} {b text rest : List Char}

theorem afterWord_eq_some_iff : afterWord word text = some rest ↔ text = word.toList ++ rest := by
  rw [afterWord, ← String.length_toList]
  constructor
  · intro h
    split at h
    · next hprefix =>
      rw [List.isPrefixOf_iff_prefix, List.prefix_iff_eq_append] at hprefix
      rw [← hprefix, Option.some.inj h]
    · cases h
  · rintro rfl
    simp

/-- Blanks only. -/
def IsBlanks (b : List Char) : Prop := ∀ c ∈ b, isBlank c

theorem exists_skipBlanks (text : List Char) : ∃ b, IsBlanks b ∧ text = b ++ skipBlanks text :=
  ⟨text.takeWhile isBlank, fun c hc => List.all_eq_true.1 List.all_takeWhile c hc,
    List.takeWhile_append_dropWhile.symm⟩

theorem skipBlanks_append (hb : IsBlanks b) (hrest : ∀ c ∈ rest.head?, ¬ isBlank c) :
    skipBlanks (b ++ rest) = rest := by
  rw [skipBlanks, List.dropWhile_append_of_pos hb]
  cases rest with
  | nil => rfl
  | cons c rest => exact List.dropWhile_cons_of_neg (hrest c rfl)

/-- The mark begins with a character that is no blank and that no numeral has. -/
def IsMark (mark : String) : Prop := ∃ c t, mark.toList = c :: t ∧ ¬ isBlank c ∧ ¬ IsNumeralChar c

theorem IsMark.head_not_blank (h : IsMark mark) (rest : List Char) :
    ∀ c ∈ (mark.toList ++ rest).head?, ¬ isBlank c := by
  obtain ⟨c, t, heq, hblank, -⟩ := h
  simpa [heq] using hblank

theorem afterMark_eq_some_iff (hmark : IsMark mark) : afterMark mark text = some rest ↔
    ∃ b t, IsBlanks b ∧ text = b ++ (mark.toList ++ t) ∧ skipBlanks t = rest := by
  simp only [afterMark, Option.map_eq_some_iff, afterWord_eq_some_iff]
  constructor
  · rintro ⟨t, ht, rfl⟩
    obtain ⟨b, hb, htext⟩ := exists_skipBlanks text
    exact ⟨b, t, hb, by rw [htext, ht], rfl⟩
  · rintro ⟨b, t, hb, rfl, rfl⟩
    exact ⟨t, skipBlanks_append hb (hmark.head_not_blank t), rfl⟩

end

theorem not_isBlank_of_isNumeralChar {c : Char} (h : IsNumeralChar c) : ¬ isBlank c := by
  rcases h with h | rfl | rfl | rfl | rfl | rfl
  · simp only [Char.isDigit, isBlank, Bool.and_eq_true, decide_eq_true_eq, Bool.or_eq_true] at *
    rintro (rfl | hc)
    · revert h
      decide
    · rw [Char.le_def, Char.le_def] at hc
      grind
  all_goals decide

theorem head_not_blank_of_isNumeral {n : List Char} (h : IsNumeral n) (rest : List Char) :
    ∀ c ∈ (n ++ rest).head?, ¬ isBlank c := by
  obtain ⟨c, t, rfl, hc⟩ := h.exists_cons
  simpa using not_isBlank_of_isNumeralChar hc

/-! ## Pairs of numerals -/

section

variable {mark between : String} {n₁ n₂ text rest : List Char} {m : List Char × List Char}

/-- The text begins with a mark, a numeral, another mark and the longest numeral there; blanks may
stand before each numeral and before the second mark. -/
def PairAt (mark between : String) (text n₁ n₂ rest : List Char) : Prop :=
  ∃ b₁ b₂ b₃, IsBlanks b₁ ∧ IsBlanks b₂ ∧ IsBlanks b₃ ∧
    text = mark.toList ++ (b₁ ++ (n₁ ++ (b₂ ++ (between.toList ++ (b₃ ++ (n₂ ++ rest)))))) ∧
      IsNumeral n₁ ∧ LongestNumeral n₂ rest

/-- A mean and a deviation at the start of a text. -/
def EstimateAt (text : List Char) (m : List Char × List Char) : Prop :=
  ∃ rest, PairAt "≈" "±" text m.1 m.2 rest

/-- The two ends of an interval at the start of a text. -/
def IntervalAt (text : List Char) (m : List Char × List Char) : Prop :=
  ∃ b rest, IsBlanks b ∧ PairAt "in [" "," text m.1 m.2 (b ++ ("]".toList ++ rest))

/-- A numeral ends before blanks and a mark. -/
theorem longestNumeral_of_mark (hn : IsNumeral n₁) {b : List Char} (hb : IsBlanks b)
    (hmark : IsMark mark) : LongestNumeral n₁ (b ++ (mark.toList ++ rest)) := by
  refine longestNumeral_of_head hn fun c hc hchar => ?_
  cases b with
  | nil =>
    obtain ⟨d, t, heq, -, hd⟩ := hmark
    rw [heq] at hc
    exact hd (Option.some.inj hc ▸ hchar)
  | cons d b =>
    obtain rfl : d = c := Option.some.inj hc
    exact not_isBlank_of_isNumeralChar hchar (hb d List.mem_cons_self)

theorem takePair_eq_some_iff (hbetween : IsMark between) :
    takePair mark between text = some ((n₁, n₂), rest) ↔ PairAt mark between text n₁ n₂ rest := by
  simp only [takePair, Option.bind_eq_bind, Option.bind_eq_some_iff, afterWord_eq_some_iff,
    afterMark_eq_some_iff hbetween, Option.pure_def, Option.some.injEq, Prod.exists, Prod.mk.injEq,
    takeNumeral_eq_some_iff]
  constructor
  · rintro ⟨t, rfl, m₁, t₁, ⟨ht, hm₁, -⟩, t₂, ⟨b₂, t₃, hb₂, rfl, rfl⟩, m₂, t₄, ⟨ht₃, hm₂⟩,
      ⟨rfl, rfl⟩, rfl⟩
    obtain ⟨b₁, hb₁, ht⟩ := ht ▸ exists_skipBlanks t
    obtain ⟨b₃, hb₃, ht₃⟩ := ht₃ ▸ exists_skipBlanks t₃
    exact ⟨b₁, b₂, b₃, hb₁, hb₂, hb₃, by rw [ht, ht₃], hm₁, hm₂⟩
  · rintro ⟨b₁, b₂, b₃, hb₁, hb₂, hb₃, rfl, hn₁, hn₂⟩
    exact ⟨_, rfl, n₁, _, ⟨skipBlanks_append hb₁ (head_not_blank_of_isNumeral hn₁ _),
      longestNumeral_of_mark hn₁ hb₂ hbetween⟩, _, ⟨b₂, _, hb₂, rfl, rfl⟩, n₂, rest,
      ⟨skipBlanks_append hb₃ (head_not_blank_of_isNumeral hn₂.1 _), hn₂⟩, ⟨rfl, rfl⟩, rfl⟩

theorem isMark_plusMinus : IsMark "±" := ⟨'±', [], rfl, by decide, by unfold IsNumeralChar; decide⟩

theorem isMark_comma : IsMark "," := ⟨',', [], rfl, by decide, by unfold IsNumeralChar; decide⟩

theorem isMark_bracket : IsMark "]" := ⟨']', [], rfl, by decide, by unfold IsNumeralChar; decide⟩

theorem takeEstimate_eq_some_iff : takeEstimate text = some m ↔ EstimateAt text m := by
  simp only [takeEstimate, Option.map_eq_some_iff, Prod.exists, EstimateAt,
    ← takePair_eq_some_iff isMark_plusMinus]
  constructor
  · rintro ⟨m₁, m₂, rest, h, rfl⟩
    exact ⟨rest, h⟩
  · rintro ⟨rest, h⟩
    exact ⟨m.1, m.2, rest, h, rfl⟩

theorem takeInterval_eq_some_iff : takeInterval text = some m ↔ IntervalAt text m := by
  have hdiscard (o : Option (List Char)) : discard o = o.map fun _ => () := by cases o <;> rfl
  simp only [takeInterval, Option.bind_eq_bind, Option.bind_eq_some_iff, Prod.exists, IntervalAt,
    takePair_eq_some_iff isMark_comma, hdiscard, Option.map_eq_some_iff,
    afterMark_eq_some_iff isMark_bracket]
  constructor
  · rintro ⟨m₁, m₂, behind, h, -, ⟨-, ⟨b, rest, hb, rfl, -⟩, -⟩, hm⟩
    cases hm
    exact ⟨b, rest, hb, h⟩
  · rintro ⟨b, rest, hb, h⟩
    exact ⟨m.1, m.2, _, h, (), ⟨_, ⟨b, rest, hb, rfl, rfl⟩, trivial⟩, rfl⟩

end

/-! ## First matches -/

section

variable {α : Type} {At : List Char → α → Prop} {scan : List Char → Option α} {a : α} {c : Char}
  {pre text rest : List Char}

/-- A pattern fits somewhere in the text, and nowhere before. -/
def FirstIn (At : List Char → α → Prop) (text : List Char) (a : α) : Prop :=
  ∃ before tail, text = before ++ tail ∧ At tail a ∧
    ∀ b t, text = b ++ t → b.length < before.length → ∀ a', ¬ At t a'

theorem firstIn_cons :
    FirstIn At (c :: rest) a ↔ At (c :: rest) a ∨ (∀ a', ¬ At (c :: rest) a') ∧ FirstIn At rest a := by
  constructor
  · rintro ⟨before, tail, htext, hat, hfirst⟩
    cases before with
    | nil => exact .inl (htext ▸ hat)
    | cons d before =>
      obtain ⟨rfl, rfl⟩ := List.cons.inj htext
      refine .inr ⟨hfirst [] _ rfl (by simp), before, tail, rfl, hat, fun b t hbt hlt => ?_⟩
      exact hfirst (c :: b) t (congrArg (c :: ·) hbt) (by simpa using hlt)
  · rintro (hat | ⟨hnot, before, tail, rfl, hat, hfirst⟩)
    · exact ⟨[], c :: rest, rfl, hat, by simp⟩
    · refine ⟨c :: before, tail, rfl, hat, fun b t hbt hlt => ?_⟩
      cases b with
      | nil =>
        obtain rfl : c :: (before ++ tail) = t := hbt
        exact hnot
      | cons d b => exact hfirst b t (List.cons.inj hbt).2 (by simpa using hlt)

theorem firstIn_nil : FirstIn At [] a ↔ At [] a := by
  constructor
  · rintro ⟨before, tail, htext, hat, -⟩
    obtain ⟨-, rfl⟩ := List.append_eq_nil_iff.1 htext.symm
    exact hat
  · exact fun hat => ⟨[], [], rfl, hat, by simp⟩

/-- **The first match is the one at the first place where the pattern fits.** -/
theorem firstMatch_eq_some_iff (hscan : ∀ t a, scan t = some a ↔ At t a) :
    firstMatch scan text = some a ↔ FirstIn At text a := by
  induction text with
  | nil => rw [firstMatch, hscan, firstIn_nil]
  | cons c rest ih =>
    rw [firstIn_cons, firstMatch]
    cases h : scan (c :: rest) with
    | some b =>
      simp [← hscan, h]
    | none =>
      have hnone (a' : α) : ¬ At (c :: rest) a' := by simp [← hscan, h]
      simp [hnone, ih]

theorem firstMatch_eq_none_iff :
    firstMatch scan text = none ↔ ∀ t, t <:+ text → scan t = none := by
  induction text with
  | nil => simp [firstMatch]
  | cons c rest ih =>
    simp only [firstMatch, List.suffix_cons_iff, forall_eq_or_imp, ← ih]
    cases scan (c :: rest) <;> simp

/-- Text in front in which the pattern nowhere begins is passed over. -/
theorem firstMatch_append (h : ∀ s, s ≠ [] → s <:+ pre → scan (s ++ text) = none) :
    firstMatch scan (pre ++ text) = firstMatch scan text := by
  induction pre with
  | nil => rfl
  | cons c pre ih =>
    have hhead : scan (c :: (pre ++ text)) = none := h (c :: pre) (by simp) (List.suffix_refl _)
    rw [List.cons_append, firstMatch, hhead]
    exact ih fun s hne hs => h s hne (hs.trans (List.suffix_cons c pre))

theorem mentions_iff {word : String} : mentions word text ↔ word.toList <:+: text := by
  rw [← Bool.not_eq_false, mentions, Option.isSome_eq_false_iff, Option.isNone_iff_eq_none,
    firstMatch_eq_none_iff]
  simp only [Option.eq_none_iff_forall_ne_some, ne_eq, afterWord_eq_some_iff]
  constructor
  · intro h
    push Not at h
    obtain ⟨t, ht, rest, rfl⟩ := h
    exact ((List.prefix_append _ rest).isInfix).trans ht.isInfix
  · rintro ⟨before, behind, rfl⟩ h
    exact h (word.toList ++ behind) ⟨before, by simp⟩ behind rfl

end

end AttackDefense.Checker
