import AttackDefense.Proofs.Checker.Patterns
import AttackDefense.Proofs.Except
import Mathlib.Computability.RegularExpressions

/-!
# Patterns as regular expressions

The patterns of a report, spelled as regular expressions:

    number    [-+]?(\d+(\.\d*)?|\.\d+)([eE][-+]?\d+)?
    estimate  ≈\s*(number)\s*±\s*(number)
    interval  in \[\s*(number)\s*,\s*(number)\s*\]

What `number` matches is what a numeral is, so whatever a pattern captures has a value; and the
scanners capture what these patterns fit, at the first place where they do:

    n ∈ number.matches' ↔ IsNumeral n                                         (mem_number)
    Obeys takeEstimate estimate, Obeys takeInterval interval   (obeys_estimate, obeys_interval)

So reading a report may fail because something is missing in it, but never on a number
(`captured_numbers_are_read`).
-/

namespace AttackDefense.Checker

open Decimal RegularExpression

/-! ## Expressions -/

/-- One of some characters. -/
def oneOf (chars : List Char) : RegularExpression Char := (chars.map char).sum

/-- A word. -/
def word (text : String) : RegularExpression Char := (text.toList.map char).prod

def optional (p : RegularExpression Char) : RegularExpression Char := 1 + p

def sign : RegularExpression Char := optional (oneOf ['-', '+'])

def digit : RegularExpression Char := oneOf "0123456789".toList

def digits : RegularExpression Char := digit * digit.star

def number : RegularExpression Char :=
  sign * (digits * optional (char '.' * digit.star) + char '.' * digits) *
    optional (oneOf ['e', 'E'] * sign * digits)

def blanks : RegularExpression Char := (oneOf [' ', '\t', '\n', '\x0b', '\x0c', '\r']).star

section

variable {p q : RegularExpression Char} {x n : List Char} {c : Char} {chars : List Char}

theorem mem_matches'_mul :
    x ∈ (p * q).matches' ↔ ∃ a ∈ p.matches', ∃ b ∈ q.matches', a ++ b = x := by
  rw [matches'_mul, Language.mem_mul]

theorem mem_matches'_char : x ∈ (char c).matches' ↔ x = [c] := Iff.rfl

theorem mem_optional : x ∈ (optional p).matches' ↔ x = [] ∨ x ∈ p.matches' := by
  rw [optional, matches'_add, Language.mem_add, matches'_epsilon, Language.mem_one]

theorem mem_oneOf : x ∈ (oneOf chars).matches' ↔ ∃ c ∈ chars, x = [c] := by
  unfold oneOf
  induction chars with
  | nil => simp
  | cons c chars ih =>
    rw [List.map_cons, List.sum_cons, matches'_add, Language.mem_add, ih, mem_matches'_char]
    simp

theorem mem_word {w : String} : x ∈ (word w).matches' ↔ x = w.toList := by
  unfold word
  induction w.toList generalizing x with
  | nil => rw [List.map_nil, List.prod_nil, matches'_epsilon, Language.mem_one]
  | cons c rest ih =>
    rw [List.map_cons, List.prod_cons, mem_matches'_mul]
    simp only [mem_matches'_char, ih, exists_eq_left, List.singleton_append]
    exact eq_comm

theorem mem_star_oneOf : x ∈ (oneOf chars).star.matches' ↔ ∀ c ∈ x, c ∈ chars := by
  rw [matches'_star, Language.mem_kstar]
  simp only [mem_oneOf]
  constructor
  · rintro ⟨parts, rfl, hparts⟩ c hc
    obtain ⟨part, hpart, hc⟩ := List.mem_flatten.1 hc
    obtain ⟨d, hd, rfl⟩ := hparts part hpart
    exact List.mem_singleton.1 hc ▸ hd
  · intro h
    refine ⟨x.map fun c => [c], by rw [← List.flatMap_def, List.flatMap_singleton'], ?_⟩
    rw [List.forall_mem_map]
    exact fun c hc => ⟨c, h c hc, rfl⟩

/-! ## Numbers -/

/-- What holds of the characters of some codes holds of a character with one of the codes. -/
theorem of_codes {P : Char → Prop} (low count : Nat)
    (h : ∀ code ∈ List.range' low count, P (Char.ofNat code)) (hlow : low ≤ c.toNat)
    (hhigh : c.toNat < low + count) : P c := by
  rw [← Char.ofNat_toNat c]
  exact h _ (List.mem_range'_1.2 ⟨hlow, hhigh⟩)

theorem isDigit_iff : c.isDigit ↔ c ∈ "0123456789".toList := by
  constructor
  · intro h
    simp only [Char.isDigit, Bool.and_eq_true, decide_eq_true_eq] at h
    exact of_codes 48 10 (by decide) h.1 (Nat.lt_succ_of_le h.2)
  · have hdigits : "0123456789".toList.all Char.isDigit := by decide
    exact List.all_eq_true.1 hdigits c

theorem isBlank_iff : isBlank c ↔ c ∈ [' ', '\t', '\n', '\x0b', '\x0c', '\r'] := by
  constructor
  · intro h
    simp only [isBlank, Bool.or_eq_true, Bool.and_eq_true, decide_eq_true_eq] at h
    rcases h with rfl | h
    · decide
    · exact of_codes 9 5 (by decide) h.1 (Nat.lt_succ_of_le h.2)
  · have hblanks : [' ', '\t', '\n', '\x0b', '\x0c', '\r'].all isBlank := by decide
    exact List.all_eq_true.1 hblanks c

theorem mem_sign : x ∈ sign.matches' ↔ IsSign x := by
  rw [sign, mem_optional, mem_oneOf]
  constructor
  · rintro (rfl | ⟨c, hc, rfl⟩)
    · exact .none
    · rcases List.mem_pair.1 hc with rfl | rfl
      · exact .minus
      · exact .plus
  · rintro (_ | _ | _) <;> simp

theorem mem_star_digit : x ∈ digit.star.matches' ↔ ∀ c ∈ x, c.isDigit := by
  rw [digit, mem_star_oneOf]
  simp only [isDigit_iff]

theorem mem_digits : x ∈ digits.matches' ↔ IsDigits x := by
  simp only [digits, mem_matches'_mul, mem_star_digit, IsDigits]
  simp only [digit, mem_oneOf, ← isDigit_iff]
  constructor
  · rintro ⟨_, ⟨c, hc, rfl⟩, rest, hrest, rfl⟩
    exact ⟨by simp, List.forall_mem_cons.2 ⟨hc, hrest⟩⟩
  · rintro ⟨hne, hx⟩
    cases x with
    | nil => exact absurd rfl hne
    | cons c rest =>
      rw [List.forall_mem_cons] at hx
      exact ⟨[c], ⟨c, hx.1, rfl⟩, rest, hx.2, rfl⟩

theorem mem_mantissa :
    x ∈ (digits * optional (char '.' * digit.star) + char '.' * digits).matches' ↔
      IsMantissa x := by
  simp only [matches'_add, Language.mem_add, mem_matches'_mul, mem_optional, mem_matches'_char,
    mem_digits, mem_star_digit]
  constructor
  · rintro (⟨w, hw, _, rfl | ⟨_, rfl, p, hp, rfl⟩, rfl⟩ | ⟨_, rfl, p, hp, rfl⟩)
    · rw [List.append_nil]
      exact .whole hw
    · exact .point hw hp
    · exact .fraction hp
  · rintro (hw | ⟨hw, hp⟩ | hp)
    · exact .inl ⟨_, hw, [], .inl rfl, List.append_nil _⟩
    · exact .inl ⟨_, hw, _, .inr ⟨_, rfl, _, hp, rfl⟩, rfl⟩
    · exact .inr ⟨_, rfl, _, hp, rfl⟩

theorem mem_exponent :
    x ∈ (optional (oneOf ['e', 'E'] * sign * digits)).matches' ↔ IsExponent x := by
  simp only [mem_optional, mem_matches'_mul, mem_oneOf, mem_sign, mem_digits, List.mem_pair]
  constructor
  · rintro (rfl | ⟨_, ⟨_, ⟨c, hc, rfl⟩, s, hs, rfl⟩, d, hd, rfl⟩)
    · exact .none
    · exact .some hc hs hd
  · rintro (_ | ⟨hc, hs, hd⟩)
    · exact .inl rfl
    · exact .inr ⟨_, ⟨_, ⟨_, hc, rfl⟩, _, hs, rfl⟩, _, hd, by simp⟩

/-- **Numbers.**  The expression matches the numerals. -/
theorem mem_number : n ∈ number.matches' ↔ IsNumeral n := by
  rw [number, mem_matches'_mul]
  simp only [mem_exponent]
  constructor
  · rintro ⟨_, h, e, he, rfl⟩
    obtain ⟨s, hs, m, hm, rfl⟩ := mem_matches'_mul.1 h
    exact .mk (mem_sign.1 hs) (mem_mantissa.1 hm) he
  · rintro ⟨hs, hm, he⟩
    exact ⟨_, mem_matches'_mul.2 ⟨_, mem_sign.2 hs, _, mem_mantissa.2 hm, rfl⟩, _, he, rfl⟩

theorem mem_blanks : x ∈ blanks.matches' ↔ IsBlanks x := by
  rw [blanks, mem_star_oneOf, IsBlanks]
  simp only [isBlank_iff]

end

/-! ## Captures -/

/-- Two numbers that are captured, and what stands before, between and behind them. -/
structure Pattern where
  before : RegularExpression Char
  between : RegularExpression Char
  behind : RegularExpression Char

def estimate : Pattern := ⟨word "≈" * blanks, blanks * word "±" * blanks, 1⟩

def interval : Pattern := ⟨word "in [" * blanks, blanks * word "," * blanks, blanks * word "]"⟩

/-- A pattern fits at the start of a text, in a way that captures two numbers. -/
def Pattern.Fits (p : Pattern) (text : List Char) (m : List Char × List Char) : Prop :=
  ∃ a ∈ p.before.matches', ∃ b ∈ p.between.matches', ∃ c ∈ p.behind.matches', ∃ rest,
    text = a ++ m.1 ++ b ++ m.2 ++ c ++ rest ∧ m.1 ∈ number.matches' ∧ m.2 ∈ number.matches'

theorem Pattern.Fits.numbers {p : Pattern} {text : List Char} {m : List Char × List Char}
    (h : p.Fits text m) : m.1 ∈ number.matches' ∧ m.2 ∈ number.matches' := by
  obtain ⟨_, _, _, _, _, _, _, _, hnumbers⟩ := h
  exact hnumbers

/-- What a pattern captures at the start of a text: no other way to fit it captures another first
number or more of the second one. -/
def Pattern.Captures (p : Pattern) (text : List Char) (m : List Char × List Char) : Prop :=
  p.Fits text m ∧ ∀ m', p.Fits text m' → m'.1 = m.1 ∧ m'.2 <+: m.2

/-- A scanner finds what a pattern captures at the first place where the pattern fits. -/
structure Obeys (scan : List Char → Option (List Char × List Char)) (p : Pattern) : Prop where
  first : ∀ text m, firstMatch scan text = some m ↔ FirstIn p.Captures text m
  complete : ∀ text m, p.Fits text m → ∃ m', p.Captures text m'

variable {scan : List Char → Option (List Char × List Char)} {p : Pattern} {text : List Char}
  {m : List Char × List Char}

/-- The scanner fits the pattern, and takes as much of the second number as there is. -/
theorem obeys_of_scan (hsound : ∀ text m, scan text = some m → p.Fits text m)
    (hcomplete : ∀ text m, p.Fits text m → ∃ n, scan text = some (m.1, n) ∧ m.2 <+: n) :
    Obeys scan p := by
  have hscan : ∀ text m, scan text = some m ↔ p.Captures text m := by
    intro text m
    constructor
    · intro h
      refine ⟨hsound text m h, fun m' hfit => ?_⟩
      obtain ⟨n, hn, hprefix⟩ := hcomplete text m' hfit
      obtain rfl : m = (m'.1, n) := Option.some.inj (h.symm.trans hn)
      exact ⟨rfl, hprefix⟩
    · rintro ⟨hfit, hlongest⟩
      obtain ⟨n, hn, hprefix⟩ := hcomplete text m hfit
      have hle := (hlongest _ (hsound text _ hn)).2.length_le
      rw [hn, ← hprefix.eq_of_length_le hle]
  constructor
  · exact fun text m => firstMatch_eq_some_iff hscan
  · intro text m hfit
    obtain ⟨n, hn, -⟩ := hcomplete text m hfit
    exact ⟨_, (hscan text _).1 hn⟩

theorem mem_word_mul_blanks {w : String} {x : List Char} :
    x ∈ (word w * blanks).matches' ↔ ∃ b, IsBlanks b ∧ w.toList ++ b = x := by
  simp only [mem_matches'_mul, mem_word, mem_blanks, exists_eq_left]

theorem mem_blanks_mul_word {w : String} {x : List Char} :
    x ∈ (blanks * word w).matches' ↔ ∃ b, IsBlanks b ∧ b ++ w.toList = x := by
  simp only [mem_matches'_mul, mem_word, mem_blanks, exists_eq_left]

theorem mem_between {w : String} {x : List Char} : x ∈ (blanks * word w * blanks).matches' ↔
    ∃ b b', IsBlanks b ∧ IsBlanks b' ∧ b ++ w.toList ++ b' = x := by
  rw [mem_matches'_mul]
  simp only [mem_blanks_mul_word, mem_blanks]
  constructor
  · rintro ⟨_, ⟨b, hb, rfl⟩, b', hb', rfl⟩
    exact ⟨b, b', hb, hb', rfl⟩
  · rintro ⟨b, b', hb, hb', rfl⟩
    exact ⟨_, ⟨b, hb, rfl⟩, b', hb', rfl⟩

/-- The second number may be followed by more of a numeral; then the scanner takes all of it. -/
theorem obeys_estimate : Obeys takeEstimate estimate := by
  apply obeys_of_scan
  · intro text m h
    obtain ⟨rest, b₁, b₂, b₃, hb₁, hb₂, hb₃, rfl, hn₁, hn₂, -⟩ := takeEstimate_eq_some_iff.1 h
    exact ⟨_, mem_word_mul_blanks.2 ⟨b₁, hb₁, rfl⟩, _, mem_between.2 ⟨b₂, b₃, hb₂, hb₃, rfl⟩, [],
      rfl, rest, by simp, mem_number.2 hn₁, mem_number.2 hn₂⟩
  · rintro text ⟨n₁, n₂⟩ ⟨_, ha, _, hb, c, -, rest, rfl, hn₁, hn₂⟩
    obtain ⟨b₁, hb₁, rfl⟩ := mem_word_mul_blanks.1 ha
    obtain ⟨b₂, b₃, hb₂, hb₃, rfl⟩ := mem_between.1 hb
    obtain ⟨n, rest', htake, hprefix⟩ := takeNumeral_append (mem_number.1 hn₂) (c ++ rest)
    obtain ⟨htext, hn⟩ := takeNumeral_eq_some_iff.1 htake
    refine ⟨n, takeEstimate_eq_some_iff.2 ⟨rest', b₁, b₂, b₃, hb₁, hb₂, hb₃, ?_,
      mem_number.1 hn₁, hn⟩, hprefix⟩
    rw [← htext]
    simp

theorem obeys_interval : Obeys takeInterval interval := by
  apply obeys_of_scan
  · intro text m h
    obtain ⟨b₄, rest, hb₄, b₁, b₂, b₃, hb₁, hb₂, hb₃, rfl, hn₁, hn₂, -⟩ :=
      takeInterval_eq_some_iff.1 h
    exact ⟨_, mem_word_mul_blanks.2 ⟨b₁, hb₁, rfl⟩, _, mem_between.2 ⟨b₂, b₃, hb₂, hb₃, rfl⟩, _,
      mem_blanks_mul_word.2 ⟨b₄, hb₄, rfl⟩, rest, by simp, mem_number.2 hn₁, mem_number.2 hn₂⟩
  · rintro text ⟨n₁, n₂⟩ ⟨_, ha, _, hb, _, hc, rest, rfl, hn₁, hn₂⟩
    obtain ⟨b₁, hb₁, rfl⟩ := mem_word_mul_blanks.1 ha
    obtain ⟨b₂, b₃, hb₂, hb₃, rfl⟩ := mem_between.1 hb
    obtain ⟨b₄, hb₄, rfl⟩ := mem_blanks_mul_word.1 hc
    -- the bracket ends the second number, so it is the longest one
    have hlongest : LongestNumeral n₂ (b₄ ++ ("]".toList ++ rest)) :=
      longestNumeral_of_mark (mem_number.1 hn₂) hb₄ isMark_bracket
    exact ⟨n₂, takeInterval_eq_some_iff.2 ⟨b₄, rest, hb₄, b₁, b₂, b₃, hb₁, hb₂, hb₃, by simp,
      mem_number.1 hn₁, hlongest⟩, List.prefix_refl n₂⟩

/-! ## Reading reports -/

theorem readNumeral_of_mem {n : List Char} (h : n ∈ number.matches') :
    ∃ x, readNumeral n = .ok x :=
  readNumeral_ok (mem_number.1 h)

/-- What a scanner finds are numbers. -/
theorem Obeys.numbers (hscan : Obeys scan p) (h : firstMatch scan text = some m) :
    m.1 ∈ number.matches' ∧ m.2 ∈ number.matches' := by
  obtain ⟨_, _, _, ⟨hfit, _⟩, _⟩ := (hscan.first text m).1 h
  exact hfit.numbers

theorem readPair_ne_number (hscan : Obeys scan p) (formula : Nat) (expected : String)
    (cause : NumeralFault) :
    readPair formula expected (firstMatch scan text) ≠ .error (.number cause) := by
  cases hfound : firstMatch scan text with
  | none => simp [readPair]
  | some m =>
    obtain ⟨hfirst, hsecond⟩ := hscan.numbers hfound
    obtain ⟨x, hx⟩ := readNumeral_of_mem hfirst
    obtain ⟨y, hy⟩ := readNumeral_of_mem hsecond
    rw [readPair, hx, hy]
    rintro ⟨⟩

theorem add_ne_number (r : StrategyResult) (kind : QueryKind) (formula : Nat) (block : Block)
    (cause : NumeralFault) : r.add kind formula block ≠ .error (.number cause) := by
  have hestimate : readEstimate formula block ≠ .error (.number cause) := by
    rw [readEstimate, ne_eq, bind_eq_error]
    rintro (h | ⟨_, _, ⟨⟩⟩)
    exact readPair_ne_number obeys_estimate formula _ cause h
  unfold StrategyResult.add
  cases kind with
  | strategy => rintro ⟨⟩
  | expectedTime | expectedCost => exact fun h => hestimate (map_eq_error.1 h)
  | successProbability =>
    exact fun h => readPair_ne_number obeys_interval formula _ cause (map_eq_error.1 h)

theorem answer_ne_number (bs : List Block) (r : StrategyResult) (formula : Nat) (q : Query)
    (cause : NumeralFault) : answer bs r formula q ≠ .error (.number cause) := by
  unfold answer
  split
  · rintro ⟨⟩
  · split
    · rintro ⟨⟩
    · exact add_ne_number r q.kind formula _ cause

theorem answers_ne_number (bs : List Block) (done : List StrategyResult) (formula : Nat)
    (queries : List Query) (cause : NumeralFault) :
    answers bs done formula queries ≠ .error (.number cause) := by
  induction queries generalizing done formula with
  | nil => rintro ⟨⟩
  | cons q rest ih =>
    unfold answers
    split
    rw [ne_eq, bind_eq_error]
    rintro (h | ⟨r, _, h⟩)
    · exact answer_ne_number bs _ formula q cause h
    · exact ih _ _ h

/-- **Captured numbers are read.**  Whatever the report and the queries, reading does not fail on a
number: all that `number` matches has a value, and the numbers of a report are what the patterns
capture in it. -/
theorem captured_numbers_are_read :
    (∀ report queries cause, readReport report queries ≠ .error (.number cause)) ∧
    (∀ n ∈ number.matches', ∃ x, readNumeral n = .ok x) ∧
    Obeys takeEstimate estimate ∧ Obeys takeInterval interval :=
  ⟨fun _ queries => answers_ne_number _ [] 1 queries, fun _ => readNumeral_of_mem,
    obeys_estimate, obeys_interval⟩

/-- Numbers that begin or end with a point are captured and read. -/
theorem captured_numbers_are_read_points :
    firstMatch takeEstimate "E ≈ +5.e-3 ±.5!".toList = some ("+5.e-3".toList, ".5".toList) ∧
    (∃ x, readNumeral "+5.e-3".toList = .ok x) ∧ ∃ x, readNumeral ".5".toList = .ok x := by
  obtain ⟨_, hread, _⟩ := captured_numbers_are_read
  exact ⟨by decide, hread _ (by decide +kernel), hread _ (by decide +kernel)⟩

example : "1e999".toList ∈ number.matches' := by decide +kernel

example : readNumeral "1e999".toList = .ok Binary64.infinity := by decide

end AttackDefense.Checker
