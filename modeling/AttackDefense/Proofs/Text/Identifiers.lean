import AttackDefense.Tree.Basic
import Mathlib.Data.List.Basic

/-!
# Identifiers in a text

The identifiers of a text are the runs of letters, digits and underscores in it that do not begin
with a digit.  Everything follows from one equation, that a text may be cut at a separator:

    IsSeparator sep → identifiers (s ++ sep ++ t) = identifiers s ++ identifiers t
                                                                    (identifiers_append)

At the first place where a character stands, a text is cut in one way (`append_cons_inj`).
-/

namespace AttackDefense

open AttackDefense.Tree

/-- A character that can stand in an identifier. -/
def isWordChar (c : Char) : Bool := c.isAlphanum || c = '_'

/-- The identifiers of a text, as often as they occur. -/
def identifiers (text : String) : List String :=
  ((text.toList.splitOnP fun c => !isWordChar c).map String.ofList).filter isIdentifier

/-- The text is not empty and has no character that can stand in an identifier. -/
def IsSeparator (sep : String) : Prop := sep ≠ "" ∧ ∀ c ∈ sep.toList, ¬ isWordChar c

instance (sep : String) : Decidable (IsSeparator sep) :=
  haveI := sep.toList.decidableBAll fun c => ¬ isWordChar c
  instDecidableAnd

/-! ## Cutting at a character -/

/-- At its first occurrence a character cuts a text in one way. -/
theorem append_cons_inj {c : Char} {s s' t t' : List Char} (hs : c ∉ s) (hs' : c ∉ s') :
    s ++ c :: t = s' ++ c :: t' ↔ s = s' ∧ t = t' := by
  have hbefore : ∀ {s : List Char} (t : List Char), c ∉ s →
      (s ++ c :: t).takeWhile (· ≠ c) = s := by
    intro s t hs
    have hne : ∀ d ∈ s, decide (d ≠ c) = true := fun d hd =>
      decide_eq_true (ne_of_mem_of_not_mem hd hs)
    rw [List.takeWhile_append_of_pos hne]
    simp
  constructor
  · intro h
    have heq := congrArg (List.takeWhile (· ≠ c)) h
    rw [hbefore t hs, hbefore t' hs'] at heq
    subst heq
    exact ⟨rfl, (List.cons.inj (List.append_cancel_left h)).2⟩
  · rintro ⟨rfl, rfl⟩
    rfl

/-! ## Cutting at separators -/

theorem identifiers_ofList_append {c : Char} (hc : ¬ isWordChar c) (s t : List Char) :
    identifiers (String.ofList (s ++ c :: t)) =
      identifiers (String.ofList s) ++ identifiers (String.ofList t) := by
  unfold identifiers
  simp only [String.toList_ofList]
  rw [List.splitOnP_append_cons s t (by simpa using hc), List.map_append, List.filter_append]

@[simp] theorem identifiers_empty : identifiers "" = [] := by decide

/-- Separators in front of a text. -/
theorem identifiers_ofList_cons {c : Char} (hc : ¬ isWordChar c) (t : List Char) :
    identifiers (String.ofList (c :: t)) = identifiers (String.ofList t) :=
  identifiers_ofList_append hc [] t

theorem identifiers_ofList_append_of_forall {sep : List Char} (hsep : ∀ c ∈ sep, ¬ isWordChar c)
    (t : List Char) : identifiers (String.ofList (sep ++ t)) = identifiers (String.ofList t) := by
  induction sep with
  | nil => rfl
  | cons c sep ih =>
    rw [List.forall_mem_cons] at hsep
    rw [List.cons_append, identifiers_ofList_cons hsep.1, ih hsep.2]

theorem identifiers_append {sep : String} (hsep : IsSeparator sep) (s t : String) :
    identifiers (s ++ sep ++ t) = identifiers s ++ identifiers t := by
  obtain ⟨hne, hchars⟩ := hsep
  have htext : s ++ sep ++ t = String.ofList (s.toList ++ (sep.toList ++ t.toList)) := by
    rw [← String.toList_inj]
    simp
  rw [htext]
  cases hlist : sep.toList with
  | nil => exact absurd (String.toList_eq_nil_iff.1 hlist) hne
  | cons c rest =>
    rw [hlist, List.forall_mem_cons] at hchars
    rw [List.cons_append, identifiers_ofList_append hchars.1,
      identifiers_ofList_append_of_forall hchars.2, String.ofList_toList, String.ofList_toList]

theorem identifiers_intercalate {sep : String} (hsep : IsSeparator sep) (texts : List String) :
    identifiers (sep.intercalate texts) = texts.flatMap identifiers := by
  induction texts with
  | nil => simp
  | cons s texts ih =>
    cases texts with
    | nil => simp
    | cons t texts =>
      rw [String.intercalate_cons_cons, identifiers_append hsep, ih]
      rfl

/-! ## Single identifiers -/

/-- An identifier consists of characters that can stand in one, and does not begin with a digit. -/
theorem isIdentifier_iff {name : String} : isIdentifier name ↔
    (∃ c rest, name.toList = c :: rest ∧ (c.isAlpha ∨ c = '_')) ∧
      ∀ c ∈ name.toList, isWordChar c := by
  unfold isIdentifier
  cases name.toList with
  | nil => simp
  | cons c rest =>
    have hfirst : c.isAlpha ∨ c = '_' → isWordChar c := by
      rintro (h | rfl)
      · simp [isWordChar, Char.isAlphanum, h]
      · rfl
    simp only [Bool.and_eq_true, Bool.or_eq_true, decide_eq_true_eq, List.all_eq_true,
      List.cons.injEq, List.forall_mem_cons]
    constructor
    · rintro ⟨h, hrest⟩
      refine ⟨⟨c, rest, ⟨rfl, rfl⟩, h⟩, hfirst h, fun d hd => ?_⟩
      simpa [isWordChar] using hrest d hd
    · rintro ⟨⟨_, _, ⟨rfl, rfl⟩, h⟩, _, hrest⟩
      refine ⟨h, fun d hd => ?_⟩
      simpa [isWordChar] using hrest d hd

theorem identifiers_of_isIdentifier {name : String} (h : isIdentifier name) :
    identifiers name = [name] := by
  have hchars := (isIdentifier_iff.1 h).2
  unfold identifiers
  rw [List.splitOnP_eq_singleton fun c hc => by simp [hchars c hc]]
  simp [h]

theorem not_alpha_of_isDigit {c : Char} (h : c.isDigit) : ¬ (c.isAlpha ∨ c = '_') := by
  delta Char.isAlpha Char.isUpper Char.isLower
  simp only [Char.isDigit, Bool.and_eq_true, decide_eq_true_eq, Bool.or_eq_true] at *
  rintro (hletter | rfl)
  · grind
  · revert h
    decide

/-- A number is no identifier. -/
theorem identifiers_repr (n : Nat) : identifiers (toString n) = [] := by
  have hdigit : ∀ c ∈ (toString n).toList, c.isDigit := by
    intro c hc
    have hdigits : toString n = String.ofList (Nat.toDigits 10 n) := rfl
    rw [hdigits, String.toList_ofList] at hc
    exact Nat.isDigit_of_mem_toDigits (by decide) (by decide) hc
  have hword : ∀ c ∈ (toString n).toList, (!isWordChar c) = false := by
    intro c hc
    simp [isWordChar, Char.isAlphanum, hdigit c hc]
  have hnot : ¬ isIdentifier (toString n) := by
    intro h
    obtain ⟨⟨c, rest, hlist, hfirst⟩, _⟩ := isIdentifier_iff.1 h
    exact not_alpha_of_isDigit (hdigit c (by rw [hlist]; exact List.mem_cons_self)) hfirst
  unfold identifiers
  rw [List.splitOnP_eq_singleton hword, List.map_singleton, String.ofList_toList,
    List.filter_eq_nil_iff, List.forall_mem_singleton]
  exact hnot

theorem isIdentifier_append {s t : String} (hs : isIdentifier s) (ht : isIdentifier t) :
    isIdentifier (s ++ t) := by
  rw [isIdentifier_iff] at *
  obtain ⟨⟨c, rest, hlist, hfirst⟩, hchars⟩ := hs
  rw [String.toList_append, List.forall_mem_append]
  exact ⟨⟨c, rest ++ t.toList, by rw [hlist]; rfl, hfirst⟩, hchars, ht.2⟩

end AttackDefense
