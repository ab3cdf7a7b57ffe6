import Mathlib.Algebra.GroupWithZero.Nat
import Mathlib.Data.Multiset.Bind

/-!
# Lists that match

`Matched R l m` says that the entries of two lists can be paired, each with a related one, in
whatever order the lists have them.  Matching is what is left of a relation between lists when
orders differ:

    Matched (f · = g ·) l m ↔ (l.map f).Perm (m.map g)                      (matched_map_iff)
-/

namespace AttackDefense

variable {α β γ δ : Type} {R : α → β → Prop} {S : γ → δ → Prop} {l : List α} {m : List β}

/-- The entries of the lists can be paired, each with a related one. -/
def Matched (R : α → β → Prop) (l : List α) (m : List β) : Prop :=
  Multiset.Rel R (l : Multiset α) (m : Multiset β)

theorem matched_nil : Matched R [] [] := Multiset.Rel.zero

theorem Matched.cons {a : α} {b : β} (hab : R a b) (h : Matched R l m) :
    Matched R (a :: l) (b :: m) := Multiset.Rel.cons hab h

theorem matched_eq_iff {l m : List α} : Matched (· = ·) l m ↔ l.Perm m := by
  rw [Matched, Multiset.rel_eq, Multiset.coe_eq_coe]

theorem matched_map_iff {f : α → γ} {g : β → γ} :
    Matched (fun a b => f a = g b) l m ↔ (l.map f).Perm (m.map g) := by
  rw [← matched_eq_iff, Matched, Matched, ← Multiset.map_coe, ← Multiset.map_coe, Multiset.rel_map]

namespace Matched

theorem mono (h : Matched R l m) {R' : α → β → Prop}
    (hR : ∀ a ∈ l, ∀ b ∈ m, R a b → R' a b) : Matched R' l m :=
  Multiset.Rel.mono h hR

theorem symm (h : Matched R l m) : Matched (fun b a => R a b) m l := Multiset.rel_flip.2 h

theorem exists_left (h : Matched R l m) {a : α} (ha : a ∈ l) : ∃ b ∈ m, R a b :=
  Multiset.exists_mem_of_rel_of_mem h ha

theorem length_eq (h : Matched R l m) : l.length = m.length := Multiset.card_eq_card_of_rel h

theorem append (h : Matched R l m) {l' : List α} {m' : List β} (h' : Matched R l' m') :
    Matched R (l ++ l') (m ++ m') := by
  unfold Matched
  rw [← Multiset.coe_add, ← Multiset.coe_add]
  exact Multiset.Rel.add h h'

theorem perm_right (h : Matched R l m) {m' : List β} (hm : m.Perm m') : Matched R l m' := by
  unfold Matched
  rwa [← Multiset.coe_eq_coe.2 hm]

theorem flatMap (h : Matched R l m) {f : α → List γ} {g : β → List δ}
    (hfg : ∀ a ∈ l, ∀ b ∈ m, R a b → Matched S (f a) (g b)) :
    Matched S (l.flatMap f) (m.flatMap g) := by
  unfold Matched
  rw [← Multiset.coe_bind, ← Multiset.coe_bind]
  apply Multiset.rel_join
  rw [Multiset.rel_map]
  exact h.mono hfg

theorem map (h : Matched R l m) {f : α → γ} {g : β → δ}
    (hfg : ∀ a ∈ l, ∀ b ∈ m, R a b → S (f a) (g b)) : Matched S (l.map f) (m.map g) := by
  unfold Matched
  rw [← Multiset.map_coe, ← Multiset.map_coe, Multiset.rel_map]
  exact h.mono hfg

theorem filter (h : Matched R l m) {p : α → Bool} {q : β → Bool}
    (hpq : ∀ a ∈ l, ∀ b ∈ m, R a b → p a = q b) : Matched R (l.filter p) (m.filter q) := by
  have hbind : ∀ {α : Type} (p : α → Bool) (l : List α), (l.filter p : Multiset α) =
      (l : Multiset α).bind fun a => if p a then {a} else 0 := fun p l => by
    simpa using Multiset.filter_eq_bind (l : Multiset _) (p · = true)
  unfold Matched
  rw [hbind, hbind]
  apply Multiset.rel_join
  rw [Multiset.rel_map]
  refine Multiset.Rel.mono h fun a ha b hb hab => ?_
  rw [hpq a ha b hb hab]
  split
  · exact matched_nil.cons hab
  · exact matched_nil

/-- What is added up over matching lists is the same. -/
theorem sum_eq (h : Matched R l m) {f : α → Nat} {g : β → Nat}
    (hfg : ∀ a ∈ l, ∀ b ∈ m, R a b → f a = g b) : (l.map f).sum = (m.map g).sum :=
  (matched_map_iff.1 (h.mono hfg)).sum_eq

end Matched

/-- What two lists begin with as long as a test holds. -/
theorem forall₂_takeWhile (h : List.Forall₂ R l m) {p : α → Bool} {q : β → Bool}
    (hpq : ∀ a ∈ l, ∀ b ∈ m, R a b → p a = q b) :
    List.Forall₂ R (l.takeWhile p) (m.takeWhile q) := by
  induction h with
  | nil => exact .nil
  | @cons a b l m hab _ ih =>
    have hhead := hpq a List.mem_cons_self b List.mem_cons_self hab
    have ih := ih fun a' ha b' hb =>
      hpq a' (List.mem_cons_of_mem a ha) b' (List.mem_cons_of_mem b hb)
    rw [List.takeWhile_cons, List.takeWhile_cons, hhead]
    split
    · exact .cons hab ih
    · exact .nil

/-- Lists without repetitions match if every entry has exactly one partner in the other list. -/
theorem matched_of_nodup (hl : l.Nodup) (hm : m.Nodup) (hleft : ∀ a ∈ l, ∃ b ∈ m, R a b)
    (hright : ∀ b ∈ m, ∃ a ∈ l, R a b)
    (hunique : ∀ a ∈ l, ∀ b ∈ m, ∀ c ∈ m, R a b → R a c → b = c)
    (hinj : ∀ a ∈ l, ∀ b ∈ l, ∀ c ∈ m, R a c → R b c → a = b) : Matched R l m := by
  induction l generalizing m with
  | nil =>
    cases m with
    | nil => exact matched_nil
    | cons b m =>
      obtain ⟨a, ha, _⟩ := hright b List.mem_cons_self
      cases ha
  | cons a l ih =>
    obtain ⟨b, hb, hab⟩ := hleft a List.mem_cons_self
    obtain ⟨before, later, rfl⟩ := List.append_of_mem hb
    rw [List.nodup_middle, List.nodup_cons] at hm
    rw [List.nodup_cons] at hl
    have hrest : ∀ c, c ∈ before ++ later → c ∈ before ++ b :: later := by
      intro c hc
      rw [List.mem_append] at hc ⊢
      exact hc.imp_right (List.mem_cons_of_mem b)
    refine (Matched.cons hab (ih hl.2 hm.2 ?_ ?_ ?_ ?_)).perm_right List.perm_middle.symm
    · intro a' ha'
      obtain ⟨b', hb', hab'⟩ := hleft a' (List.mem_cons_of_mem a ha')
      rcases List.mem_cons.1 (List.perm_middle.mem_iff.1 hb') with rfl | hb'
      · -- the partner is taken by the first entry, which does not occur again
        have heq := hinj a List.mem_cons_self a' (List.mem_cons_of_mem a ha') b' hb hab hab'
        exact absurd (heq ▸ ha') hl.1
      · exact ⟨b', hb', hab'⟩
    · intro b' hb'
      obtain ⟨a', ha', hab'⟩ := hright b' (hrest b' hb')
      rcases List.mem_cons.1 ha' with rfl | ha'
      · have heq := hunique a' List.mem_cons_self b hb b' (hrest b' hb') hab hab'
        exact absurd (heq ▸ hb') hm.1
      · exact ⟨a', ha', hab'⟩
    · exact fun a' ha' c hc d hd =>
        hunique a' (List.mem_cons_of_mem a ha') c (hrest c hc) d (hrest d hd)
    · exact fun a' ha' b' hb' c hc =>
        hinj a' (List.mem_cons_of_mem a ha') b' (List.mem_cons_of_mem a hb') c (hrest c hc)

end AttackDefense
