import Mathlib.Data.List.Forall2

/-!
# Computations that may be refused

When a composed computation succeeds: exactly when its steps do; and the first step that is refused
decides why it is.
-/

namespace AttackDefense

variable {ε α β : Type}

theorem bind_eq_ok {x : Except ε α} {f : α → Except ε β} {b : β} :
    x >>= f = .ok b ↔ ∃ a, x = .ok a ∧ f a = .ok b := by
  constructor
  · intro h
    cases x with
    | error e => cases h
    | ok a => exact ⟨a, rfl, h⟩
  · rintro ⟨a, rfl, h⟩
    exact h

theorem bind_eq_error {x : Except ε α} {f : α → Except ε β} {e : ε} :
    x >>= f = .error e ↔ x = .error e ∨ ∃ a, x = .ok a ∧ f a = .error e := by
  cases x with
  | error e' =>
    have hbind : (Except.error e' : Except ε α) >>= f = .error e' := rfl
    simp [hbind]
  | ok a =>
    have hbind : (Except.ok a : Except ε α) >>= f = f a := rfl
    simp [hbind]

theorem bind_congr_ok {x : Except ε α} {f g : α → Except ε β} (h : ∀ a, x = .ok a → f a = g a) :
    x >>= f = x >>= g := by
  cases x with
  | error e => rfl
  | ok a => exact h a rfl

theorem map_eq_ok {x : Except ε α} {f : α → β} {b : β} :
    x.map f = .ok b ↔ ∃ a, x = .ok a ∧ f a = b := by
  cases x <;> simp [Except.map]

theorem map_eq_error {x : Except ε α} {f : α → β} {e : ε} : x.map f = .error e ↔ x = .error e := by
  cases x <;> simp [Except.map]

theorem forM_eq_ok {f : α → Except ε Unit} {l : List α} {u : Unit} :
    l.forM f = .ok u ↔ ∀ a ∈ l, f a = .ok () := by
  induction l with
  | nil => exact ⟨by simp, fun _ => rfl⟩
  | cons b l ih =>
    have hcons : (b :: l).forM f = f b >>= fun _ => l.forM f := rfl
    rw [hcons, bind_eq_ok, List.forall_mem_cons, ih]
    exact ⟨fun ⟨_, hb, h⟩ => ⟨hb, h⟩, fun ⟨hb, h⟩ => ⟨(), hb, h⟩⟩

/-- The results of a list of computations stand in its order. -/
theorem mapM_eq_ok {f : α → Except ε β} {l : List α} {m : List β} :
    l.mapM f = .ok m ↔ List.Forall₂ (fun a b => f a = .ok b) l m := by
  induction l generalizing m with
  | nil =>
    rw [List.mapM_nil, List.forall₂_nil_left_iff]
    exact ⟨fun h => (Except.ok.inj h).symm, fun h => congrArg _ h.symm⟩
  | cons a l ih =>
    rw [List.mapM_cons, bind_eq_ok]
    simp only [bind_eq_ok, ih, List.forall₂_cons_left_iff]
    constructor
    · rintro ⟨b, hb, bs, hbs, h⟩
      exact ⟨b, bs, hb, hbs, (Except.ok.inj h).symm⟩
    · rintro ⟨b, bs, hb, hbs, rfl⟩
      exact ⟨b, hb, bs, hbs, rfl⟩

/-- What stands behind a prefix in a list is its head, or stands so in the tail. -/
theorem exists_split_cons {p q : α → Prop} {x : α} {l : List α} :
    (∃ before a after, x :: l = before ++ a :: after ∧ (∀ b ∈ before, p b) ∧ q a) ↔
      q x ∨ p x ∧ ∃ before a after, l = before ++ a :: after ∧ (∀ b ∈ before, p b) ∧ q a := by
  constructor
  · rintro ⟨before, a, after, hsplit, hbefore, ha⟩
    cases before with
    | nil =>
      cases hsplit
      exact .inl ha
    | cons b before =>
      cases hsplit
      obtain ⟨hb, hbefore⟩ := List.forall_mem_cons.1 hbefore
      exact .inr ⟨hb, before, a, after, rfl, hbefore, ha⟩
  · rintro (hx | ⟨hx, before, a, after, rfl, hbefore, ha⟩)
    · exact ⟨[], x, l, rfl, by simp, hx⟩
    · exact ⟨x :: before, a, after, rfl, List.forall_mem_cons.2 ⟨hx, hbefore⟩, ha⟩

/-- The first computation of a list that is refused decides why the list is. -/
theorem forM_eq_error {f : α → Except ε Unit} {l : List α} {e : ε} :
    l.forM f = .error e ↔ ∃ before a after, l = before ++ a :: after ∧
      (∀ b ∈ before, f b = .ok ()) ∧ f a = .error e := by
  induction l with
  | nil => exact iff_of_false nofun (by simp)
  | cons x l ih =>
    have hcons : (x :: l).forM f = f x >>= fun _ => l.forM f := rfl
    rw [hcons, bind_eq_error, exists_split_cons, ih]
    exact or_congr_right ⟨fun ⟨_, h⟩ => h, fun h => ⟨(), h⟩⟩

/-- The first computation of a list that is refused decides why the list is. -/
theorem mapM_eq_error {f : α → Except ε β} {l : List α} {e : ε} :
    l.mapM f = .error e ↔ ∃ before a after, l = before ++ a :: after ∧
      (∀ b ∈ before, ∃ c, f b = .ok c) ∧ f a = .error e := by
  induction l with
  | nil => exact iff_of_false nofun (by simp)
  | cons x l ih =>
    have htail : ∀ y, (l.mapM f >>= fun ys => pure (y :: ys)) = .error e ↔ l.mapM f = .error e := by
      intro y
      rw [bind_eq_error]
      exact or_iff_left fun ⟨_, _, h⟩ => nomatch h
    rw [List.mapM_cons, bind_eq_error, exists_split_cons]
    simp only [htail, ih, exists_and_right]

theorem exists_forall₂ {R : α → β → Prop} {m : List β} (h : ∀ b ∈ m, ∃ a, R a b) :
    ∃ l, List.Forall₂ R l m := by
  induction m with
  | nil => exact ⟨[], .nil⟩
  | cons b m ih =>
    obtain ⟨a, ha⟩ := h b List.mem_cons_self
    obtain ⟨l, hl⟩ := ih fun b hb => h b (List.mem_cons_of_mem _ hb)
    exact ⟨a :: l, .cons ha hl⟩

theorem exists_of_mem_left {R : α → β → Prop} {l : List α} {m : List β}
    (h : List.Forall₂ R l m) {a : α} (ha : a ∈ l) : ∃ b ∈ m, R a b := by
  induction h with
  | nil => cases ha
  | cons hhead _ ih =>
    rcases List.mem_cons.1 ha with rfl | ha
    · exact ⟨_, List.mem_cons_self, hhead⟩
    · obtain ⟨b, hb, hab⟩ := ih ha
      exact ⟨b, List.mem_cons_of_mem _ hb, hab⟩

theorem exists_of_mem_right {R : α → β → Prop} {l : List α} {m : List β}
    (h : List.Forall₂ R l m) {b : β} (hb : b ∈ m) : ∃ a ∈ l, R a b := by
  induction h with
  | nil => cases hb
  | cons hhead _ ih =>
    rcases List.mem_cons.1 hb with rfl | hb
    · exact ⟨_, List.mem_cons_self, hhead⟩
    · obtain ⟨a, ha, hab⟩ := ih hb
      exact ⟨a, List.mem_cons_of_mem _ ha, hab⟩

end AttackDefense
