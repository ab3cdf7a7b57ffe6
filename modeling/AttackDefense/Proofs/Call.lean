import AttackDefense.Call
import AttackDefense.Proofs.Except

/-!
# What a refused call leaves behind

A call that is refused leaves the value as its last step before the fault left it.  So it leaves no
trace if all its checks come before its first change.  `Safe` says of a call that it leaves no trace
when it is refused, `Quiet` that it changes nothing in any case, and `Certain` that it is never
refused:

    Quiet x → (∀ a, Safe (f a)) → Safe (x >>= f)                            (Quiet.bind_safe)
    Certain x → Safe x                                                      (Certain.safe)
-/

namespace AttackDefense.Call

variable {ε σ α β : Type} {x : Call ε σ α} {f : α → Call ε σ β} {s s' : σ} {a : α} {fault : ε}

/-! ## What a call ends with -/

theorem outcome_eq_ok : x.outcome s = .ok (s', a) ↔ x.answer s = (s', .ok a) := by
  unfold outcome answer
  cases x s <;> simp

theorem outcome_eq_error : x.outcome s = .error fault ↔ (x.answer s).2 = .error fault := by
  unfold outcome answer
  cases x s <;> simp

theorem answer_get_bind (f : σ → Call ε σ β) (s : σ) :
    answer (get >>= f) s = (f s).answer s := rfl

theorem outcome_get_bind (f : σ → Call ε σ β) (s : σ) :
    outcome (get >>= f) s = (f s).outcome s := rfl

theorem outcome_check_bind (y : Except ε α) (f : α → Call ε σ β) (s : σ) :
    outcome (check y >>= f) s = y >>= fun a => (f a).outcome s := by
  cases y <;> rfl

section

variable {p : Prop} [Decidable p] {f : Unit → Call ε σ β} {r : σ × β}

theorem outcome_demand_bind_eq_ok :
    outcome (demand p fault >>= f) s = .ok r ↔ p ∧ (f ()).outcome s = .ok r := by
  unfold demand
  split
  · next hp => exact (and_iff_right hp).symm
  · next hp => exact iff_of_false nofun fun h => hp h.1

theorem outcome_demand_bind_eq_error {e : ε} :
    outcome (demand p fault >>= f) s = .error e ↔
      (¬ p ∧ fault = e) ∨ (p ∧ (f ()).outcome s = .error e) := by
  unfold demand
  split
  · next hp => simp only [hp, not_true_eq_false, false_and, false_or, true_and]; rfl
  · next hp =>
    have hthrow : outcome (throw fault >>= f) s = .error fault := rfl
    simp [hp, hthrow]

end

/-! ## What a call leaves behind -/

/-- Whatever it ends with, the call changes nothing. -/
def Quiet (x : Call ε σ α) : Prop := ∀ s, (x.answer s).1 = s

/-- The call is never refused. -/
def Certain (x : Call ε σ α) : Prop := ∀ s, ∃ s' a, x.answer s = (s', .ok a)

/-- If the call is refused, it has changed nothing. -/
def Safe (x : Call ε σ α) : Prop := ∀ s s' fault, x.answer s = (s', .error fault) → s' = s

theorem answer_bind (x : Call ε σ α) (f : α → Call ε σ β) (s : σ) :
    answer (x >>= f) s = match x.answer s with
      | (s', .ok a) => (f a).answer s'
      | (s', .error fault) => (s', .error fault) := by
  show answer (EStateM.bind x f) s = _
  unfold answer EStateM.bind
  cases x s <;> rfl

theorem quiet_get : Quiet (get : Call ε σ σ) := fun _ => rfl

theorem quiet_throw (fault : ε) : Quiet (throw fault : Call ε σ α) := fun _ => rfl

theorem quiet_demand (p : Prop) [Decidable p] (fault : ε) :
    Quiet (demand p fault : Call ε σ Unit) := by
  unfold demand
  split <;> exact fun _ => rfl

theorem quiet_check (y : Except ε α) : Quiet (check y : Call ε σ α) := by
  cases y <;> exact fun _ => rfl

theorem certain_pure (a : α) : Certain (pure a : Call ε σ α) := fun s => ⟨s, a, rfl⟩

theorem certain_set (s : σ) : Certain (set s : Call ε σ PUnit) := fun _ => ⟨s, (), rfl⟩

theorem Certain.bind (hx : Certain x) (hf : ∀ a, Certain (f a)) : Certain (x >>= f) := by
  intro s
  obtain ⟨s', a, hx⟩ := hx s
  rw [answer_bind, hx]
  exact hf a s'

theorem Certain.safe (hx : Certain x) : Safe x := by
  intro s s' fault h
  obtain ⟨_, _, hx⟩ := hx s
  rw [hx] at h
  cases h

theorem Quiet.safe (hx : Quiet x) : Safe x := by
  intro s s' fault h
  rw [← hx s, h]

theorem Quiet.bind_safe (hx : Quiet x) (hf : ∀ a, Safe (f a)) : Safe (x >>= f) := by
  intro s s' fault h
  have hs := hx s
  rw [answer_bind] at h
  split at h
  · next s₁ a hok =>
    rw [hok] at hs
    exact hs ▸ hf a s₁ s' fault h
  · next s₁ fault₁ herror =>
    rw [herror] at hs
    cases h
    exact hs

end AttackDefense.Call
