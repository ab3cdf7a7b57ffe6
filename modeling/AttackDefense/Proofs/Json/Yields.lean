import AttackDefense.Proofs.Json.Numbers
import AttackDefense.Proofs.Json.Reads

/-!
# What readers yield

A property of all results of a reader is proved along the loops the reader is made of.  The numbers
of the tokens are finite, and stay so in front of every reader, for a reader only takes tokens away:

    Yields item Q → Yields (Reader.array item) (∀ a ∈ ·, Q a)                    (Yields.array)
    (∀ k s, I s → Yields (member k s) I) → I s → Yields (membersFrom s member) I  (yields_members)
    Yields (value depth) fun v => Within depth v ∧ AllNumbers FiniteNumber v      (yields_value)
-/

namespace AttackDefense.Json

open Decimal Reader

variable {α σ : Type} {r item : Reader α} {Q : α → Prop} {view : Json → Option α}
  {ts rest : List Token} {a : α} {fuel : Nat} {first : Bool}

/-- All numbers of the tokens are finite. -/
def FiniteTokens (ts : List Token) : Prop := ∀ t ∈ ts, FiniteToken t

theorem finiteTokens_tokens (text : String) : FiniteTokens (tokens text) :=
  tokensOf_finite text.toList

theorem FiniteTokens.of_cons {t : Token} (h : FiniteTokens (t :: ts)) : FiniteTokens ts :=
  (List.forall_mem_cons.1 h).2

/-- Whatever the reader takes off such tokens has the property. -/
def Yields (r : Reader α) (Q : α → Prop) : Prop :=
  ∀ ⦃ts a rest⦄, FiniteTokens ts → r ts = .ok (a, rest) → Q a ∧ FiniteTokens rest

/-! ## Scalars -/

theorem yields_scalar
    (h : ∀ s a, FiniteToken (.scalar s) → view s.toJson = some a → Q a) :
    Yields (scalar view) Q := by
  intro ts a rest hts hr
  unfold scalar at hr
  split at hr
  · next s rest' =>
    rw [FiniteTokens, List.forall_mem_cons] at hts
    split at hr
    · next hview =>
      cases hr
      exact ⟨h s _ hts.1 hview, hts.2⟩
    · cases hr
  · cases hr

theorem yields_scalar_any : Yields (scalar view) fun _ => True :=
  yields_scalar fun _ _ _ _ => trivial

/-- Every number that is read is finite. -/
theorem yields_float : Yields Reader.float fun x => x.isFinite := by
  refine yields_scalar fun s x hs hx => ?_
  cases s with
  | number n =>
    cases hx
    exact hs n rfl
  | null | bool | string => cases hx

theorem Yields.nullable (h : Yields r Q) : Yields (nullable r) fun o => ∀ a ∈ o, Q a := by
  intro ts o rest hts hr
  unfold Reader.nullable at hr
  split at hr
  · cases hr
    exact ⟨nofun, hts.of_cons⟩
  · obtain ⟨⟨a, rest'⟩, hread, heq⟩ := map_eq_ok.1 hr
    cases heq
    obtain ⟨hQ, hrest⟩ := h hts hread
    refine ⟨?_, hrest⟩
    rintro _ ⟨⟩
    exact hQ

/-! ## Arrays -/

theorem nextItem_finite {next : Option (List Token)} (hts : FiniteTokens ts)
    (h : nextItem first ts = .ok next) : ∀ ts' ∈ next, FiniteTokens ts' := by
  unfold nextItem at h
  split at h
  · cases h
  · cases h
    nofun
  · split_ifs at h
    split at h
    · cases h
    · cases h
    · cases h
      rintro _ ⟨⟩
      exact hts.of_cons
  · split_ifs at h
    cases h
    rintro _ ⟨⟩
    exact hts

theorem FiniteTokens.tail (h : FiniteTokens ts) : FiniteTokens ts.tail :=
  fun t ht => h t (List.mem_of_mem_tail ht)

theorem Yields.items (h : Yields item Q) {done : Array α} (hdone : ∀ a ∈ done.toList, Q a) :
    Yields (items item fuel first done) fun as => ∀ a ∈ as, Q a := by
  induction fuel generalizing first done with
  | zero => nofun
  | succ fuel ih =>
    intro ts as rest hts hr
    rw [Reader.items, bind_eq_ok] at hr
    obtain ⟨next, hnext, hr⟩ := hr
    cases next with
    | none =>
      cases hr
      exact ⟨hdone, hts.tail⟩
    | some ts' =>
      obtain ⟨⟨a, ts''⟩, hitem, hr⟩ := bind_eq_ok.1 hr
      obtain ⟨hQ, hts''⟩ := h (nextItem_finite hts hnext _ rfl) hitem
      refine ih (fun b hb => ?_) hts'' hr
      rw [Array.toList_push, List.mem_append, List.mem_singleton] at hb
      rcases hb with hb | rfl
      · exact hdone b hb
      · exact hQ

theorem Yields.array (h : Yields item Q) : Yields (Reader.array item) fun as => ∀ a ∈ as, Q a := by
  intro ts as rest hts hr
  unfold Reader.array at hr
  split at hr
  · exact h.items (by simp) hts.of_cons hr
  · cases hr

theorem Yields.item? (h : Yields r Q) : Yields (item? first r) fun o => ∀ a ∈ o, Q a := by
  intro ts o rest hts hr
  unfold Reader.item? at hr
  obtain ⟨next, hnext, hr⟩ := bind_eq_ok.1 hr
  cases next with
  | none =>
    cases hr
    exact ⟨nofun, hts⟩
  | some ts' =>
    obtain ⟨⟨a, ts''⟩, hread, hr⟩ := bind_eq_ok.1 hr
    obtain ⟨hQ, hts''⟩ := h (nextItem_finite hts hnext _ rfl) hread
    cases hr
    refine ⟨?_, hts''⟩
    rintro _ ⟨⟩
    exact hQ

theorem closeArray_finite (hts : FiniteTokens ts) (h : closeArray ts = .ok rest) :
    FiniteTokens rest := by
  unfold closeArray at h
  split at h
  · cases h
  · cases h
    exact hts.of_cons
  · cases h

/-! ## Objects -/

theorem key_finite {k : String} (hts : FiniteTokens ts) (h : key ts = .ok (k, rest)) :
    FiniteTokens rest := by
  unfold key at h
  split at h
  · cases h
  · cases h
    exact hts.of_cons
  · cases h
  · cases h

theorem nextKey_finite {next : Option (String × List Token)} (hts : FiniteTokens ts)
    (h : nextKey first ts = .ok next) : ∀ m ∈ next, FiniteTokens m.2 := by
  have hkey {ts : List Token} (hts : FiniteTokens ts) (h : (key ts).map some = .ok next) :
      ∀ m ∈ next, FiniteTokens m.2 := by
    obtain ⟨⟨k, rest⟩, hk, rfl⟩ := map_eq_ok.1 h
    rintro _ ⟨⟩
    exact key_finite hts hk
  unfold nextKey at h
  split at h
  · cases h
  · cases h
    nofun
  · split_ifs at h
    exact hkey hts.of_cons h
  · split_ifs at h
    exact hkey hts h

theorem colon_finite (hts : FiniteTokens ts) (h : colon ts = .ok rest) : FiniteTokens rest := by
  unfold colon at h
  split at h
  · cases h
  · cases h
    exact hts.of_cons
  · cases h

variable {member : String → σ → Reader σ} {I : σ → Prop} {s : σ}

theorem yields_membersLoop (h : ∀ k s, I s → Yields (member k s) I) (hs : I s) :
    Yields (members member fuel first s) I := by
  induction fuel generalizing first s with
  | zero => nofun
  | succ fuel ih =>
    intro ts s' rest hts hr
    rw [members, bind_eq_ok] at hr
    obtain ⟨next, hnext, hr⟩ := hr
    cases next with
    | none =>
      cases hr
      exact ⟨hs, hts.tail⟩
    | some m =>
      obtain ⟨⟨s₁, ts'⟩, hmember, hr⟩ := bind_eq_ok.1 hr
      obtain ⟨hs₁, hts'⟩ := h m.1 s hs (nextKey_finite hts hnext _ rfl) hmember
      exact ih hs₁ hts' hr

/-- **What every member keeps holds of an object.** -/
theorem yields_members (h : ∀ k s, I s → Yields (member k s) I) (hs : I s) :
    Yields (membersFrom s member) I :=
  fun _ _ _ hts hr => yields_membersLoop h hs hts hr

theorem Yields.once (h : Yields r Q) (seen : Option α) : Yields (once seen r) Q := by
  intro ts a rest hts hr
  unfold Reader.once at hr
  split_ifs at hr
  obtain ⟨ts', hcolon, hr⟩ := bind_eq_ok.1 hr
  exact h (colon_finite hts hcolon) hr

/-- A field keeps what its values establish. -/
theorem Yields.field {I : σ → Prop} {set : α → σ} (h : Yields r Q) (seen : Option α)
    (hset : ∀ v, Q v → I (set v)) : Yields (field seen r set) I := by
  intro ts s rest hts hr
  obtain ⟨⟨v, ts'⟩, honce, hr⟩ := bind_eq_ok.1 hr
  obtain ⟨hv, hrest⟩ := h.once seen hts honce
  cases hr
  exact ⟨hset v hv, hrest⟩

/-! ## Any value -/

theorem Scalar.within_allNumbers (depth : Nat) {s : Scalar} (hs : FiniteToken (.scalar s)) :
    Within depth s.toJson ∧ AllNumbers FiniteNumber s.toJson := by
  cases s with
  | null => exact ⟨.null, .null⟩
  | bool b => exact ⟨.bool, .bool b⟩
  | number n => exact ⟨.number, .number (hs n rfl)⟩
  | string s => exact ⟨.string, .string s⟩

theorem yields_scalar_value (depth : Nat) :
    Yields (scalar some) fun v => Within depth v ∧ AllNumbers FiniteNumber v := by
  refine yields_scalar fun s v hs hv => ?_
  cases hv
  exact s.within_allNumbers depth hs

/-- The members so far nest no deeper, and their numbers are finite. -/
def AllMembers (depth : Nat) (ms : Array (String × Json)) : Prop :=
  ∀ m ∈ ms.toList, Within depth m.2 ∧ AllNumbers FiniteNumber m.2

theorem allMembers_empty (depth : Nat) : AllMembers depth #[] := by simp [AllMembers]

theorem AllMembers.push {depth : Nat} {ms : Array (String × Json)} {k : String} {v : Json}
    (h : AllMembers depth ms) (hv : Within depth v ∧ AllNumbers FiniteNumber v) :
    AllMembers depth (ms.push (k, v)) := by
  intro m hm
  rw [Array.toList_push, List.mem_append, List.mem_singleton] at hm
  rcases hm with hm | rfl
  · exact h m hm
  · exact hv

theorem yields_pushMember {depth : Nat} {done : Array (String × Json)}
    (h : Yields (value depth) fun v => Within depth v ∧ AllNumbers FiniteNumber v) (k : String)
    (hdone : AllMembers depth done) : Yields (pushMember depth k done) (AllMembers depth) := by
  intro ts ms rest hts hr
  obtain ⟨ts', hcolon, hr⟩ := bind_eq_ok.1 hr
  obtain ⟨⟨v, ts''⟩, hvalue, hr⟩ := bind_eq_ok.1 hr
  obtain ⟨hv, hrest⟩ := h (colon_finite hts hcolon) hvalue
  cases hr
  exact ⟨hdone.push hv, hrest⟩

/-- **A value that is read nests no deeper than the reader allows.** -/
theorem yields_value (depth : Nat) :
    Yields (value depth) fun v => Within depth v ∧ AllNumbers FiniteNumber v := by
  induction depth with
  | zero => exact yields_scalar_value 0
  | succ depth ih =>
    intro ts v rest hts hr
    unfold value at hr
    split at hr
    · next heq =>
      cases heq
      obtain ⟨⟨vs, rest'⟩, hitems, heq⟩ := map_eq_ok.1 hr
      cases heq
      obtain ⟨hvs, hrest⟩ := ih.items (by simp) hts.of_cons hitems
      exact ⟨⟨.array fun v hv => (hvs v hv).1, .array fun v hv => (hvs v hv).2⟩, hrest⟩
    · next heq =>
      cases heq
      obtain ⟨⟨ms, rest'⟩, hmembers, heq⟩ := map_eq_ok.1 hr
      cases heq
      obtain ⟨hms, hrest⟩ := yields_members (I := AllMembers depth)
        (fun k _ hdone => yields_pushMember ih k hdone) (allMembers_empty depth) hts.of_cons
        hmembers
      exact ⟨⟨.object fun m hm => (hms m hm).1, .object fun m hm => (hms m hm).2⟩, hrest⟩
    · exact yields_scalar_value _ hts hr

/-! ## Skipping -/

/-- One token is passed over at a time. -/
theorem skipFrom_cons {awaiting : Awaiting} {objects : List Bool} {t : Token}
    (h : skipFrom awaiting objects (t :: ts) = .ok rest) :
    rest = ts ∨ ∃ awaiting' objects', skipFrom awaiting' objects' ts = .ok rest := by
  have hdone (objects : List Bool)
      (h : (if objects = [] then .ok ts else skipFrom .separatorOrEnd objects ts) = .ok rest) :
      rest = ts ∨ ∃ awaiting' objects', skipFrom awaiting' objects' ts = .ok rest := by
    split_ifs at h
    · exact .inl (Except.ok.inj h).symm
    · exact .inr ⟨_, _, h⟩
  unfold skipFrom at h
  dsimp only at h
  split at h
  · next heq => cases heq
  · next heq =>
    cases heq
    exact .inr ⟨_, _, h⟩
  · next heq =>
    cases heq
    exact .inr ⟨_, _, h⟩
  · next heq =>
    cases heq
    exact .inr ⟨_, _, h⟩
  · next heq =>
    cases heq
    cases t with
    | leftBracket | leftBrace =>
      dsimp only at h
      split_ifs at h
      exact .inr ⟨_, _, h⟩
    | rightBracket | rightBrace =>
      dsimp only at h
      split at h
      · exact hdone _ h
      · cases h
    | scalar | flawed =>
      dsimp only at h
      split at h
      · exact hdone _ h
      · split_ifs at h
        exact .inr ⟨_, _, h⟩
    | broken =>
      dsimp only at h
      split_ifs at h
    | comma | colon => cases h

theorem skipFrom_finite {awaiting : Awaiting} {objects : List Bool} (hts : FiniteTokens ts)
    (h : skipFrom awaiting objects ts = .ok rest) : FiniteTokens rest := by
  induction ts generalizing awaiting objects with
  | nil => simp [skipFrom] at h
  | cons t ts ih =>
    rcases skipFrom_cons h with rfl | ⟨_, _, h⟩
    · exact hts.of_cons
    · exact ih hts.of_cons h

/-- A member that is skipped changes nothing. -/
theorem yields_skipMember (hs : I s) : Yields (skipMember s) I := by
  intro ts s' rest hts hr
  obtain ⟨ts', hcolon, hr⟩ := bind_eq_ok.1 hr
  obtain ⟨ts'', hskip, hr⟩ := bind_eq_ok.1 hr
  cases hr
  exact ⟨hs, skipFrom_finite (colon_finite hts hcolon) hskip⟩

end AttackDefense.Json
