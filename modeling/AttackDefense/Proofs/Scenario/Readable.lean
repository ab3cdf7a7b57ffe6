import AttackDefense.Proofs.Scenario.Records

/-!
# What is known of a scenario that was read

Whatever form a scenario is read from, its probabilities are finite, and its root was taken apart
from a value that nests no deeper than the reader allows, so that the root can be written to the same
depth and taken apart again (`yields_readRoot`):

    Yields readDefense fun d => d.successProbability.isFinite                  (yields_readDefense)
    Yields readRoot Goal.Readable                                                 (yields_readRoot)
    Yields read Readable                                                              (yields_read)
-/

namespace AttackDefense.Scenario

open Json Reader Decimal

theorem need_eq_ok {α : Type} {o : Option α} {a : α} : need o = .ok a ↔ o = some a := by
  cases o <;> simp [need]

/-! ## Defenses -/

/-- The members of a defense, each a field or skipped. -/
theorem readDefenseMember_eq (k : String) (f : DefenseFields) :
    readDefenseMember k f =
      if k = "name" then field f.name Reader.string fun v => { f with name := some v }
      else if k = "period" then field f.period int64 fun v => { f with period := some v }
      else if k = "success_probability" then
        field f.successProbability float fun v => { f with successProbability := some v }
      else if k = "cost" then field f.cost int64 fun v => { f with cost := some v }
      else skipMember f := by
  unfold readDefenseMember
  split_ifs <;> rfl

/-- The probability of a defense read so far is finite. -/
def DefenseFields.Finite (f : DefenseFields) : Prop := ∀ x ∈ f.successProbability, x.isFinite

theorem yields_readDefenseMember {f : DefenseFields} (k : String) (hf : f.Finite) :
    Yields (readDefenseMember k f) DefenseFields.Finite := by
  rw [readDefenseMember_eq]
  split_ifs
  · exact yields_scalar_any.field _ fun _ _ => hf
  · exact yields_scalar_any.field _ fun _ _ => hf
  · refine yields_float.field _ fun x hx => ?_
    rintro _ ⟨⟩
    exact hx
  · exact yields_scalar_any.field _ fun _ _ => hf
  · exact yields_skipMember hf

theorem yields_readDefense : Yields readDefense fun d => d.successProbability.isFinite := by
  intro ts d rest hts hr
  unfold readDefense at hr
  split at hr
  · obtain ⟨⟨f, ts'⟩, hmembers, hr⟩ := bind_eq_ok.1 hr
    have hstart : DefenseFields.Finite ⟨none, none, none, none⟩ := by
      simp [DefenseFields.Finite]
    obtain ⟨hf, hrest⟩ := yields_members (fun k _ hf => yields_readDefenseMember k hf) hstart
      hts.of_cons hmembers
    simp only [bind_eq_ok, need_eq_ok] at hr
    obtain ⟨_, -, _, -, x, hx, hr⟩ := hr
    cases hr
    exact ⟨hf x hx, hrest⟩
  · simp only [bind_eq_ok, need_eq_ok] at hr
    obtain ⟨⟨_, ts₁⟩, hname, _, rfl, ⟨_, ts₂⟩, hperiod, _, rfl, ⟨_, ts₃⟩, hprobability, x, rfl,
      ⟨_, ts₄⟩, hcost, ts₅, hclose, hr⟩ := hr
    cases hr
    have h₁ := (yields_scalar_any.item? hts.of_cons hname).2
    have h₂ := (yields_scalar_any.item? h₁ hperiod).2
    obtain ⟨hx, h₃⟩ := yields_float.item? h₂ hprobability
    have h₄ := (yields_scalar_any.item? h₃ hcost).2
    exact ⟨hx x rfl, closeArray_finite h₄ hclose⟩
  · cases hr

/-! ## The root -/

theorem yields_readTag (depth : Nat) :
    Yields readTag fun v => Within depth v ∧ AllNumbers FiniteNumber v := by
  refine yields_scalar fun s v hs hv => ?_
  obtain ⟨_, -, rfl⟩ := Option.map_eq_some_iff.1 hv
  exact s.within_allNumbers depth hs

/-- The members of the root, each the kind or a plain value. -/
theorem readRootMember_eq (depth : Nat) (k : String) (s : RootMembers) :
    readRootMember depth k s =
      if k = "type" then field s.tag readTag fun v => ⟨some v, s.members.push (k, v)⟩
      else fun ts =>
        (pushMember depth k s.members ts).map fun taken => (⟨s.tag, taken.1⟩, taken.2) := by
  unfold readRootMember
  split_ifs
  · rfl
  · funext ts
    unfold pushMember
    cases colon ts with
    | error => rfl
    | ok ts' =>
      simp only [bind, Except.bind]
      cases value depth ts' <;> rfl

theorem yields_readRootMember {depth : Nat} {s : RootMembers} (k : String)
    (hs : AllMembers depth s.members) :
    Yields (readRootMember depth k s) fun s => AllMembers depth s.members := by
  rw [readRootMember_eq]
  split_ifs
  · exact (yields_readTag depth).field _ fun v hv => hs.push hv
  · intro ts s' rest hts hr
    obtain ⟨⟨ms, ts'⟩, hpush, heq⟩ := map_eq_ok.1 hr
    cases heq
    exact yields_pushMember (yields_value depth) k hs hts hpush

theorem yields_readRootJson (depth : Nat) :
    Yields (readRootJson depth) fun v => Within (depth + 1) v ∧ AllNumbers FiniteNumber v := by
  intro ts v rest hts hr
  unfold readRootJson at hr
  split at hr
  · obtain ⟨⟨s, ts'⟩, hmembers, hr⟩ := bind_eq_ok.1 hr
    obtain ⟨hms, hrest⟩ := yields_members (I := fun s => AllMembers depth s.members)
      (fun k _ hs => yields_readRootMember k hs) (allMembers_empty depth) hts.of_cons hmembers
    cases hr
    exact ⟨⟨.object fun m hm => (hms m hm).1, .object fun m hm => (hms m hm).2⟩, hrest⟩
  · simp only [bind_eq_ok, need_eq_ok] at hr
    obtain ⟨⟨_, ts₁⟩, htag, tag, rfl, ⟨vs, ts₂⟩, hitems, hr⟩ := hr
    cases hr
    obtain ⟨hfirst, h₁⟩ := (yields_readTag depth).item? hts.of_cons htag
    obtain ⟨hvs, h₂⟩ := (yields_value depth).items (by simp) h₁ hitems
    have hall : ∀ v ∈ tag :: vs, Within depth v ∧ AllNumbers FiniteNumber v :=
      List.forall_mem_cons.2 ⟨hfirst tag rfl, hvs⟩
    exact ⟨⟨.array fun v hv => (hall v hv).1, .array fun v hv => (hall v hv).2⟩, h₂⟩
  · cases hr

/-- What is known of a root that was read. -/
structure Goal.Readable (g : Goal) : Prop where
  finite : ∀ x ∈ g.probabilities, x.isFinite
  within : Within (maxDepth - 1) g.toJson
  ofJson : Goal.ofJson? maxDepth g.toJson = some g

/-- **A root that is read can be written and read.** -/
theorem yields_readRoot : Yields readRoot Goal.Readable := by
  intro ts g rest hts hr
  unfold readRoot at hr
  simp only [bind_eq_ok, need_eq_ok] at hr
  obtain ⟨⟨v, ts'⟩, hread, g', hgoal, hr⟩ := hr
  cases hr
  obtain ⟨⟨hwithin, hnumbers⟩, hrest⟩ := yields_readRootJson _ hts hread
  exact ⟨⟨Goal.isFinite_probabilities hnumbers hgoal, Goal.within_toJson hwithin hgoal,
    Goal.ofJson?_toJson hgoal⟩, hrest⟩

/-! ## Scenarios -/

/-- The members of a scenario, each a field or skipped. -/
theorem readMember_eq (k : String) (f : Fields) :
    readMember k f =
      if k = "defenses" then
        field f.defenses (Reader.array readDefense) fun v => { f with defenses := some v }
      else if k = "root" then field f.root readRoot fun v => { f with root := some v }
      else if k = "max_arity" then
        field f.maxArity (nullable uint64) fun v => { f with maxArity := some v }
      else skipMember f := by
  unfold readMember
  split_ifs <;> rfl

/-- What is known of a scenario that was read. -/
structure Readable (s : Scenario) : Prop where
  finite : ∀ d ∈ s.defenses, d.successProbability.isFinite
  root : s.root.Readable

/-- The parts of a scenario read so far. -/
structure Fields.Readable (f : Fields) : Prop where
  finite : ∀ ds ∈ f.defenses, ∀ d ∈ ds, d.successProbability.isFinite
  root : ∀ g ∈ f.root, g.Readable

theorem yields_readMember {f : Fields} (k : String) (hf : f.Readable) :
    Yields (readMember k f) Fields.Readable := by
  rw [readMember_eq]
  split_ifs
  · refine yields_readDefense.array.field _ fun ds hds => ⟨?_, hf.root⟩
    rintro _ ⟨⟩
    exact hds
  · refine yields_readRoot.field _ fun g hg => ⟨hf.finite, ?_⟩
    rintro _ ⟨⟩
    exact hg
  · exact yields_scalar_any.nullable.field _ fun _ _ => ⟨hf.finite, hf.root⟩
  · exact yields_skipMember hf

theorem yields_read : Yields read Readable := by
  intro ts s rest hts hr
  unfold read at hr
  split at hr
  · obtain ⟨⟨f, ts'⟩, hmembers, hr⟩ := bind_eq_ok.1 hr
    have hstart : Fields.Readable ⟨none, none, none⟩ := ⟨by simp, by simp⟩
    obtain ⟨hf, hrest⟩ := yields_members (fun k _ hf => yields_readMember k hf) hstart hts.of_cons
      hmembers
    simp only [bind_eq_ok, need_eq_ok] at hr
    obtain ⟨g, hg, hr⟩ := hr
    cases hr
    refine ⟨⟨?_, hf.root g hg⟩, hrest⟩
    cases hdefenses : f.defenses with
    | none => simp
    | some ds => exact hf.finite ds hdefenses
  · simp only [bind_eq_ok, need_eq_ok] at hr
    obtain ⟨⟨defenses, ts₁⟩, hdefenses, ⟨_, ts₂⟩, hroot, g, rfl, ⟨_, ts₃⟩, harity, ts₄, hclose,
      hr⟩ := hr
    cases hr
    obtain ⟨hds, h₁⟩ := yields_readDefense.array.item? hts.of_cons hdefenses
    obtain ⟨hg, h₂⟩ := yields_readRoot.item? h₁ hroot
    have h₃ := (yields_scalar_any.nullable.item? h₂ harity).2
    refine ⟨⟨?_, hg g rfl⟩, closeArray_finite h₃ hclose⟩
    cases defenses with
    | none => simp
    | some ds => exact hds ds rfl
  · cases hr

end AttackDefense.Scenario
