import AttackDefense.Proofs.Tree.DepthFirst
import AttackDefense.Proofs.Tree.Sound

/-!
# The walk with defenses

The walk with defenses is the walk with each attached defense put in once.  Which attacks and
subgoals it lists, and in which order, is not changed by that (`filter_depthFirstWithDefenses`);
the defenses in it are those attached to a node of the walk (`mem_depthFirstWithDefenses`), and each
is listed once (`nodup_depthFirstWithDefenses`), behind the first node that it is attached to
(`Sound.exists_run`).
-/

namespace AttackDefense.Tree

variable {t : Tree}

/-! ## Kinds of children and defenses -/

theorem mem_defensesOf_iff {d x : NodeId} :
    d ∈ t.defensesOf x ↔ ∃ node, t.node? x = some node ∧ d ∈ node.defenses := by
  unfold defensesOf
  cases t.node? x <;> simp

theorem Sound.isDefense_of_mem (hs : t.Sound) {d x : NodeId} (h : d ∈ t.defensesOf x) :
    t.isDefense d := by
  obtain ⟨node, hn, hd⟩ := mem_defensesOf_iff.1 h
  have hf := hs.fits x node hn
  cases node with
  | attack a => exact (hf.2 d hd).2
  | defense e => cases hd
  | subgoal s => exact (hf.defenses d hd).2

theorem Sound.kind_of_mem_children (hs : t.Sound) {c p : NodeId} (h : c ∈ t.children p) :
    t.isAttack c ∨ t.isSubgoal c := by
  obtain ⟨s, hs', hc⟩ := mem_children_iff.1 h
  have hf : t.SubgoalFits p s := hs.fits p _ (subgoal?_eq_some.1 hs')
  rcases List.mem_append.1 hc with hc | hc
  · exact .inl (hf.attacks c hc).2
  · exact .inr (hf.subgoals c hc).2

/-- Nothing that is found by walking down from an attack or a subgoal is a defense. -/
theorem Sound.not_isDefense_of_below (hs : t.Sound) {p x : NodeId} (hp : ¬ t.isDefense p)
    (h : t.Below p x) : ¬ t.isDefense x := by
  rcases h.eq_or_parent with rfl | ⟨q, _, hx⟩
  · exact hp
  · intro hd
    rcases hs.kind_of_mem_children hx with hk | hk
    · exact not_isDefense_of_isAttack hk hd
    · exact not_isSubgoal_of_isDefense hd hk

/-! ## Listings -/

/-- What a listing has noted as seen is what it lists of defenses, each once. -/
structure ListingOk (t : Tree) (l : Listing) : Prop where
  seen : ∀ d, t.isDefense d → (l.seen.contains d ↔ d ∈ l.visited)
  nodup : (l.visited.toList.filter t.isDefense).Nodup

theorem ListingOk.addDefense {l : Listing} (h : t.ListingOk l) {d : NodeId} (hd : t.isDefense d) :
    t.ListingOk (l.addDefense d) := by
  unfold Listing.addDefense
  split
  · exact h
  · next hnew =>
    have hnot : d ∉ l.visited := fun hm => hnew ((h.seen d hd).2 hm)
    constructor
    · intro e he
      have := h.seen e he
      simp only [Std.HashSet.contains_insert, Bool.or_eq_true, beq_iff_eq, Array.mem_push, this]
      constructor
      · rintro (rfl | hm)
        · exact .inr rfl
        · exact .inl hm
      · rintro (hm | rfl)
        · exact .inr hm
        · exact .inl rfl
    · rw [Array.toList_push, List.filter_append, List.nodup_append]
      refine ⟨h.nodup, (List.pairwise_singleton _ _).filter _, ?_⟩
      rintro a ha b hb rfl
      have hab : a = d := by simpa using (List.mem_filter.1 hb).1
      exact hnot (hab ▸ Array.mem_toList_iff.1 (List.mem_filter.1 ha).1)

theorem mem_addDefense {l : Listing} (h : t.ListingOk l) {d x : NodeId} (hd : t.isDefense d) :
    x ∈ (l.addDefense d).visited ↔ x ∈ l.visited ∨ x = d := by
  unfold Listing.addDefense
  split
  · next hold =>
    have := (h.seen d hd).1 hold
    constructor
    · exact .inl
    · rintro (hx | rfl)
      · exact hx
      · exact this
  · exact Array.mem_push

/-- Defenses that are added in turn. -/
theorem ListingOk.addDefenses {l : Listing} (h : t.ListingOk l) (ds : List NodeId)
    (hds : ∀ d ∈ ds, t.isDefense d) :
    t.ListingOk (ds.foldl Listing.addDefense l) ∧
      ∀ x, x ∈ (ds.foldl Listing.addDefense l).visited ↔ x ∈ l.visited ∨ x ∈ ds := by
  induction ds generalizing l with
  | nil => exact ⟨h, by simp⟩
  | cons d ds ih =>
    have hd := hds d List.mem_cons_self
    obtain ⟨hok, hmem⟩ := ih (h.addDefense hd) fun e he => hds e (List.mem_cons_of_mem _ he)
    refine ⟨hok, fun x => ?_⟩
    rw [List.foldl_cons, hmem, mem_addDefense h hd, List.mem_cons, or_assoc]

/-- A test that no defense passes does not see them being added. -/
theorem filter_addDefenses {q : NodeId → Bool} (l : Listing) (ds : List NodeId)
    (hq : ∀ d ∈ ds, q d = false) :
    (ds.foldl Listing.addDefense l).visited.toList.filter q = l.visited.toList.filter q := by
  induction ds generalizing l with
  | nil => rfl
  | cons d ds ih =>
    rw [List.foldl_cons, ih _ fun e he => hq e (List.mem_cons_of_mem _ he)]
    unfold Listing.addDefense
    split
    · rfl
    · rw [Array.toList_push, List.filter_append, List.filter_singleton, hq d List.mem_cons_self]
      simp

theorem ListingOk.push {l : Listing} (h : t.ListingOk l) {x : NodeId} (hx : ¬ t.isDefense x) :
    t.ListingOk { l with visited := l.visited.push x } := by
  constructor
  · intro d hd
    have hne : d ≠ x := fun he => hx (he ▸ hd)
    rw [h.seen d hd, Array.mem_push]
    simp [hne]
  · rw [Array.toList_push, List.filter_append, List.filter_singleton]
    simpa [hx] using h.nodup

theorem ListingOk.addNode (hs : t.Sound) {l : Listing} (h : t.ListingOk l) {x : NodeId}
    (hx : ¬ t.isDefense x) :
    t.ListingOk (l.addNode t x) ∧
      ∀ y, y ∈ (l.addNode t x).visited ↔ y ∈ l.visited ∨ y = x ∨ y ∈ t.defensesOf x := by
  obtain ⟨hok, hmem⟩ := (h.push hx).addDefenses (t.defensesOf x) fun d hd => hs.isDefense_of_mem hd
  refine ⟨hok, fun y => ?_⟩
  rw [Listing.addNode, hmem, Array.mem_push, or_assoc]

/-- All that is known of a listing after some nodes of a walk. -/
theorem ListingOk.addNodes (hs : t.Sound) {l : Listing} (h : t.ListingOk l) (xs : List NodeId)
    (hxs : ∀ x ∈ xs, ¬ t.isDefense x) :
    t.ListingOk (xs.foldl (Listing.addNode t) l) ∧
      ∀ y, y ∈ (xs.foldl (Listing.addNode t) l).visited ↔
        y ∈ l.visited ∨ y ∈ xs ∨ ∃ x ∈ xs, y ∈ t.defensesOf x := by
  induction xs generalizing l with
  | nil => exact ⟨h, by simp⟩
  | cons x xs ih =>
    obtain ⟨hok, hmem⟩ := h.addNode hs (hxs x List.mem_cons_self)
    obtain ⟨hok, hmem'⟩ := ih hok fun y hy => hxs y (List.mem_cons_of_mem _ hy)
    refine ⟨hok, fun y => ?_⟩
    rw [List.foldl_cons, hmem', hmem]
    simp only [List.mem_cons, exists_eq_or_imp]
    constructor
    · rintro ((hy | hy | hy) | hy | hy)
      · exact .inl hy
      · exact .inr (.inl (.inl hy))
      · exact .inr (.inr (.inl hy))
      · exact .inr (.inl (.inr hy))
      · exact .inr (.inr (.inr hy))
    · rintro (hy | (hy | hy) | hy | hy)
      · exact .inl (.inl hy)
      · exact .inl (.inr (.inl hy))
      · exact .inr (.inl hy)
      · exact .inl (.inr (.inr hy))
      · exact .inr (.inr hy)

theorem filter_addNodes (hs : t.Sound) {q : NodeId → Bool} (hq : ∀ d, t.isDefense d → q d = false)
    (l : Listing) (xs : List NodeId) :
    (xs.foldl (Listing.addNode t) l).visited.toList.filter q =
      l.visited.toList.filter q ++ xs.filter q := by
  induction xs generalizing l with
  | nil => simp
  | cons x xs ih =>
    rw [List.foldl_cons, ih, Listing.addNode,
      filter_addDefenses _ _ fun d hd => hq d (hs.isDefense_of_mem hd), Array.toList_push,
      List.filter_append, List.append_assoc, ← List.filter_append]
    rfl

/-! ## The walk from a node -/

section

variable (hs : t.Sound) {start : NodeId} (hstart : ¬ t.isDefense start)

include hs hstart

theorem listingOk_depthFirst :
    t.ListingOk ((t.depthFirst start).foldl (Listing.addNode t) ⟨#[], {}⟩) ∧
      ∀ y, y ∈ ((t.depthFirst start).foldl (Listing.addNode t) ⟨#[], {}⟩).visited ↔
        t.Below start y ∨ ∃ x, t.Below start x ∧ y ∈ t.defensesOf x := by
  have hempty : t.ListingOk ⟨#[], {}⟩ := ⟨by simp, by simp⟩
  have h := hempty.addNodes hs (t.depthFirst start) fun x hx =>
    hs.not_isDefense_of_below hstart (mem_depthFirst.1 hx)
  simpa [mem_depthFirst] using h

theorem mem_depthFirstWithDefenses {d : NodeId} :
    d ∈ (t.depthFirstWithDefenses start).filter t.isDefense ↔
      ∃ x, t.Below start x ∧ d ∈ t.defensesOf x := by
  rw [List.mem_filter, depthFirstWithDefenses, Array.mem_toList_iff,
    (listingOk_depthFirst hs hstart).2]
  constructor
  · rintro ⟨hd | hd, hk⟩
    · exact absurd hk (hs.not_isDefense_of_below hstart hd)
    · exact hd
  · rintro ⟨x, hx, hd⟩
    exact ⟨.inr ⟨x, hx, hd⟩, hs.isDefense_of_mem hd⟩

theorem nodup_depthFirstWithDefenses :
    ((t.depthFirstWithDefenses start).filter t.isDefense).Nodup :=
  (listingOk_depthFirst hs hstart).1.nodup

end

theorem filter_depthFirstWithDefenses (hs : t.Sound) (start : NodeId) {q : NodeId → Bool}
    (hq : ∀ d, t.isDefense d → q d = false) :
    (t.depthFirstWithDefenses start).filter q = (t.depthFirst start).filter q := by
  rw [depthFirstWithDefenses, filter_addNodes hs hq]
  rfl

/-! ## Where a defense is listed -/

/-- Defenses that are added are listed behind what is there. -/
theorem exists_addDefenses (l : Listing) (ds : List NodeId) :
    ∃ run, (ds.foldl Listing.addDefense l).visited.toList = l.visited.toList ++ run ∧ run ⊆ ds := by
  induction ds generalizing l with
  | nil => exact ⟨[], by simp, by simp⟩
  | cons d ds ih =>
    obtain ⟨run, hrun, hsub⟩ := ih (l.addDefense d)
    rw [List.foldl_cons, hrun]
    unfold Listing.addDefense
    split
    · exact ⟨run, rfl, List.subset_cons_of_subset d hsub⟩
    · exact ⟨d :: run, by simp, List.cons_subset_cons d hsub⟩

theorem exists_addNodes (l : Listing) (xs : List NodeId) :
    ∃ post, (xs.foldl (Listing.addNode t) l).visited.toList = l.visited.toList ++ post := by
  induction xs generalizing l with
  | nil => exact ⟨[], by simp⟩
  | cons x xs ih =>
    obtain ⟨post, hpost⟩ := ih (l.addNode t x)
    obtain ⟨run, hrun, -⟩ :=
      exists_addDefenses { l with visited := l.visited.push x } (t.defensesOf x)
    refine ⟨x :: (run ++ post), ?_⟩
    rw [List.foldl_cons, hpost, Listing.addNode, hrun, Array.toList_push]
    simp

/-- A defense is listed in the run of defenses behind the first node that it is attached to. -/
theorem Sound.exists_run (hs : t.Sound) {start o d : NodeId} (hstart : ¬ t.isDefense start)
    {before after : List NodeId} (hwalk : t.depthFirst start = before ++ o :: after)
    (hd : d ∈ t.defensesOf o) (hbefore : ∀ x ∈ before, d ∉ t.defensesOf x) :
    ∃ pre run post, t.depthFirstWithDefenses start = pre ++ o :: (run ++ post) ∧
      pre.filter (!t.isDefense ·) = before ∧ d ∈ run ∧ run ⊆ t.defensesOf o := by
  have hkind : ∀ x ∈ before ++ o :: after, ¬ t.isDefense x := fun x hx =>
    hs.not_isDefense_of_below hstart (mem_depthFirst.1 (hwalk ▸ hx))
  rw [List.forall_mem_append, List.forall_mem_cons] at hkind
  have hempty : t.ListingOk ⟨#[], {}⟩ := ⟨by simp, by simp⟩
  obtain ⟨hok, hmem⟩ := hempty.addNodes hs before hkind.1
  have hplain := filter_addNodes hs (q := fun x => !t.isDefense x) (by simp) ⟨#[], {}⟩ before
  unfold depthFirstWithDefenses
  rw [hwalk, List.foldl_append, List.foldl_cons]
  generalize before.foldl (Listing.addNode t) ⟨#[], {}⟩ = l at hok hmem hplain ⊢
  obtain ⟨run, hrun, hsub⟩ :=
    exists_addDefenses { l with visited := l.visited.push o } (t.defensesOf o)
  obtain ⟨post, hpost⟩ := exists_addNodes (t := t) (l.addNode t o) after
  have hadd : (l.addNode t o).visited.toList = l.visited.toList ++ o :: run := by
    rw [Listing.addNode, hrun, Array.toList_push]
    simp
  refine ⟨l.visited.toList, run, post, by rw [hpost, hadd]; simp, ?_, ?_, hsub⟩
  · rw [hplain]
    simpa using hkind.1
  · -- the defense is listed by now, but neither before the node nor as the node
    have hdefense := hs.isDefense_of_mem hd
    have hlisted := ((hok.addNode hs hkind.2.1).2 d).2 (.inr (.inr hd))
    rw [← Array.mem_toList_iff, hadd, List.mem_append, List.mem_cons] at hlisted
    rcases hlisted with hold | rfl | hnew
    · rw [Array.mem_toList_iff, hmem] at hold
      rcases hold with hold | hold | ⟨x, hx, hdx⟩
      · simp at hold
      · exact absurd hdefense (hkind.1 d hold)
      · exact absurd hdx (hbefore x hx)
    · exact absurd hdefense hkind.2.1
    · exact hnew

end AttackDefense.Tree
