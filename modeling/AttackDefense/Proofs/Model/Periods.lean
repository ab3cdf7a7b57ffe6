import AttackDefense.Proofs.Automaton.Periods
import AttackDefense.Proofs.Model.Guards
import AttackDefense.Proofs.Model.Lossless
import AttackDefense.Proofs.Model.Symbols

/-!
# Overriding a period is rebuilding

A model reads the period of a defense in one place only, where it is declared; everything else that
is written comes from the automaton, which is the same under other periods up to the tree in it.  So
two models are written alike if they agree on the periods of all defenses (`text_eq_of_period_eq`).

After a run of calls a defense has the period of the last call of its name that succeeded, or else
the one it had before:

    m.graph.tree.defense? d = some x →
      (m.setPeriods calls).period d = (m.lastPeriod calls x.name).getD (m.period d)
                                                                            (period_setPeriods)

The periods stand in one line of the declaration, where they are read from the text
(`read_periods`).
-/

namespace AttackDefense.Model

open AttackDefense.Graph

variable {m m' : Model} {f : String → Option UInt32}

/-! ## Runs of calls -/

/-- The model as some calls leave it, which may succeed or be refused. -/
def setPeriods (m : Model) : List (String × UInt32) → Model
  | [] => m
  | (name, period) :: calls => ((periodCall name period).answer m).1.setPeriods calls

/-- The calls that succeed, in their order. -/
def successes (m : Model) : List (String × UInt32) → List (String × UInt32)
  | [] => []
  | (name, period) :: calls =>
    match m.setPeriod name period with
    | .ok m' => (name, period) :: m'.successes calls
    | .error _ => m.successes calls

/-- The period of the last call for a name that succeeds. -/
def lastPeriod (m : Model) (calls : List (String × UInt32)) (name : String) : Option UInt32 :=
  (((m.successes calls).filter fun call => call.1 = name).map Prod.snd).getLast?

theorem setPeriods_append (m : Model) (before after : List (String × UInt32)) :
    m.setPeriods (before ++ after) = (m.setPeriods before).setPeriods after := by
  induction before generalizing m with
  | nil => rfl
  | cons call before ih =>
    simp only [List.cons_append, setPeriods]
    exact ih _

theorem setPeriods_cons_of_ok {name : String} {period : UInt32}
    (h : m.setPeriod name period = .ok m') (calls : List (String × UInt32)) :
    m.setPeriods ((name, period) :: calls) = m'.setPeriods calls := by
  obtain ⟨r, hr, rfl⟩ := map_eq_ok.1 h
  rw [setPeriods, Call.outcome_eq_ok.1 hr]

/-- A call that is refused might as well not be made. -/
theorem setPeriods_cons_of_error {name : String} {period : UInt32} {fault : Fault}
    (h : m.setPeriod name period = .error fault) (calls : List (String × UInt32)) :
    m.setPeriods ((name, period) :: calls) = m.setPeriods calls := by
  have hfault := Call.outcome_eq_error.1 (map_eq_error.1 h)
  have hkeep : ((periodCall name period).answer m).1 = m :=
    safe_periodCall name period m _ fault (Prod.ext rfl hfault)
  rw [setPeriods, hkeep]

theorem lastPeriod_cons_of_ok {name : String} {period : UInt32}
    (h : m.setPeriod name period = .ok m') (calls : List (String × UInt32)) (other : String) :
    m.lastPeriod ((name, period) :: calls) other =
      (m'.lastPeriod calls other).or (if name = other then some period else none) := by
  unfold lastPeriod
  rw [successes, h]
  by_cases hname : name = other
  · rw [List.filter_cons_of_pos (by simpa using hname), List.map_cons, List.getLast?_cons,
      if_pos hname]
    cases List.getLast? _ <;> rfl
  · rw [List.filter_cons_of_neg (by simpa using hname), if_neg hname, Option.or_none]

theorem lastPeriod_cons_of_error {name : String} {period : UInt32} {fault : Fault}
    (h : m.setPeriod name period = .error fault) (calls : List (String × UInt32)) :
    m.lastPeriod ((name, period) :: calls) = m.lastPeriod calls := by
  funext other
  rw [lastPeriod, successes, h, lastPeriod]

/-- A run changes periods only. -/
theorem overridden_setPeriods {m₀ : Model} (h : m₀.Overridden m) (calls : List (String × UInt32)) :
    m₀.Overridden (m.setPeriods calls) := by
  induction calls generalizing m with
  | nil => exact h
  | cons call calls ih =>
    obtain ⟨name, period⟩ := call
    cases hset : m.setPeriod name period with
    | ok m' =>
      rw [setPeriods_cons_of_ok hset]
      exact ih (h.set hset)
    | error _ =>
      rw [setPeriods_cons_of_error hset]
      exact ih h

/-! ## Periods after a run -/

theorem period_ofAutomaton {a : Automaton} {settings : QuerySettings} {d : NodeId} {x : Defense}
    (hx : a.graph.tree.defense? d = some x) : (ofAutomaton a settings).period d = x.period := by
  simp [Model.period, ofAutomaton, graph, hx]

theorem lastPeriod_ne_zero (m : Model) (calls : List (String × UInt32)) (name : String) :
    m.lastPeriod calls name ≠ some 0 := by
  induction calls generalizing m with
  | nil => exact nofun
  | cons call calls ih =>
    obtain ⟨other, period⟩ := call
    cases hset : m.setPeriod other period with
    | error _ =>
      rw [lastPeriod_cons_of_error hset]
      exact ih m
    | ok m' =>
      obtain ⟨_, _, _, _, hperiod, _⟩ := setPeriod_eq_ok.1 hset
      rw [lastPeriod_cons_of_ok hset, ne_eq, Option.or_eq_some_iff, not_or]
      refine ⟨ih m', ?_⟩
      rintro ⟨_, hlast⟩
      split at hlast
      · exact hperiod (Option.some.inj hlast)
      · cases hlast

/-- A call that succeeds changes the period of the defense of its name. -/
theorem period_of_setPeriod (hg : m.graph.Sound) {d : NodeId} {x : Defense}
    (hx : m.graph.tree.defense? d = some x) {name : String} {period : UInt32}
    (h : m.setPeriod name period = .ok m') :
    m'.period d = if name = x.name then period else m.period d := by
  obtain ⟨e, hfind, _, _, _, rfl⟩ := setPeriod_eq_ok.1 h
  have hnode : m.graph.tree.find? x.name = some d :=
    (hg.tree.find?_iff _ _).2 ⟨_, Tree.defense?_eq_some.1 hx, rfl⟩
  by_cases hname : name = x.name
  · obtain rfl : e = d := Option.some.inj (hfind.symm.trans (hname ▸ hnode))
    simp [Model.period, hname]
  · have hne : e ≠ d := by
      rintro rfl
      obtain ⟨node, hother, rfl⟩ := (hg.tree.find?_iff _ _).1 hfind
      rw [Tree.defense?_eq_some.1 hx] at hother
      cases hother
      exact hname rfl
    rw [if_neg hname, Model.period, Std.HashMap.getElem?_insert, if_neg (by simpa using hne)]
    rfl

/-- **Run lemma.**  After a run, a defense has the period of the last call of its name that
succeeded. -/
theorem period_setPeriods (hg : m.graph.Sound) {d : NodeId} {x : Defense}
    (hx : m.graph.tree.defense? d = some x) (calls : List (String × UInt32)) :
    (m.setPeriods calls).period d = (m.lastPeriod calls x.name).getD (m.period d) := by
  induction calls generalizing m with
  | nil => rfl
  | cons call calls ih =>
    obtain ⟨name, period⟩ := call
    cases hset : m.setPeriod name period with
    | error _ => rw [setPeriods_cons_of_error hset, lastPeriod_cons_of_error hset, ih hg hx]
    | ok m' =>
      have hgraph : m'.graph = m.graph :=
        congrArg Automaton.graph (Overridden.refl.set hset).automaton_eq
      rw [setPeriods_cons_of_ok hset, lastPeriod_cons_of_ok hset, ih (hgraph ▸ hg) (hgraph ▸ hx),
        period_of_setPeriod hg hx hset]
      split <;> cases m'.lastPeriod calls x.name <;> rfl

/-! ## What is written -/

section

variable (hautomaton : m'.automaton = m.automaton.withPeriods f)
  (hsettings : m'.settings = m.settings)

include hautomaton

theorem graph_of_withPeriods : m'.graph = m.graph.withPeriods f :=
  congrArg Automaton.graph hautomaton

/-- The sections of the declaration agree if the periods do. -/
theorem sections_eq_of_period_eq
    (hperiod : ∀ d x, m.graph.tree.defense? d = some x → m'.period d = m.period d) :
    m'.sections = m.sections := by
  have hgraph := graph_of_withPeriods hautomaton
  have hdefenses : (m'.graph.defenses.filterMap fun d =>
      (m'.graph.tree.defense? d).map fun x => (x, m'.period d)) =
      (m.graph.defenses.filterMap fun d =>
        (m.graph.tree.defense? d).map fun x => (x, m.period d)).map
        (Prod.map (Defense.withPeriod f) id) := by
    rw [List.map_filterMap, hgraph]
    apply List.filterMap_congr
    intro d _
    rw [tree_withPeriods, Tree.defense?_withPeriods]
    cases hd : m.graph.tree.defense? d with
    | none => rfl
    | some x => simp [hperiod d x hd]
  have hsection (l : List (Defense × UInt32)) :
      defenseSection (l.map (Prod.map (Defense.withPeriod f) id)) = defenseSection l := by
    simp [defenseSection, Defense.withPeriod, Function.comp_def]
  unfold sections
  rw [hdefenses, hgraph]
  simp [hsection]

include hsettings

theorem queries_of_withPeriods : m'.queries = m.queries := by
  obtain ⟨_, _, _⟩ := m'
  cases hautomaton
  cases hsettings
  rfl

theorem template_of_withPeriods : m'.template = m.template := by
  have hgraph := graph_of_withPeriods hautomaton
  have hinvariant : m'.invariant = m.invariant := by
    funext s
    simp [invariant, hgraph]
  have hlabels : m'.labels = m.labels := by
    funext phase move
    simp [labels, defenseGuard, weight, hgraph, hsettings]
  have hlocation : m'.location = m.location := by
    funext id s
    simp [location, hinvariant]
  have htransition : m'.transition = m.transition := by
    funext e
    simp only [transition, hlabels, hautomaton]
    rfl
  have hnumbered : m'.numbered = m.numbered := by
    rw [numbered, hautomaton]
    rfl
  have hedges : m'.automaton.edges = m.automaton.edges := by
    rw [hautomaton]
    rfl
  unfold template
  rw [hnumbered, hlocation, htransition, hedges]
  rfl

/-- **What is written depends on the periods of defenses only.** -/
theorem text_eq_of_period_eq
    (hperiod : ∀ d x, m.graph.tree.defense? d = some x → m'.period d = m.period d) :
    m'.text = m.text := by
  have hdocument : m'.document = m.document := by
    rw [document, declaration, sections_eq_of_period_eq hautomaton hperiod, queriesElement,
      queries_of_withPeriods hautomaton hsettings, template_of_withPeriods hautomaton hsettings]
    rfl
  rw [text, hdocument, text]

end

/-- The constants of the periods of all defenses. -/
def writtenPeriods (m : Model) : List (Constant × Nat) :=
  m.graph.defenses.filterMap fun d =>
    (m.graph.tree.defense? d).map fun x => (.duration x.name, (m.period d).toNat)

/-- The periods stand in one line of the declaration, which is empty without defenses. -/
theorem infix_periods (m : Model) :
    (wholes m.writtenPeriods).text.toList <:+: m.declaration.toList := by
  let defenses := m.graph.defenses.filterMap fun d =>
    (m.graph.tree.defense? d).map fun x => (x, m.period d)
  have hperiods : m.writtenPeriods =
      defenses.map fun e => (.duration e.1.name, e.2.toNat) := by
    simp [writtenPeriods, defenses, List.map_filterMap, Function.comp_def]
  by_cases hnil : defenses = []
  · rw [hperiods, hnil]
    exact List.nil_infix
  · have hsection : defenseSection defenses ∈ m.sections := by
      refine List.mem_append_right _ ?_
      rw [if_neg (by simpa [defenses] using hnil)]
      exact List.mem_singleton_self _
    have hline : wholes m.writtenPeriods ∈ defenseSection defenses := by
      rw [hperiods]
      exact List.mem_cons_of_mem _ List.mem_cons_self
    exact infix_declaration hsection hline

/-- **Written periods.**  A reader of the text finds the periods in the declaration. -/
theorem read_periods (m : Model) : ∃ root, Markup.read m.text = some root ∧
    ∃ e ∈ root.path ["declaration"],
      (wholes m.writtenPeriods).text.toList <:+: e.content.toList := by
  refine ⟨m.document, read_text m, .text "declaration" [] m.declaration, ?_, infix_periods m⟩
  simp [Markup.Element.path, childrenTagged_declaration]

/-! ## The vault -/

theorem exists_setPeriod_alarm (hm : m.graph = vault) {period : UInt32} (hperiod : period ≠ 0) :
    ∃ m', m.setPeriod "alarm" period = .ok m' ∧ m'.graph = vault := by
  have hfind : vault.tree.find? "alarm" = some 0 :=
    (built_vault.sound.tree.find?_iff _ _).2 ⟨_, rfl, rfl⟩
  refine ⟨_, setPeriod_eq_ok.2 ⟨0, hm ▸ hfind, ?_, ?_, hperiod, rfl⟩, hm⟩
  · rw [hm]
    decide
  · rw [hm]
    decide

/-- The alarm is the only defense of the vault, and no period is zero. -/
theorem setPeriod_vault_refused (hm : m.graph = vault) (name : String) (period : UInt32)
    (hcall : name ≠ "alarm" ∨ period = 0) : ∃ fault, m.setPeriod name period = .error fault := by
  cases hset : m.setPeriod name period with
  | error fault => exact ⟨fault, rfl⟩
  | ok m' =>
    obtain ⟨d, hfind, _, hd, hperiod, _⟩ := setPeriod_eq_ok.1 hset
    rw [hm] at hfind hd
    obtain rfl := List.mem_singleton.1 hd
    obtain ⟨_, hnode, rfl⟩ := (built_vault.sound.tree.find?_iff _ _).1 hfind
    cases hnode
    exact absurd rfl (hcall.resolve_right hperiod)

end AttackDefense.Model

namespace AttackDefense.Automaton

open AttackDefense.Graph Model

variable {g : Graph} {a : Automaton}

/-- **Overriding a period is rebuilding.**  Take a tree, its automaton, and any calls that override
periods, some of which may be refused.  In the same tree let each defense have the period of the
last call of its name that succeeded.  This is a tree that can be built, with a graph and with an
automaton under the same bound on the states, and its model with the same settings has the text and
the queries of the model after the calls.  A call that is refused might as well not have been
made. -/
theorem override_eq_rebuild {t : Tree} {root : NodeId} (ht : t.Built) (hg : ofTree t root = .ok g)
    {maxStates : Nat} (h : build g maxStates = .ok a) (settings : QuerySettings)
    (calls : List (String × UInt32)) :
    (t.withPeriods ((ofAutomaton a settings).lastPeriod calls)).Built ∧
    (∃ g' a', ofTree (t.withPeriods ((ofAutomaton a settings).lastPeriod calls)) root = .ok g' ∧
      build g' maxStates = .ok a' ∧
      ((ofAutomaton a settings).setPeriods calls).text = (ofAutomaton a' settings).text ∧
      ((ofAutomaton a settings).setPeriods calls).queries = (ofAutomaton a' settings).queries) ∧
    ∀ before name period after fault, calls = before ++ (name, period) :: after →
      ((ofAutomaton a settings).setPeriods before).setPeriod name period = .error fault →
      (ofAutomaton a settings).setPeriods calls =
        (ofAutomaton a settings).setPeriods (before ++ after) := by
  let m := ofAutomaton a settings
  let f := m.lastPeriod calls
  have hsound : g.Sound := Built.sound ⟨t, root, ht, hg⟩
  obtain rfl : m.graph = g := (unfolds_of_build hsound h).graph
  have hrun := overridden_setPeriods (.refl : m.Overridden m) calls
  have hautomaton : (ofAutomaton (a.withPeriods f) settings).automaton =
      (m.setPeriods calls).automaton.withPeriods f := by
    rw [hrun.automaton_eq]
    rfl
  have hsettings : (ofAutomaton (a.withPeriods f) settings).settings =
      (m.setPeriods calls).settings := hrun.settings_eq.symm
  have hperiod : ∀ d x, (m.setPeriods calls).graph.tree.defense? d = some x →
      (ofAutomaton (a.withPeriods f) settings).period d = (m.setPeriods calls).period d := by
    intro d x hx
    rw [Model.graph, hrun.automaton_eq] at hx
    have hx' : (a.withPeriods f).graph.tree.defense? d = some (x.withPeriod f) :=
      (Tree.defense?_withPeriods f _ d).trans (congrArg _ hx)
    have hbefore : m.period d = x.period := period_ofAutomaton hx
    have hrebuilt : (ofAutomaton (a.withPeriods f) settings).period d = (x.withPeriod f).period :=
      period_ofAutomaton hx'
    rw [period_setPeriods hsound hx, hbefore, hrebuilt]
    rfl
  refine ⟨ht.withPeriods (lastPeriod_ne_zero m calls), ?_, ?_⟩
  · refine ⟨m.graph.withPeriods f, a.withPeriods f, ?_, ?_, ?_⟩
    · rw [ofTree_withPeriods, hg]
      rfl
    · rw [build_withPeriods, h]
      rfl
    · exact ⟨(text_eq_of_period_eq hautomaton hsettings hperiod).symm,
        (queries_of_withPeriods hautomaton hsettings).symm⟩
  · rintro before name period after fault rfl herror
    rw [setPeriods_append, setPeriods_cons_of_error herror, setPeriods_append]

/-- Calls that succeed and calls that are refused, in turn.  The period of the last one that succeeds
is read from the text. -/
theorem override_eq_rebuild_vault :
    ∃ a, build vault 7 = .ok a ∧
      let m := ofAutomaton a .standard
      let calls := [("alarm", 9), ("steal", 7), ("alarm", 8), ("alarm", 0)]
      m.lastPeriod calls "alarm" = some 8 ∧
      (∃ root, Markup.read (m.setPeriods calls).text = some root ∧
        ∃ e ∈ root.path ["declaration"], "const int t_alarm = 8;\n".toList <:+: e.content.toList) ∧
      ∃ g' a', ofTree (vaultTree.withPeriods (m.lastPeriod calls)) 3 = .ok g' ∧
        build g' 7 = .ok a' ∧ (m.setPeriods calls).text = (ofAutomaton a' .standard).text := by
  obtain ⟨a, ha⟩ := exists_build_vault
  let m := ofAutomaton a .standard
  let calls : List (String × UInt32) := [("alarm", 9), ("steal", 7), ("alarm", 8), ("alarm", 0)]
  have hgraph : m.graph = vault := (unfolds_of_build built_vault.sound ha).graph
  obtain ⟨m₁, h₁, hm₁⟩ := exists_setPeriod_alarm hgraph (show 9 ≠ 0 by decide)
  obtain ⟨_, h₂⟩ := setPeriod_vault_refused hm₁ "steal" 7 (.inl (by decide))
  obtain ⟨m₃, h₃, hm₃⟩ := exists_setPeriod_alarm hm₁ (show 8 ≠ 0 by decide)
  obtain ⟨_, h₄⟩ := setPeriod_vault_refused hm₃ "alarm" 0 (.inr rfl)
  have hlast : m.lastPeriod calls "alarm" = some 8 := by
    rw [lastPeriod_cons_of_ok h₁, lastPeriod_cons_of_error h₂, lastPeriod_cons_of_ok h₃,
      lastPeriod_cons_of_error h₄]
    rfl
  have halarm : (m.setPeriods calls).writtenPeriods = [(.duration "alarm", 8)] := by
    have hafter : (m.setPeriods calls).graph = vault :=
      (congrArg Automaton.graph (overridden_setPeriods .refl calls).automaton_eq).trans hgraph
    have hdefense : m.graph.tree.defense? 0 = some ⟨"alarm", 5, ⟨0x3fe0000000000000⟩, 1⟩ := by
      rw [hgraph]
      rfl
    have hperiod : (m.setPeriods calls).period 0 = 8 := by
      rw [period_setPeriods (hgraph ▸ built_vault.sound) hdefense, hlast]
      rfl
    rw [writtenPeriods, hafter]
    show [(Constant.duration "alarm", ((m.setPeriods calls).period 0).toNat)] = _
    rw [hperiod]
    rfl
  obtain ⟨root, hread, e, he, hline⟩ := read_periods (m.setPeriods calls)
  rw [halarm] at hline
  obtain ⟨_, ⟨g', a', hg', ha', htext, _⟩, _⟩ :=
    override_eq_rebuild built_vaultTree ofTree_vaultTree ha .standard calls
  exact ⟨a, ha, hlast, ⟨root, hread, e, he, hline⟩, g', a', hg', ha', htext⟩

end AttackDefense.Automaton
