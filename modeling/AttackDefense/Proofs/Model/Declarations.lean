import AttackDefense.Proofs.Automaton.Reachable
import AttackDefense.Proofs.Graph.Repeats
import AttackDefense.Proofs.Model.Symbols

/-!
# What is declared twice

Symbols have different texts, and nodes have different names, so a name is declared twice only for an
attack that the graph lists twice.  It does if a subgoal lists a child twice, and only then:

    (m.declared.map Item.name).Nodup ↔ ∀ p, g.Reachable p → (g.tree.children p).Nodup
                                                                    (declared_once_iff)

Nothing keeps a subgoal from listing a child twice (`declared_twice`).
-/

namespace AttackDefense.Model

open AttackDefense.Graph

variable {g : Graph} {m : Model}

/-! ## Symbols of different nodes -/

/-- The name of the node that a symbol belongs to. -/
def Symbol.node? : Symbol → Option String
  | .clock (.of node) => some node
  | .constant (.duration node) | .constant (.probability node) => some node
  | .constant (.activationCost node) | .constant (.proportionalCost node) => some node
  | _ => none

/-- Attack by attack, the symbols of attacks are the same in another order. -/
theorem perm_attackSymbols (attacks : List Attack) :
    (attackSymbols attacks).Perm (attacks.flatMap symbolsOfAttack) := by
  induction attacks with
  | nil => rfl
  | cons a attacks ih =>
    rw [List.perm_iff_count] at ih ⊢
    intro s
    have ih := ih s
    cases hcost : a.activationCost <;> cases hrate : a.proportionalCost
    all_goals
      simp only [attackSymbols, symbolsOfAttack, List.map_cons, List.filterMap_cons, hcost, hrate,
        Option.map_none, Option.map_some, Option.toList_none, Option.toList_some,
        List.flatMap_cons, List.count_append, List.count_cons, List.count_nil] at ih ⊢
      omega

theorem perm_defenseSymbols (defenses : List Defense) :
    (defenseSymbols defenses).Perm (defenses.flatMap symbolsOfDefense) := by
  induction defenses with
  | nil => rfl
  | cons d defenses ih =>
    rw [List.perm_iff_count] at ih ⊢
    intro s
    have ih := ih s
    simp only [defenseSymbols, symbolsOfDefense, List.map_cons, List.flatMap_cons,
      List.count_append, List.count_cons, List.count_nil] at ih ⊢
    omega

/-- Nodes have no symbols in common, and each has its clock, so what is listed are different symbols
if different nodes are. -/
theorem nodup_flatMap_symbols_iff {α : Type} {l : List α} {name : α → String}
    {symbols : α → List Symbol} (hnodup : ∀ a, (symbols a).Nodup)
    (hnode : ∀ a, ∀ s ∈ symbols a, s.node? = some (name a))
    (hclock : ∀ a, .clock (.of (name a)) ∈ symbols a) :
    (l.flatMap symbols).Nodup ↔ (l.map name).Nodup := by
  have hdisjoint : ∀ a b, (symbols a).Disjoint (symbols b) ↔ name a ≠ name b := by
    intro a b
    constructor
    · intro h hname
      exact h (hclock a) (hname ▸ hclock b)
    · intro h s ha hb
      exact h (Option.some.inj ((hnode a s ha).symm.trans (hnode b s hb)))
  have hnames : (l.map name).Nodup ↔ l.Pairwise fun a b => name a ≠ name b := List.pairwise_map
  rw [List.nodup_flatMap, hnames]
  constructor
  · exact fun h => h.2.imp fun {a b} => (hdisjoint a b).1
  · exact fun h => ⟨fun a _ => hnodup a, h.imp fun {a b} => (hdisjoint a b).2⟩

theorem node?_of_mem_symbolsOfAttack (a : Attack) :
    ∀ s ∈ symbolsOfAttack a, s.node? = some a.name := by
  intro s hs
  rcases mem_symbolsOfAttack.1 hs with rfl | rfl | rfl | ⟨_, rfl⟩ | ⟨_, rfl⟩
  all_goals rfl

theorem node?_of_mem_symbolsOfDefense (d : Defense) :
    ∀ s ∈ symbolsOfDefense d, s.node? = some d.name := by
  simp [symbolsOfDefense, Symbol.node?]

theorem nodup_attackSymbols_iff {attacks : List Attack} :
    (attackSymbols attacks).Nodup ↔ (attacks.map Attack.name).Nodup := by
  rw [(perm_attackSymbols attacks).nodup_iff]
  refine nodup_flatMap_symbols_iff (fun a => ?_) node?_of_mem_symbolsOfAttack fun a => ?_
  · unfold symbolsOfAttack
    cases a.activationCost <;> cases a.proportionalCost <;> simp
  · simp [symbolsOfAttack]

theorem nodup_defenseSymbols_iff {defenses : List Defense} :
    (defenseSymbols defenses).Nodup ↔ (defenses.map Defense.name).Nodup := by
  rw [(perm_defenseSymbols defenses).nodup_iff]
  refine nodup_flatMap_symbols_iff (fun d => ?_) node?_of_mem_symbolsOfDefense fun d => ?_
  · simp [symbolsOfDefense]
  · simp [symbolsOfDefense]

/-! ## Names of nodes -/

section

variable (hg : g.Sound)

include hg

theorem map_name_attacksOf : (attacksOf g).map Attack.name = g.attacks.map g.name := by
  rw [attacksOf, List.map_filterMap, ← List.filterMap_eq_map]
  apply List.filterMap_congr
  intro id hid
  obtain ⟨a, ha⟩ := Option.isSome_iff_exists.1 (hg.mem_attacks.1 hid).2
  rw [ha, Option.map_some, ← name_of_attack? ha]
  rfl

theorem map_name_defensesOf : (defensesOf g).map Defense.name = g.defenses.map g.name := by
  rw [defensesOf, List.map_filterMap, ← List.filterMap_eq_map]
  apply List.filterMap_congr
  intro id hid
  obtain ⟨d, hd⟩ := Option.isSome_iff_exists.1 (hg.isDefense_of_mem_defenses hid)
  rw [hd, Option.map_some, ← name_of_defense? hd]
  rfl

/-- Different attacks and defenses have different names. -/
theorem name_inj_of_mem {x y : NodeId} (hx : x ∈ g.attacks ++ g.defenses)
    (hy : y ∈ g.attacks ++ g.defenses) (h : g.name x = g.name y) : x = y := by
  have hnode : ∀ {x}, x ∈ g.attacks ++ g.defenses → (g.tree.node? x).isSome := by
    intro x hx
    rcases List.mem_append.1 hx with hx | hx
    · exact isSome_node? (.inl (hg.mem_attacks.1 hx).2)
    · obtain ⟨d, hd⟩ := Tree.isDefense_iff.1 (hg.isDefense_of_mem_defenses hx)
      exact Option.isSome_of_eq_some hd
  exact hg.name_inj (hnode hx) (hnode hy) h

theorem nodup_map_name_attacks_iff : (g.attacks.map g.name).Nodup ↔ g.attacks.Nodup := by
  refine ⟨List.Nodup.of_map _, fun h => h.map_on fun x hx y hy hname => ?_⟩
  exact name_inj_of_mem hg (List.mem_append_left _ hx) (List.mem_append_left _ hy) hname

theorem nodup_map_name_defenses : (g.defenses.map g.name).Nodup := by
  refine hg.nodup_defenses.map_on fun x hx y hy hname => ?_
  exact name_inj_of_mem hg (List.mem_append_right _ hx) (List.mem_append_right _ hy) hname

/-- No node is an attack and a defense, so none has a symbol of both. -/
theorem name_ne_name {a : Attack} {d : Defense} (ha : a ∈ attacksOf g) (hd : d ∈ defensesOf g) :
    a.name ≠ d.name := by
  obtain ⟨x, hx, ha⟩ := List.mem_filterMap.1 ha
  obtain ⟨y, hy, hd⟩ := List.mem_filterMap.1 hd
  rw [← name_of_attack? ha, ← name_of_defense? hd]
  intro hname
  obtain rfl := name_inj_of_mem hg (List.mem_append_left _ hx) (List.mem_append_right _ hy) hname
  exact Tree.not_isDefense_of_isAttack (hg.mem_attacks.1 hx).2 (hg.isDefense_of_mem_defenses hy)

end

/-! ## Declared names -/

theorem map_name_declared (m : Model) :
    m.declared.map Item.name = (m.declared.map Item.symbol).map Symbol.text := by
  rw [List.map_map]
  exact List.map_congr_left fun item _ => item.text_symbol.symm

theorem nodup_declared_iff (hg : m.graph.Sound) :
    (m.declared.map Item.name).Nodup ↔ m.graph.attacks.Nodup := by
  have hcommon : ∀ s ∈ commonSymbols, s.node? = none := by decide
  have hfirst : ∀ s ∈ commonSymbols, ∀ u ∈ attackSymbols (attacksOf m.graph), s ≠ u := by
    rintro s hs _ hu rfl
    obtain ⟨a, _, hu⟩ := mem_attackSymbols.1 hu
    exact absurd ((hcommon s hs).symm.trans (node?_of_mem_symbolsOfAttack a s hu)) (by simp)
  have hsecond : ∀ s ∈ commonSymbols ++ attackSymbols (attacksOf m.graph),
      ∀ u ∈ defenseSymbols (defensesOf m.graph), s ≠ u := by
    rintro s hs _ hu rfl
    obtain ⟨d, hd, hu⟩ := mem_defenseSymbols.1 hu
    have hnode := node?_of_mem_symbolsOfDefense d s hu
    rcases List.mem_append.1 hs with hs | hs
    · exact absurd ((hcommon s hs).symm.trans hnode) (by simp)
    · obtain ⟨a, ha, hs⟩ := mem_attackSymbols.1 hs
      have hname := (node?_of_mem_symbolsOfAttack a s hs).symm.trans hnode
      exact name_ne_name hg ha hd (Option.some.inj hname)
  have hinj : Function.Injective Symbol.text := fun _ _ => Symbol.text_inj.1
  rw [map_name_declared, List.nodup_map_iff hinj, map_symbol_declared, List.nodup_append,
    List.nodup_append, nodup_attackSymbols_iff, nodup_defenseSymbols_iff, map_name_attacksOf hg,
    map_name_defensesOf hg, nodup_map_name_attacks_iff hg]
  constructor
  · exact fun h => h.1.2.1
  · exact fun h => ⟨⟨by decide, h, hfirst⟩, nodup_map_name_defenses hg, hsecond⟩

end AttackDefense.Model

namespace AttackDefense.Automaton

open AttackDefense.Tree AttackDefense.Graph Model

variable {g : Graph} {a : Automaton} {m : Model}

/-- **What is declared twice.**  Whatever the settings are and whatever periods are overridden, the
names that a model declares are all different exactly if no subgoal below the root lists a child
twice. -/
theorem declared_once_iff (hg : g.Built) {maxStates : Nat} (h : build g maxStates = .ok a)
    (hm : m.automaton = a) :
    (m.declared.map Item.name).Nodup ↔ ∀ p, g.tree.Below g.root p → (g.tree.children p).Nodup := by
  subst hm
  obtain rfl : m.graph = g := (unfolds_of_build hg.sound h).graph
  rw [nodup_declared_iff hg.sound, hg.sound.nodup_attacks_iff]

/-- The declaration of the vault: an attack and a defense, each listed once. -/
theorem declared_once_iff_vault :
    ∃ a, build vault 7 = .ok a ∧
      ((ofAutomaton a .standard).declared.map Item.name).Nodup := by
  obtain ⟨a, ha⟩ := exists_build_vault
  refine ⟨a, ha, (declared_once_iff built_vault ha rfl).2 fun p hp => ?_⟩
  have hbound : p < 4 := lt_size_of_isSome (isSome_node? (built_vault.sound.kind_of_reachable hp))
  have hnodup : ∀ p < 4, (vault.tree.children p).Nodup := by decide
  exact hnodup p hbound

/-! ## A child listed twice -/

/-- Entering is the only way to burgle, and is listed twice. -/
def burglaryTree : Tree :=
  let t := Tree.empty
  let t := t.withNode (.attack ⟨"enter", 1, .one, none, none, []⟩) (t.children_attack_lt _)
  t.withNode (.subgoal (t.subgoalOver "burglary" .or [0, 0] false))
    fun _ h => children_subgoalOver_lt h

theorem built_burglaryTree : burglaryTree.Built := by
  refine Built.empty _
    |>.withAttack (by decide) (by decide) (by decide) ?_
    |>.withSubgoal (by decide) (by decide) (by decide) (by decide) (by decide) ?_
  all_goals simp [find?_withNode, find?_empty, Node.name]

def burglary : Graph where
  tree := { burglaryTree with parents := #[some 1, none] }
  root := 1
  attacks := [0, 0]
  defenses := []
  subgoals := [1]
  ownerTable := .ofList []
  followerTable := .ofList []

theorem index_burglary : index burglary.tree 1 = burglary := by
  have hwalk : burglary.tree.depthFirst 1 = [1, 0, 0] := by decide +kernel
  have hlisted : burglary.tree.depthFirstWithDefenses 1 = [1, 0, 0] := by
    have h0 : burglary.tree.defensesOf 0 = [] := rfl
    have h1 : burglary.tree.defensesOf 1 = [] := rfl
    unfold depthFirstWithDefenses
    simp [hwalk, Listing.addNode, h0, h1]
  unfold index
  rw [hlisted, hwalk]
  rfl

theorem built_burglary : burglary.Built :=
  built_of_index built_burglaryTree rfl rfl rfl (by decide +kernel) rfl index_burglary

def burglaryKeys : List StateKey := [
  ⟨.deciding, [], []⟩, ⟨.deciding, [0], []⟩, ⟨.waiting, [0], []⟩, ⟨.deciding, [], [1]⟩]

theorem mem_burglaryKeys {k : StateKey} (hk : burglary.ReachableKey k) : k ∈ burglaryKeys := by
  have hclosed : ∀ k ∈ burglaryKeys, ∀ e ∈ burglary.moves k.phase k.configuration,
      e.2.all fun t => burglary.keyOf t.1 (burglary.normalize t.2) ∈ burglaryKeys := by
    decide +kernel
  refine hk.mem_of_closed (by decide) fun k hk m phase c hmem => ?_
  simpa using hclosed k hk _ hmem

theorem exists_build_burglary : ∃ a, build burglary 4 = .ok a := by
  have hedges : burglary.edgeCount ≤ maxWord := by
    refine le_trans (edgeCount_le_sum_moveCount built_burglary.sound ?_ fun _ => mem_burglaryKeys) ?_
    · decide
    · decide +kernel
  exact exists_build built_burglary.sound
    (stateCount_le_length built_burglary.sound fun _ => mem_burglaryKeys) hedges

/-- A model that declares the clock of an attack twice. -/
theorem declared_twice :
    burglary.Built ∧ ∃ a, build burglary 4 = .ok a ∧
      ¬ ((ofAutomaton a .standard).declared.map Item.name).Nodup := by
  obtain ⟨a, ha⟩ := exists_build_burglary
  have hgraph : (ofAutomaton a .standard).graph = burglary :=
    (unfolds_of_build built_burglary.sound ha).graph
  refine ⟨built_burglary, a, ha, ?_⟩
  rw [map_name_declared, map_symbol_declared, hgraph]
  decide

end AttackDefense.Automaton
