import AttackDefense.Model.Declaration
import AttackDefense.Proofs.Graph.Sound
import AttackDefense.Proofs.Text.Identifiers

/-!
# Symbols and their declarations

A symbol is a clock or a constant.  Its text can be read back, whatever the names of the nodes are,
so different symbols have different texts:

    Symbol.read s.text.toList = some s                                      (Symbol.read_text)

The symbols that a model declares are listed by `map_symbol_declared`.  Each stands in a line of its
type, and the line stands in the text of the declaration (`Declares.exists_line`).
-/

namespace AttackDefense.Model

open AttackDefense.Graph

variable {m : Model}

/-! ## Symbols -/

inductive Symbol where
  | clock (c : Clock)
  | constant (c : Constant)
deriving DecidableEq, Repr

namespace Symbol

def text : Symbol → String
  | .clock c => c.text
  | .constant c => c.text

/-- The type that a symbol is declared with. -/
def type : Symbol → String
  | .clock _ => "hybrid clock"
  | .constant (.probability _) => "const double"
  | .constant _ => "const int"

/-- The symbol of a text. -/
def read : List Char → Option Symbol
  | ['t', 'i', 'm', 'e'] => some (.clock .time)
  | ['c', 'o', 's', 't'] => some (.clock .cost)
  | ['x', 'c', 'o', 's', 't'] => some (.clock .payment)
  | ['n', '_', 'a'] => some (.constant .attackCount)
  | ['n', '_', 'd'] => some (.constant .defenseCount)
  | 'x' :: '_' :: name => some (.clock (.of (String.ofList name)))
  | 't' :: '_' :: name => some (.constant (.duration (String.ofList name)))
  | 'p' :: '_' :: name => some (.constant (.probability (String.ofList name)))
  | 'c' :: '_' :: name => some (.constant (.activationCost (String.ofList name)))
  | 'c' :: 'p' :: '_' :: name => some (.constant (.proportionalCost (String.ofList name)))
  | _ => none

theorem read_text (s : Symbol) : read s.text.toList = some s := by
  cases s with
  | clock c => cases c <;> simp [text, Clock.text, read]
  | constant c => cases c <;> simp [text, Constant.text, read]

/-- Different symbols have different texts. -/
theorem text_inj {s u : Symbol} : s.text = u.text ↔ s = u := by
  constructor
  · intro h
    have hread := read_text s
    rw [h, read_text] at hread
    exact (Option.some.inj hread).symm
  · exact congrArg text

end Symbol

/-! ## Declared symbols -/

def Item.symbol : Item → Symbol
  | .clock c => .clock c
  | .constant c _ => .constant c

theorem Item.text_symbol (item : Item) : item.symbol.text = item.name := by
  cases item <;> rfl

/-- The symbols that every model has. -/
def commonSymbols : List Symbol :=
  [.constant .attackCount, .constant .defenseCount, .clock .time, .clock .cost, .clock .payment]

/-- The symbols of attacks: of each a clock, a duration and a probability, and the costs it has. -/
def attackSymbols (attacks : List Attack) : List Symbol :=
  attacks.map (fun a => .clock (.of a.name)) ++
  attacks.map (fun a => .constant (.duration a.name)) ++
  attacks.map (fun a => .constant (.probability a.name)) ++
  attacks.filterMap (fun a => a.activationCost.map fun _ => .constant (.activationCost a.name)) ++
  attacks.filterMap fun a => a.proportionalCost.map fun _ => .constant (.proportionalCost a.name)

/-- The symbols of defenses. -/
def defenseSymbols (defenses : List Defense) : List Symbol :=
  defenses.map (fun d => .clock (.of d.name)) ++
  defenses.map (fun d => .constant (.duration d.name)) ++
  defenses.map fun d => .constant (.probability d.name)

/-- The symbols of one attack. -/
def symbolsOfAttack (a : Attack) : List Symbol :=
  [.clock (.of a.name), .constant (.duration a.name), .constant (.probability a.name)] ++
  (a.activationCost.map fun _ => .constant (.activationCost a.name)).toList ++
  (a.proportionalCost.map fun _ => .constant (.proportionalCost a.name)).toList

/-- The symbols of one defense. -/
def symbolsOfDefense (d : Defense) : List Symbol :=
  [.clock (.of d.name), .constant (.duration d.name), .constant (.probability d.name)]

theorem mem_symbolsOfAttack {a : Attack} {s : Symbol} : s ∈ symbolsOfAttack a ↔
    s = .clock (.of a.name) ∨ s = .constant (.duration a.name) ∨
      s = .constant (.probability a.name) ∨
      (a.activationCost.isSome ∧ s = .constant (.activationCost a.name)) ∨
      (a.proportionalCost.isSome ∧ s = .constant (.proportionalCost a.name)) := by
  unfold symbolsOfAttack
  cases a.activationCost <;> cases a.proportionalCost <;> simp

theorem mem_attackSymbols {attacks : List Attack} {s : Symbol} :
    s ∈ attackSymbols attacks ↔ ∃ a ∈ attacks, s ∈ symbolsOfAttack a := by
  simp only [attackSymbols, symbolsOfAttack, List.mem_append, List.mem_map, List.mem_filterMap,
    List.mem_cons, List.not_mem_nil, or_false, Option.mem_toList, and_or_left, exists_or, or_assoc,
    eq_comm (b := s)]

theorem mem_defenseSymbols {defenses : List Defense} {s : Symbol} :
    s ∈ defenseSymbols defenses ↔ ∃ d ∈ defenses, s ∈ symbolsOfDefense d := by
  simp only [defenseSymbols, symbolsOfDefense, List.mem_append, List.mem_map, List.mem_cons,
    List.not_mem_nil, or_false, and_or_left, exists_or, or_assoc, eq_comm (b := s)]

/-- The attacks of a graph, and its defenses. -/
def attacksOf (g : Graph) : List Attack := g.attacks.filterMap g.tree.attack?

def defensesOf (g : Graph) : List Defense := g.defenses.filterMap g.tree.defense?

theorem name_of_attack? {g : Graph} {id : NodeId} {a : Attack}
    (h : g.tree.attack? id = some a) : g.name id = a.name := by
  simp [Graph.name, Tree.name, Tree.attack?_eq_some.1 h, Node.name]

theorem name_of_defense? {g : Graph} {id : NodeId} {d : Defense}
    (h : g.tree.defense? id = some d) : g.name id = d.name := by
  simp [Graph.name, Tree.name, Tree.defense?_eq_some.1 h, Node.name]

/-- The symbols that are declared in lines. -/
def symbolsOf (lines : List Line) : List Symbol := (lines.flatMap Line.items).map Item.symbol

theorem symbolsOf_append (lines more : List Line) :
    symbolsOf (lines ++ more) = symbolsOf lines ++ symbolsOf more := by
  simp [symbolsOf]

theorem symbolsOf_attackSection (attacks : List Attack) :
    symbolsOf (attackSection attacks) = attackSymbols attacks := by
  simp [symbolsOf, attackSection, attackSymbols, clocks, wholes, reals, Item.symbol,
    List.map_filterMap, Function.comp_def]

theorem symbolsOf_defenseSection (defenses : List (Defense × UInt32)) :
    symbolsOf (defenseSection defenses) = defenseSymbols (defenses.map Prod.fst) := by
  simp [symbolsOf, defenseSection, defenseSymbols, clocks, wholes, reals, Item.symbol,
    Function.comp_def]

/-- **Declared symbols.**  They are the common ones, those of the attacks and those of the
defenses. -/
theorem map_symbol_declared (m : Model) : m.declared.map Item.symbol =
    commonSymbols ++ attackSymbols (attacksOf m.graph) ++ defenseSymbols (defensesOf m.graph) := by
  -- a section without lines would declare the same
  have hattacks : ∀ attacks : List Attack, symbolsOf
      (if attacks.isEmpty then [] else [attackSection attacks]).flatten = attackSymbols attacks := by
    intro attacks
    cases attacks with
    | nil => rfl
    | cons a attacks =>
      rw [← symbolsOf_attackSection]
      exact congrArg symbolsOf List.flatten_singleton
  have hdefenses : ∀ defenses : List (Defense × UInt32), symbolsOf
      (if defenses.isEmpty then [] else [defenseSection defenses]).flatten =
        defenseSymbols (defenses.map Prod.fst) := by
    intro defenses
    cases defenses with
    | nil => rfl
    | cons d defenses =>
      rw [← symbolsOf_defenseSection]
      exact congrArg symbolsOf List.flatten_singleton
  have hperiods : (m.graph.defenses.filterMap fun d =>
      (m.graph.tree.defense? d).map fun defense => (defense, m.period d)).map Prod.fst =
      defensesOf m.graph := by
    simp [defensesOf, List.map_filterMap, Function.comp_def]
  show symbolsOf m.sections.flatten = _
  unfold sections
  dsimp only
  rw [List.flatten_append, List.flatten_append, symbolsOf_append, symbolsOf_append, hattacks,
    hdefenses, hperiods]
  rfl

/-! ## Lines of the declaration -/

/-- The symbol is declared. -/
def Declares (m : Model) (s : Symbol) : Prop := ∃ item ∈ m.declared, item.symbol = s

theorem declares_iff {s : Symbol} : m.Declares s ↔ s ∈ commonSymbols ∨
    (∃ a ∈ attacksOf m.graph, s ∈ symbolsOfAttack a) ∨
      ∃ d ∈ defensesOf m.graph, s ∈ symbolsOfDefense d := by
  have hmem : m.Declares s ↔ s ∈ m.declared.map Item.symbol := List.mem_map.symm
  rw [hmem, map_symbol_declared, List.mem_append, List.mem_append, mem_attackSymbols,
    mem_defenseSymbols, or_assoc]

/-- All items of the line have its type. -/
def Line.Typed (l : Line) : Prop := ∀ item ∈ l.items, item.symbol.type = l.type

theorem typed_clocks (cs : List Clock) : (clocks cs).Typed := by
  intro item h
  obtain ⟨c, _, rfl⟩ := List.mem_map.1 h
  rfl

theorem typed_wholes {cs : List (Constant × Nat)}
    (h : ∀ c ∈ cs, (Symbol.constant c.1).type = "const int") : (wholes cs).Typed := by
  intro item hitem
  obtain ⟨c, hc, rfl⟩ := List.mem_map.1 hitem
  exact h c hc

theorem typed_costs (attacks : List Attack) (cost : Attack → Option UInt32) {c : Attack → Constant}
    (h : ∀ a, (Symbol.constant (c a)).type = "const int") :
    (wholes (attacks.filterMap fun a => (cost a).map fun x => (c a, x.toNat))).Typed := by
  apply typed_wholes
  intro e he
  obtain ⟨a, _, hcost⟩ := List.mem_filterMap.1 he
  obtain ⟨x, _, rfl⟩ := Option.map_eq_some_iff.1 hcost
  exact h a

theorem typed_reals {α : Type} (l : List α) (name : α → String) (p : α → Decimal.Binary64) :
    (reals (l.map fun a => (.probability (name a), p a))).Typed := by
  intro item hitem
  obtain ⟨c, hc, rfl⟩ := List.mem_map.1 hitem
  obtain ⟨a, _, rfl⟩ := List.mem_map.1 hc
  rfl

theorem typed_commonSections (attacks defenses : Nat) :
    ∀ lines ∈ commonSections attacks defenses, ∀ l ∈ lines, l.Typed := by
  simp only [commonSections, List.forall_mem_cons]
  exact ⟨⟨typed_wholes (by simp [Symbol.type]), typed_wholes (by simp [Symbol.type]),
    typed_clocks _, typed_clocks _, by simp⟩, ⟨typed_clocks _, by simp⟩, by simp⟩

theorem typed_attackSection (attacks : List Attack) : ∀ l ∈ attackSection attacks, l.Typed := by
  simp only [attackSection, List.forall_mem_cons]
  exact ⟨typed_clocks _, typed_wholes (List.forall_mem_map.2 fun _ _ => rfl), typed_reals _ _ _,
    typed_costs _ Attack.activationCost fun _ => rfl,
    typed_costs _ Attack.proportionalCost fun _ => rfl, by simp⟩

theorem typed_defenseSection (defenses : List (Defense × UInt32)) :
    ∀ l ∈ defenseSection defenses, l.Typed := by
  simp only [defenseSection, List.forall_mem_cons]
  exact ⟨typed_clocks _, typed_wholes (List.forall_mem_map.2 fun _ _ => rfl), typed_reals _ _ _,
    by simp⟩

theorem typed_of_mem_sections {lines : Section} (h : lines ∈ m.sections) : ∀ l ∈ lines, l.Typed := by
  unfold sections at h
  simp only [List.mem_append] at h
  rcases h with (h | h) | h
  · exact typed_commonSections _ _ lines h
  · split at h
    · cases h
    · obtain rfl := List.mem_singleton.1 h
      exact typed_attackSection _
  · split at h
    · cases h
    · obtain rfl := List.mem_singleton.1 h
      exact typed_defenseSection _

theorem infix_join {t : String} {l : List String} (h : t ∈ l) :
    t.toList <:+: (String.join l).toList := by
  obtain ⟨before, later, rfl⟩ := List.append_of_mem h
  rw [String.join_append, String.join_cons, String.toList_append, String.toList_append,
    ← List.append_assoc]
  exact List.infix_append _ _ _

theorem infix_intercalate {t sep : String} {l : List String} (h : t ∈ l) :
    t.toList <:+: (sep.intercalate l).toList := by
  induction l with
  | nil => cases h
  | cons s l ih =>
    by_cases hl : l = []
    · subst hl
      obtain rfl := List.mem_singleton.1 h
      exact String.intercalate_singleton (s := sep) ▸ List.infix_rfl
    · rw [String.intercalate_cons_of_ne_nil hl, String.toList_append, String.toList_append]
      rcases List.mem_cons.1 h with rfl | h
      · rw [List.append_assoc]
        exact (List.prefix_append _ _).isInfix
      · exact (ih h).trans (List.suffix_append _ _).isInfix

theorem infix_declaration {lines : Section} (h : lines ∈ m.sections) {l : Line} (hl : l ∈ lines) :
    l.text.toList <:+: m.declaration.toList :=
  (infix_join (List.mem_map_of_mem hl)).trans
    (infix_intercalate (List.mem_map.2 ⟨lines, h, rfl⟩))

theorem Declares.exists_line {s : Symbol} (h : m.Declares s) : ∃ line ∈ m.sections.flatten,
    line.type = s.type ∧ (∃ item ∈ line.items, item.name = s.text) ∧
    line.text.toList <:+: m.declaration.toList := by
  obtain ⟨item, hitem, rfl⟩ := h
  obtain ⟨line, hline, hmem⟩ := List.mem_flatMap.1 hitem
  obtain ⟨lines, hlines, hl⟩ := List.mem_flatten.1 hline
  refine ⟨line, hline, ?_, ⟨item, hmem, item.text_symbol.symm⟩, infix_declaration hlines hl⟩
  exact (typed_of_mem_sections hlines line hl item hmem).symm

end AttackDefense.Model
