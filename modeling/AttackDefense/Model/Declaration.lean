import AttackDefense.Decimal.Layout
import AttackDefense.Model.Basic
import AttackDefense.Model.Symbol

/-!
# Declarations of a model

A declaration is a list of sections, each a list of lines; a line declares items of one type. A line
without items is not written. The sections stand apart by an empty line.
-/

namespace AttackDefense.Model

open Decimal

/-- A declared clock, or a constant with its value. -/
inductive Item where
  | clock (c : Clock)
  | constant (c : Constant) (value : String)
deriving DecidableEq, Repr

/-- The identifier that an item declares. -/
def Item.name : Item → String
  | .clock c => c.text
  | .constant c _ => c.text

def Item.text : Item → String
  | .clock c => c.text
  | .constant c value => c.text ++ " = " ++ value

/-- Items of one type. -/
structure Line where
  type : String
  items : List Item
deriving DecidableEq, Repr

def clocks (cs : List Clock) : Line := ⟨"hybrid clock", cs.map .clock⟩

def wholes (cs : List (Constant × Nat)) : Line :=
  ⟨"const int", cs.map fun (c, n) => .constant c (toString n)⟩

/-- Probabilities have five places. -/
def reals (cs : List (Constant × Binary64)) : Line :=
  ⟨"const double", cs.map fun (c, x) => .constant c (x.fixed 5)⟩

abbrev Section := List Line

/-- The counts and the clocks that every model has. -/
def commonSections (attacks defenses : Nat) : List Section :=
  [[wholes [(.attackCount, attacks)], wholes [(.defenseCount, defenses)], clocks [.time],
    clocks [.cost]],
   [clocks [.payment]]]

/-- The clock and the constants of each attack. -/
def attackSection (attacks : List Attack) : Section :=
  [clocks (attacks.map fun a => .of a.name),
   wholes (attacks.map fun a => (.duration a.name, a.completionTime.toNat)),
   reals (attacks.map fun a => (.probability a.name, a.successProbability)),
   wholes (attacks.filterMap fun a =>
     a.activationCost.map fun c => (.activationCost a.name, c.toNat)),
   wholes (attacks.filterMap fun a =>
     a.proportionalCost.map fun c => (.proportionalCost a.name, c.toNat))]

/-- The clock and the constants of each defense, given with its period. -/
def defenseSection (defenses : List (Defense × UInt32)) : Section :=
  [clocks (defenses.map fun (d, _) => .of d.name),
   wholes (defenses.map fun (d, period) => (.duration d.name, period.toNat)),
   reals (defenses.map fun (d, _) => (.probability d.name, d.successProbability))]

/-- The sections of a model. -/
def sections (m : Model) : List Section :=
  let attacks := m.graph.attacks.filterMap m.graph.tree.attack?
  let defenses := m.graph.defenses.filterMap fun d =>
    (m.graph.tree.defense? d).map fun defense => (defense, m.period d)
  commonSections attacks.length defenses.length ++
    (if attacks.isEmpty then [] else [attackSection attacks]) ++
    (if defenses.isEmpty then [] else [defenseSection defenses])

/-- Every item that a model declares, in order. -/
def declared (m : Model) : List Item := m.sections.flatten.flatMap Line.items

def Line.text (l : Line) : String :=
  if l.items.isEmpty then ""
  else l.type ++ " " ++ ", ".intercalate (l.items.map Item.text) ++ ";\n"

/-- The text of the declaration. -/
def declaration (m : Model) : String :=
  "\n".intercalate (m.sections.map fun s => String.join (s.map Line.text))

end AttackDefense.Model
