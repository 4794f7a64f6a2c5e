import CBoundary.MacroDefinition
import Std.Data.ExtTreeMap

/-!
Macro definitions by name. A definition is either put in, replacing an earlier one, or
offered, in which case the first one stays and the differences are reported.
-/
namespace CBoundary

/-- Macro definitions, each under its name. -/
structure MacroTable where
  entries : Std.ExtTreeMap String MacroDefinition

namespace MacroTable

def empty : MacroTable := ⟨∅⟩

instance : Inhabited MacroTable := ⟨empty⟩

def size (m : MacroTable) : Nat := m.entries.size

def isEmpty (m : MacroTable) : Bool := m.entries.isEmpty

def get? (m : MacroTable) (name : String) : Option MacroDefinition := m.entries[name]?

def contains (m : MacroTable) (name : String) : Bool := m.entries.contains name

/-- The names with a definition, in order. -/
def names (m : MacroTable) : List String := m.entries.keys

/-- The definitions with their names, in order of the names. -/
def toList (m : MacroTable) : List (String × MacroDefinition) := m.entries.toList

/-- Puts a definition in; it replaces an earlier one of the same name. -/
def insert (m : MacroTable) (d : MacroDefinition) : MacroTable :=
  ⟨m.entries.insert d.name.text d⟩

/-- Puts in the definition of a statement, if it is one. -/
def insertStatement (m : MacroTable) (s : Statement) : MacroTable :=
  ((MacroDefinition.ofStatement? s).map m.insert).getD m

/-- Offers a definition: the first one of a name stays and at most gains a comment. -/
def offer (m : MacroTable) (d : MacroDefinition) : MacroTable :=
  match m.get? d.name.text with
  | some first => ⟨m.entries.insert d.name.text (first.absorb d)⟩
  | none => m.insert d

/-- What an offered definition disagrees about with the one that is there. -/
def offerConflicts (m : MacroTable) (d : MacroDefinition) : List String :=
  ((m.get? d.name.text).map fun first => first.conflicts d).getD []

/-- Offers every definition of another table. -/
def merge (m other : MacroTable) : MacroTable :=
  other.toList.foldl (fun m entry => m.offer entry.2) m

/-- What the definitions of another table disagree about, in order of the names. -/
def mergeConflicts (m other : MacroTable) : List String :=
  (other.toList.foldl (fun (messages, m) entry =>
    (messages ++ m.offerConflicts entry.2, m.offer entry.2)) (([] : List String), m)).1

/-- Do two tables have the same names with agreeing definitions? -/
def agrees (m other : MacroTable) : Bool :=
  m.names == other.names &&
    (m.toList.zip other.toList).all fun (d, e) => d.2.agrees e.2

theorem get?_insert (m : MacroTable) (d : MacroDefinition) (name : String) :
    (m.insert d).get? name = if d.name.text = name then some d else m.get? name := by
  simp [insert, get?, Std.ExtTreeMap.getElem?_insert]

theorem mem_names {m : MacroTable} {name : String} :
    name ∈ m.names ↔ (m.get? name).isSome = true := by
  simp [names, get?, Std.ExtTreeMap.mem_keys]

end MacroTable

end CBoundary
