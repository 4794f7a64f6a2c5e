import CBoundary.Definition
import CBoundary.MacroTable
import Std.Data.ExtTreeMap
import Std.Data.ExtTreeSet

/-!
The symbol table: records, their fields, functions, typedefs and macros by name, and the
names of the private records and functions. Typedefs lead from name to name one hop at a
time; following them ends because no name is followed twice.
-/
namespace CBoundary

/-- Definitions by name. -/
abbrev Definitions := Std.ExtTreeMap String Definition

/-- The symbol table. -/
structure Codebase where
  /-- Records by tag. -/
  types : Definitions
  /-- Names of the private records. -/
  restrictedTypes : Std.ExtTreeSet String
  /-- Fields by name, for each record that has any. -/
  fields : Std.ExtTreeMap String Definitions
  /-- Functions by name. -/
  functions : Definitions
  /-- Names of the private functions. -/
  restrictedFunctions : Std.ExtTreeSet String
  /-- What each typedef name stands for. -/
  typedefs : Std.ExtTreeMap String String
  macros : MacroTable

namespace Codebase

def empty : Codebase := ⟨∅, ∅, ∅, ∅, ∅, ∅, MacroTable.empty⟩

instance : Inhabited Codebase := ⟨empty⟩

/-- Puts a definition in, or folds it into the one of the same name. -/
def upsert (definitions : Definitions) (d : Definition) : Definitions :=
  definitions.insert d.name ((definitions[d.name]?.map fun first => first.merge d).getD d)

/-- What there is to report when a definition is put in. -/
def upsertReports (definitions : Definitions) (d : Definition) : List Report :=
  (definitions[d.name]?.map fun first => first.mergeReports d).getD []

/-- Adds a name to a set of restricted names if its definition is private. -/
def restrict (restricted : Std.ExtTreeSet String) (definitions : Definitions) (name : String) :
    Std.ExtTreeSet String :=
  if definitions[name]?.any Definition.isKnownPrivate then restricted.insert name else restricted

/-- The typedef chain behind a name: what the name stands for, what that stands for, and so
on until a name is no typedef or comes up again. -/
def typedefChain (typedefs : Std.ExtTreeMap String String) (name : String) : List String :=
  match _h : typedefs[name]? with
  | none => []
  | some target => target :: typedefChain (typedefs.erase name) target
termination_by typedefs.size
decreasing_by
  have hmem : name ∈ typedefs := by
    rw [Std.ExtTreeMap.mem_iff_isSome_getElem?, _h]
    rfl
  have hpos : typedefs.size ≠ 0 := fun hzero =>
    Std.ExtTreeMap.ne_empty_of_mem hmem (Std.ExtTreeMap.eq_empty_iff_size_eq_zero.2 hzero)
  rw [Std.ExtTreeMap.size_erase, if_pos (Std.ExtTreeMap.mem_iff_contains.1 hmem)]
  omega

/-- What a type name stands for: the first name on its chain that is a record, else the first
with fields, else the end of the chain. -/
def untypedef (c : Codebase) (name : String) : String :=
  let chain := typedefChain c.typedefs name
  ((chain.find? c.types.contains).or (chain.find? c.fields.contains)).getD
    (chain.getLast?.getD name)

def field? (c : Codebase) (record field : String) : Option Definition :=
  (c.fields[record]?).bind fun fields => fields[field]?

/-- The type of a field, as far as typedefs lead. The record may be named by a typedef. -/
def fieldType? (c : Codebase) (record field : String) : Option String :=
  match (c.field? record field).or (c.field? (c.untypedef record) field) with
  | some { details := .field v, .. } =>
      if v.baseType == "" then none else some (c.untypedef v.baseType)
  | _ => none

/-- Number of fields of all records. -/
def fieldCount (c : Codebase) : Nat :=
  c.fields.toList.foldr (fun entry count => entry.2.size + count) 0

/-- Number of records, functions and fields. -/
def definitionCount (c : Codebase) : Nat := c.types.size + c.functions.size + c.fieldCount

/-- All definitions: records, functions and fields. -/
def definitions (c : Codebase) : List Definition :=
  c.types.toList.map Prod.snd ++ c.functions.toList.map Prod.snd ++
    c.fields.toList.flatMap fun entry => entry.2.toList.map Prod.snd

/-- Do two tables have the same names with agreeing definitions? -/
def definitionsAgree (first second : Definitions) : Bool :=
  first.keys == second.keys &&
    (first.toList.zip second.toList).all fun (d, e) => d.2.agrees e.2

/-- Do two symbol tables agree, tokens being compared by their texts? -/
def agrees (c d : Codebase) : Bool :=
  definitionsAgree c.types d.types && c.restrictedTypes.toList == d.restrictedTypes.toList &&
    c.fields.keys == d.fields.keys &&
    ((c.fields.toList.zip d.fields.toList).all fun (f, g) => definitionsAgree f.2 g.2) &&
    definitionsAgree c.functions d.functions &&
    c.restrictedFunctions.toList == d.restrictedFunctions.toList &&
    c.typedefs.toList == d.typedefs.toList && c.macros.agrees d.macros

end Codebase

end CBoundary
