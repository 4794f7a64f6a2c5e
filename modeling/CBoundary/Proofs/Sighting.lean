import CBoundary.SourceScan

/-!
What a text adds to a symbol table, taken apart from the table. Reading a text only ever adds
sightings to the table, one after the other, and which sightings those are depends on the text
and its context alone. So a fact about tables follows from two: what a text has sightings of,
and what adding one sighting does. Main statements: `readText_codebase`, `definition?_take`
and `merge_codebase`.
-/
namespace CBoundary

/-- Where the symbol table keeps a definition. -/
inductive Place where
  | record (name : String)
  | function (name : String)
  | field (owner name : String)
deriving DecidableEq

/-- The name under which a definition is kept. -/
def Place.name : Place → String
  | .record name => name
  | .function name => name
  | .field _ name => name

def Place.isField : Place → Bool
  | .field _ _ => true
  | _ => false

/-- One thing that a text adds to the symbol table. -/
inductive Sighting where
  | record (d : Definition)
  | function (d : Definition)
  | field (owner : String) (d : Definition)
  | typedef (name target : String)
  | macroDefinition (d : MacroDefinition)
  /-- Nothing is added, but there is something to report. -/
  | remark (reports : List Report)

/-- The definition at a place. -/
def Codebase.definition? (c : Codebase) : Place → Option Definition
  | .record name => c.types[name]?
  | .function name => c.functions[name]?
  | .field owner name => c.field? owner name

namespace Sighting

open SourceScan

/-- The definition that is sighted, and the place it belongs to. -/
def entry? : Sighting → Option (Place × Definition)
  | .record d => some (.record d.name, d)
  | .function d => some (.function d.name, d)
  | .field owner d => some (.field owner d.name, d)
  | _ => none

/-- Adds a sighting to a scan. -/
def addTo (s : SourceScan) : Sighting → SourceScan
  | .record d => s.addTypeDefinition d
  | .function d => s.addFunctionDefinition d
  | .field owner d => s.addFieldDefinition owner d
  | .typedef name target => s.bindTypedef name target
  | .macroDefinition d =>
      { s with codebase := { s.codebase with macros := s.codebase.macros.offer d } }
  | .remark reports => s.report reports

/-- The sightings of a function or a prototype. -/
def ofFunction (c : ScanContext) (f : FunctionDecl) : List Sighting :=
  [.remark (Visibility.reports c f.preComment f.postComment f.name.text f.name.span.start false),
    .function (Definition.ofSighting f.name.text c.scope f.name.span.start
      (Visibility.resolve c f.preComment f.postComment f.name.text false) (.function f))]

/-- The sightings of a member of a record. -/
def ofMember (c : ScanContext) (owner : String) (v : Variable) : List Sighting :=
  [.remark (Visibility.reports c v.preComment v.postComment v.name.text v.name.span.start true),
    .field owner (Definition.ofSighting v.name.text c.scope v.name.span.start
      (Visibility.resolve c v.preComment v.postComment v.name.text true) (.field v))]

/-- The sightings of one record: its members, its typedef names and itself. -/
def ofRecord (c : ScanContext) (r : Record) : List Sighting :=
  match r.name with
  | none => []
  | some name =>
      .remark (Visibility.reports c r.preComment r.postComment name.text name.span.start true) ::
        r.members.flatMap (ofMember c name.text) ++
        (r.typedefs.filter fun v => v.name.text != name.text).map
          (fun v => .typedef v.name.text name.text) ++
        [.record (Definition.ofSighting name.text c.scope name.span.start
          (Visibility.resolve c r.preComment r.postComment name.text true)
          (.record { r with nested := [] }))]

/-- The sightings of a record and of the records defined inside it. -/
def ofRecordDecl (c : ScanContext) (r : RecordDecl) : List Sighting :=
  if r.name.isNone then [] else ofRecord c r.toRecord ++ r.nested.flatMap (ofRecord c)

/-- The sighting of a typedef, unless it names no type, or itself. -/
def ofTypedef (v : Variable) : List Sighting :=
  if v.baseType == "" || v.baseType == v.name.text then [] else [.typedef v.name.text v.baseType]

/-- The sightings of a statement that holds no further statements, and what is carried on. -/
def ofStatement (c : ScanContext) (carry : TypeCarry) (statement : Statement) :
    List Sighting × TypeCarry :=
  let kind := statement.kind
  if kind = .directive then
    ((MacroDefinition.ofStatement? statement).toList.map .macroDefinition, carry)
  else if carry.isCarrying || kind = .typedef then
    match carry.parse statement.tokens with
    | (some v, carry) => (ofTypedef v, carry)
    | (none, _) => ([], TypeCarry.idle)
  else match kind with
    | .function | .prototype =>
        (((FunctionDecl.ofTokens? c.config.annotations statement.tokens).map (ofFunction c)).getD
          [], carry)
    | .record isTypedef _ =>
        match RecordDecl.ofStatement? statement with
        | some r => (ofRecordDecl c r, carryOf statement isTypedef r)
        | none => ([], carry)
    | _ => ([], carry)

/-- The sightings of a list of statements. -/
def ofStatements (c : ScanContext) (carry : TypeCarry) : List Statement → List Sighting
  | [] => []
  | statement :: rest =>
      match _h : linkageBody? carry statement with
      | some body =>
          ofStatements (c.nested body.span.start) TypeCarry.idle (Statement.within body) ++
            ofStatements c carry rest
      | none =>
          (ofStatement c carry statement).1 ++
            ofStatements c (ofStatement c carry statement).2 rest
termination_by statements => (SourceScan.size statements, statements.length)
decreasing_by
  · exact Prod.Lex.left _ _ (size_linkageBody_lt _h rest)
  · rcases Nat.lt_or_eq_of_le (size_tail_le statement rest) with h | h
    · exact Prod.Lex.left _ _ h
    · rw [h]
      exact Prod.Lex.right _ (by simp)
  · rcases Nat.lt_or_eq_of_le (size_tail_le statement rest) with h | h
    · exact Prod.Lex.left _ _ h
    · rw [h]
      exact Prod.Lex.right _ (by simp)

/-- The sightings of source text that starts at byte `base` of its file. -/
def ofText (c : ScanContext) (base : Nat) (text : String) : List Sighting :=
  ofStatements c TypeCarry.idle (Statement.ofSource base text)

end Sighting

namespace SourceScan

open Sighting

/-- Binding the typedef names of a record adds the sightings of those that differ from its own
name. -/
theorem foldl_bindTypedef (s : SourceScan) (name : String) (typedefs : List Variable) :
    typedefs.foldl (fun s v => if v.name.text == name then s else s.bindTypedef v.name.text name)
        s =
      ((typedefs.filter fun v => v.name.text != name).map
        fun v => Sighting.typedef v.name.text name).foldl addTo s := by
  induction typedefs generalizing s with
  | nil => rfl
  | cons v rest ih =>
    rw [List.foldl_cons, ih]
    by_cases h : v.name.text = name
    · simp [h]
    · simp [h, addTo]

theorem addRecord_eq (c : ScanContext) (s : SourceScan) (r : Record) :
    addRecord c s r = (ofRecord c r).foldl addTo s := by
  unfold addRecord ofRecord
  cases r.name with
  | none => rfl
  | some name =>
    simp only [foldl_bindTypedef, List.foldl_append, List.foldl_cons, List.foldl_flatMap]
    rfl

theorem addRecordDecl_eq (c : ScanContext) (s : SourceScan) (r : RecordDecl) :
    addRecordDecl c s r = (ofRecordDecl c r).foldl addTo s := by
  unfold addRecordDecl ofRecordDecl
  split
  · rfl
  · rw [List.foldl_append, ← addRecord_eq, List.foldl_flatMap]
    congr 1
    funext s inner
    exact addRecord_eq c s inner

theorem addTypedef_eq (s : SourceScan) (v : Variable) :
    s.addTypedef v = (ofTypedef v).foldl addTo s := by
  unfold addTypedef ofTypedef
  split <;> rfl

theorem addMacro_eq (s : SourceScan) (statement : Statement) :
    s.addMacro statement =
      ((MacroDefinition.ofStatement? statement).toList.map .macroDefinition).foldl addTo s := by
  unfold addMacro
  cases MacroDefinition.ofStatement? statement <;> rfl

/-- Reading a statement adds its sightings. -/
theorem readStatement_eq (c : ScanContext) (carry : TypeCarry) (s : SourceScan)
    (statement : Statement) :
    readStatement c carry s statement =
      ((ofStatement c carry statement).1.foldl addTo s, (ofStatement c carry statement).2) := by
  unfold readStatement ofStatement
  by_cases hdirective : statement.kind = .directive
  · simp only [if_pos hdirective, addMacro_eq]
  · simp only [if_neg hdirective]
    by_cases hcarry : (carry.isCarrying || statement.kind = .typedef) = true
    · simp only [if_pos hcarry]
      rcases carry.parse statement.tokens with ⟨_ | v, next⟩
      · rfl
      · simp only [addTypedef_eq]
    · simp only [if_neg hcarry]
      cases statement.kind with
      | function =>
        cases FunctionDecl.ofTokens? c.config.annotations statement.tokens <;> rfl
      | prototype =>
        cases FunctionDecl.ofTokens? c.config.annotations statement.tokens <;> rfl
      | record isTypedef declares =>
        cases RecordDecl.ofStatement? statement with
        | none => rfl
        | some r => simp only [addRecordDecl_eq]
      | _ => rfl

/-- Reading statements adds their sightings, in order. -/
theorem readStatements_eq (c : ScanContext) (carry : TypeCarry) (s : SourceScan)
    (statements : List Statement) :
    readStatements c carry s statements =
      (ofStatements c carry statements).foldl addTo s := by
  fun_induction readStatements c carry s statements with
  | case1 => simp [ofStatements]
  | case2 c carry s statement rest body h inner ihinner ih =>
    rw [ofStatements]
    split
    · rename_i body' h'
      obtain rfl := Option.some.inj (h.symm.trans h')
      rw [List.foldl_append, ih, ← ihinner]
    · rename_i h'
      simp [h] at h'
  | case3 c carry s statement rest h read ih =>
    rw [ofStatements]
    split
    · rename_i body h'
      simp [h] at h'
    · rw [ih, List.foldl_append]
      simp only [read, readStatement_eq]

end SourceScan

namespace Codebase

/-- The table with one sighting more. -/
def take (c : Codebase) (x : Sighting) : Codebase :=
  (Sighting.addTo (SourceScan.ofCodebase c) x).codebase

/-- The definition that a sighting leaves where `first` was: itself, or folded into `first`. -/
def folded (first : Option Definition) (d : Definition) : Definition :=
  (first.map fun first => first.merge d).getD d

/-- What a table holds, as sightings: the definitions and typedef names in the order in which
another table takes them over. -/
def contents (c : Codebase) : List Sighting :=
  c.types.toList.map (fun entry => .record entry.2) ++
    c.functions.toList.map (fun entry => .function entry.2) ++
    c.fields.toList.flatMap (fun fields => fields.2.toList.map fun entry =>
      .field fields.1 entry.2) ++
    c.typedefs.toList.map fun entry => .typedef entry.1 entry.2

theorem addTo_codebase (s : SourceScan) (x : Sighting) :
    (Sighting.addTo s x).codebase = s.codebase.take x := by
  cases x <;> rfl

theorem foldl_addTo_codebase (s : SourceScan) (xs : List Sighting) :
    (xs.foldl Sighting.addTo s).codebase = xs.foldl take s.codebase := by
  induction xs generalizing s with
  | nil => rfl
  | cons x xs ih => rw [List.foldl_cons, ih, addTo_codebase, List.foldl_cons]

/-- The table after a text is the table before it with the sightings of the text. -/
theorem readText_codebase (c : ScanContext) (base : Nat) (s : SourceScan) (text : String) :
    (SourceScan.readText c base s text).codebase =
      (Sighting.ofText c base text).foldl take s.codebase := by
  rw [SourceScan.readText, SourceScan.readStatements_eq, foldl_addTo_codebase, Sighting.ofText]

/-- The table after a merge is the table before it with what the other one holds, and with its
restricted names and its macros. -/
theorem merge_codebase (s : SourceScan) (other : Codebase) :
    (s.merge other).codebase =
      { other.contents.foldl take s.codebase with
        restrictedTypes :=
          (other.contents.foldl take s.codebase).restrictedTypes ∪ other.restrictedTypes
        restrictedFunctions :=
          (other.contents.foldl take s.codebase).restrictedFunctions ∪ other.restrictedFunctions
        macros := (other.contents.foldl take s.codebase).macros.merge other.macros } := by
  rw [← foldl_addTo_codebase]
  simp only [contents, List.foldl_append, List.foldl_map, List.foldl_flatMap]
  rfl

theorem getElem?_upsert (definitions : Definitions) (d : Definition) (name : String) :
    (upsert definitions d)[name]? =
      if d.name = name then some (folded definitions[name]? d) else definitions[name]? := by
  simp only [upsert, Std.ExtTreeMap.getElem?_insert, Std.LawfulEqCmp.compare_eq_iff_eq]
  by_cases h : d.name = name
  · rw [if_pos h, if_pos h, h, folded]
  · rw [if_neg h, if_neg h]

theorem field?_insert (c : Codebase) (owner other name : String) (d : Definition) :
    (c.fields.insert owner (upsert ((c.fields[owner]?).getD ∅) d))[other]?.bind (·[name]?) =
      if owner = other ∧ d.name = name then some (folded (c.field? other name) d)
      else c.field? other name := by
  simp only [Std.ExtTreeMap.getElem?_insert, Std.LawfulEqCmp.compare_eq_iff_eq]
  by_cases howner : owner = other
  · subst howner
    have hfield : c.field? owner name = ((c.fields[owner]?).getD ∅)[name]? := by
      unfold field?
      cases c.fields[owner]? <;> simp
    rw [if_pos rfl, Option.bind_some, getElem?_upsert, hfield]
    by_cases hname : d.name = name <;> simp [hname]
  · rw [if_neg howner, if_neg (fun h => howner h.1)]
    rfl

/-- A sighting changes the table at its own place only, where it is folded into what is
there. -/
theorem definition?_take (c : Codebase) (x : Sighting) (p : Place) :
    (c.take x).definition? p =
      match x.entry? with
      | some (q, d) => if q = p then some (folded (c.definition? p) d) else c.definition? p
      | none => c.definition? p := by
  cases x with
  | record d =>
    cases p with
    | record name =>
      simp only [Sighting.entry?, Place.record.injEq]
      exact getElem?_upsert c.types d name
    | _ => simp only [Sighting.entry?, reduceCtorEq, if_false]; rfl
  | function d =>
    cases p with
    | function name =>
      simp only [Sighting.entry?, Place.function.injEq]
      exact getElem?_upsert c.functions d name
    | _ => simp only [Sighting.entry?, reduceCtorEq, if_false]; rfl
  | field owner d =>
    cases p with
    | field other name =>
      simp only [Sighting.entry?, Place.field.injEq]
      exact field?_insert c owner other name d
    | _ => simp only [Sighting.entry?, reduceCtorEq, if_false]; rfl
  | typedef name target => cases p <;> rfl
  | macroDefinition d => cases p <;> rfl
  | remark reports => cases p <;> rfl

theorem definition?_merge (s : SourceScan) (other : Codebase) (p : Place) :
    (s.merge other).codebase.definition? p =
      (other.contents.foldl take s.codebase).definition? p := by
  rw [merge_codebase]
  cases p <;> rfl

end Codebase

end CBoundary
