import CBoundary.Codebase
import CBoundary.MacroExpansion

/-!
Reading source text into a symbol table. Each statement adds what it defines: functions and
prototypes, records with their members and typedef names, typedefs and macros. The inside of
a linkage specification is read in place. Tables of different files are merged name by name,
in the order of the names. Reports are collected along the way and never change what is read.
-/
namespace CBoundary

/-- A symbol table being filled, and what there is to report so far. -/
structure SourceScan where
  codebase : Codebase
  reports : List Report

namespace SourceScan

/-- A scan that has read nothing. -/
def start : SourceScan := ⟨Codebase.empty, []⟩

/-- Goes on with a given table. -/
def ofCodebase (c : Codebase) : SourceScan := ⟨c, []⟩

/-- Adds reports behind those made so far. -/
def report (s : SourceScan) (reports : List Report) : SourceScan :=
  { s with reports := s.reports ++ reports }

/-- Adds a function to the table. -/
def addFunctionDefinition (s : SourceScan) (d : Definition) : SourceScan :=
  let functions := Codebase.upsert s.codebase.functions d
  { codebase := { s.codebase with
      functions
      restrictedFunctions := Codebase.restrict s.codebase.restrictedFunctions functions d.name }
    reports := s.reports ++ Codebase.upsertReports s.codebase.functions d }

/-- Adds a record to the table. -/
def addTypeDefinition (s : SourceScan) (d : Definition) : SourceScan :=
  let types := Codebase.upsert s.codebase.types d
  { codebase := { s.codebase with
      types
      restrictedTypes := Codebase.restrict s.codebase.restrictedTypes types d.name }
    reports := s.reports ++ Codebase.upsertReports s.codebase.types d }

/-- Adds a field of a record to the table. -/
def addFieldDefinition (record : String) (s : SourceScan) (d : Definition) : SourceScan :=
  let fields := (s.codebase.fields[record]?).getD ∅
  { codebase := { s.codebase with
      fields := s.codebase.fields.insert record (Codebase.upsert fields d) }
    reports := s.reports ++ Codebase.upsertReports fields d }

/-- Binds a typedef name unless it is bound already. -/
def bindTypedef (s : SourceScan) (name target : String) : SourceScan :=
  { s with codebase := { s.codebase with
      typedefs := s.codebase.typedefs.insertIfNew name target } }

/-- Adds the macro that a statement defines, if it defines one. -/
def addMacro (s : SourceScan) (statement : Statement) : SourceScan :=
  match MacroDefinition.ofStatement? statement with
  | some definition =>
      { s with codebase := { s.codebase with macros := s.codebase.macros.offer definition } }
  | none => s

/-- Adds a typedef. One that names no type, or itself, is left out. -/
def addTypedef (s : SourceScan) (v : Variable) : SourceScan :=
  if v.baseType == "" || v.baseType == v.name.text then s
  else s.bindTypedef v.name.text v.baseType

/-- Adds a function or a prototype. -/
def addFunction (c : ScanContext) (s : SourceScan) (f : FunctionDecl) : SourceScan :=
  let visibility := Visibility.resolve c f.preComment f.postComment f.name.text false
  (s.report (Visibility.reports c f.preComment f.postComment f.name.text f.name.span.start
    false)).addFunctionDefinition
      (Definition.ofSighting f.name.text c.scope f.name.span.start visibility (.function f))

/-- Adds a member of a record. -/
def addMember (c : ScanContext) (record : String) (s : SourceScan) (v : Variable) : SourceScan :=
  let visibility := Visibility.resolve c v.preComment v.postComment v.name.text true
  (s.report (Visibility.reports c v.preComment v.postComment v.name.text v.name.span.start
    true)).addFieldDefinition record
      (Definition.ofSighting v.name.text c.scope v.name.span.start visibility (.field v))

/-- Adds one record with its members and typedef names. A record without a name is left
out. -/
def addRecord (c : ScanContext) (s : SourceScan) (r : Record) : SourceScan :=
  match r.name with
  | none => s
  | some name =>
      let visibility := Visibility.resolve c r.preComment r.postComment name.text true
      let s := s.report
        (Visibility.reports c r.preComment r.postComment name.text name.span.start true)
      let s := r.members.foldl (addMember c name.text) s
      let s := r.typedefs.foldl (fun s v =>
        if v.name.text == name.text then s else s.bindTypedef v.name.text name.text) s
      s.addTypeDefinition (Definition.ofSighting name.text c.scope name.span.start visibility
        (.record { r with nested := [] }))

/-- Adds a record and the records defined inside it. A record without a name takes those
inside it along. -/
def addRecordDecl (c : ScanContext) (s : SourceScan) (r : RecordDecl) : SourceScan :=
  if r.name.isNone then s
  else r.nested.foldl (addRecord c) (addRecord c s r.toRecord)

/-- The type that a typedef of a record carries on to the declarators behind its first
comma. -/
def carryOf (statement : Statement) (isTypedef : Bool) (r : RecordDecl) : TypeCarry :=
  match r.name with
  | some name =>
      if isTypedef && statement.terminator? == some "," then TypeCarry.of [r.kind, name]
      else TypeCarry.idle
  | none => TypeCarry.idle

/-- Reads one statement that holds no further statements. While a list of typedef names is
being read, each statement but a directive is taken as the next of them. -/
def readStatement (c : ScanContext) (carry : TypeCarry) (s : SourceScan) (statement : Statement) :
    SourceScan × TypeCarry :=
  let kind := statement.kind
  if kind = .directive then (s.addMacro statement, carry)
  else if carry.isCarrying || kind = .typedef then
    match carry.parse statement.tokens with
    | (some v, carry) => (s.addTypedef v, carry)
    | (none, _) => (s, TypeCarry.idle)
  else match kind with
    | .function | .prototype =>
        match FunctionDecl.ofTokens? c.config.annotations statement.tokens with
        | some f => (s.addFunction c f, carry)
        | none => (s, carry)
    | .record isTypedef _ =>
        match RecordDecl.ofStatement? statement with
        | some r => (s.addRecordDecl c r, carryOf statement isTypedef r)
        | none => (s, carry)
    | _ => (s, carry)

/-- The inside of a linkage specification. -/
def linkageBody? (carry : TypeCarry) (statement : Statement) : Option Token :=
  if statement.kind = .linkage && !carry.isCarrying then
    (statement.tokens.find? (·.isGroup .brace)).bind Token.interior?
  else none

/-- Number of characters in a list of statements. -/
def size (statements : List Statement) : Nat := Record.size (statements.flatMap Statement.tokens)

theorem size_linkageBody_lt {carry : TypeCarry} {statement : Statement} {body : Token}
    (h : linkageBody? carry statement = some body) (rest : List Statement) :
    size (Statement.within body) < size (statement :: rest) := by
  unfold linkageBody? at h
  split at h
  · simp only [Option.bind_eq_some_iff] at h
    obtain ⟨group, hgroup, hbody⟩ := h
    have hmem := Record.size_mem (List.mem_of_find?_eq_some hgroup)
    have hlt := Record.size_interior hbody
    have hinner : size (Statement.within body) = body.chars.length := by
      simp only [size, Record.size, Statement.within, Statement.flatMap_tokens_ofTokens]
      exact congrArg List.length (TokenStream.flatMap_chars_ofChars _ _ _ _)
    have houter : Record.size statement.tokens ≤ size (statement :: rest) := by
      simp [size, Record.size]
    omega
  · simp at h

theorem size_tail_le (statement : Statement) (rest : List Statement) :
    size rest ≤ size (statement :: rest) := by
  simp [size, Record.size]

/-- Reads statements one after the other. -/
def readStatements (c : ScanContext) (carry : TypeCarry) (s : SourceScan) :
    List Statement → SourceScan
  | [] => s
  | statement :: rest =>
      match _h : linkageBody? carry statement with
      | some body =>
          let inner := readStatements (c.nested body.span.start) TypeCarry.idle s
            (Statement.within body)
          readStatements c carry inner rest
      | none =>
          let read := readStatement c carry s statement
          readStatements c read.2 read.1 rest
termination_by statements => (size statements, statements.length)
decreasing_by
  · exact Prod.Lex.left _ _ (size_linkageBody_lt _h rest)
  · rcases Nat.lt_or_eq_of_le (size_tail_le statement rest) with h | h
    · exact Prod.Lex.left _ _ h
    · rw [h]
      exact Prod.Lex.right _ (by simp)
  · rcases Nat.lt_or_eq_of_le (size_tail_le statement rest) with h | h
    · exact Prod.Lex.left _ _ h
    · rw [h]
      exact Prod.Lex.right _ (by simp)

/-- Reads source text that starts at byte `base` of the file. -/
def readText (c : ScanContext) (base : Nat) (s : SourceScan) (text : String) : SourceScan :=
  readStatements c TypeCarry.idle s (Statement.ofSource base text)

/-- Folds in the table of later files. -/
def merge (s : SourceScan) (other : Codebase) : SourceScan :=
  let s := other.types.toList.foldl (fun s entry => s.addTypeDefinition entry.2) s
  let s := other.functions.toList.foldl (fun s entry => s.addFunctionDefinition entry.2) s
  let s := other.fields.toList.foldl (fun s record =>
    record.2.toList.foldl (fun s entry => s.addFieldDefinition record.1 entry.2) s) s
  let s := other.typedefs.toList.foldl (fun s entry => s.bindTypedef entry.1 entry.2) s
  { s with codebase := { s.codebase with
      restrictedTypes := s.codebase.restrictedTypes ∪ other.restrictedTypes
      restrictedFunctions := s.codebase.restrictedFunctions ∪ other.restrictedFunctions
      macros := s.codebase.macros.merge other.macros } }

end SourceScan

namespace Codebase

/-- Expands the macros in a text that stands at a byte offset of a file, and reports the calls
that could not be expanded. -/
def expandMacros (codebase : Codebase) (c : ScanContext) (offset : Nat) (text : String) :
    String × List Report :=
  let expansion := codebase.macros.expand text
  (String.ofList expansion.text, expansion.errors.map fun e =>
    Report.error (Categories.only .macroExpansion) (some (c.location offset)) e.message)

end Codebase

end CBoundary
