import CBoundary.Codec
import CBoundary.ScanCache
import CBoundary.SourceScan

/-!
A written form of scans that a cache can keep: the symbol table of a file and the reports that
its scan gave rise to. Every part of a table has a codec, so that reading back gives the very scan
that was written. Scanning works with any form; this is the one the program picks.
-/
namespace CBoundary

/-- Values kept as their codec writes them. Bytes behind a value are ignored. -/
def Codec.storedForm {α : Type} (c : Codec α) : StoredForm α :=
  ⟨fun value => some (c.encode value), fun bytes => (c.decode bytes).map Prod.fst⟩

theorem Codec.isFaithful_storedForm {α : Type} (c : Codec α) : c.storedForm.IsFaithful := by
  intro value bytes hwrite
  obtain rfl : c.encode value = bytes := Option.some.inj hwrite
  have h := c.decode_encode value []
  rw [List.append_nil] at h
  simp [storedForm, h]

open Codec

namespace Span

def codec : Codec Span :=
  (nat.pair nat).assembled (fun s => (s.start, s.stop)) (fun (start, stop) => ⟨start, stop⟩)
    fun _ => rfl

end Span

namespace TokenKind

def all : List TokenKind :=
  [.lineComment, .blockComment, .stringLiteral, .charLiteral, .group .paren, .group .bracket,
   .group .brace, .newline, .blanks, .lineContinuation, .directive, .punctuation, .word, .unknown]

theorem mem_all (kind : TokenKind) : kind ∈ all := by
  cases kind with
  | group delim => cases delim <;> decide
  | _ => decide

def codec : Codec TokenKind := among all mem_all

end TokenKind

namespace Token

def codec : Codec Token :=
  (nat.pair (Span.codec.pair (TokenKind.codec.pair Codec.text))).assembled
    (fun t => (t.index, t.span, t.kind, t.text))
    (fun (index, span, kind, text) => ⟨index, span, kind, text⟩) fun _ => rfl

end Token

namespace Variable

def codec : Codec Variable :=
  (Token.codec.list.pair (Token.codec.pair (Token.codec.option.pair
    (Token.codec.option.pair text)))).assembled
    (fun v => (v.typename, v.name, v.preComment, v.postComment, v.terminator))
    (fun (typename, name, preComment, postComment, terminator) =>
      ⟨typename, name, preComment, postComment, terminator⟩) fun _ => rfl

end Variable

namespace FunctionDecl

def codec : Codec FunctionDecl :=
  (Token.codec.list.pair (Token.codec.pair (Token.codec.pair (Token.codec.option.pair
    (Token.codec.option.pair Token.codec.option))))).assembled
    (fun f => (f.typename, f.name, f.parameters, f.body, f.preComment, f.postComment))
    (fun (typename, name, parameters, body, preComment, postComment) =>
      ⟨typename, name, parameters, body, preComment, postComment⟩) fun _ => rfl

end FunctionDecl

namespace Record

def codec : Codec Record :=
  (Token.codec.pair (Token.codec.option.pair (Token.codec.pair (Variable.codec.list.pair
    (Variable.codec.list.pair (Variable.codec.list.pair (text.option.pair
      (Token.codec.option.pair Token.codec.option)))))))).assembled
    (fun r => (r.kind, r.name, r.body, r.members, r.typedefs, r.declared, r.parent,
      r.preComment, r.postComment))
    (fun (kind, name, body, members, typedefs, declared, parent, preComment, postComment) =>
      ⟨kind, name, body, members, typedefs, declared, parent, preComment, postComment⟩)
    fun _ => rfl

end Record

namespace RecordDecl

def codec : Codec RecordDecl :=
  (Record.codec.pair Record.codec.list).assembled (fun r => (r.toRecord, r.nested))
    (fun (record, nested) => ⟨record, nested⟩) fun _ => rfl

end RecordDecl

namespace Details

def codec : Codec Details :=
  (FunctionDecl.codec.sum (RecordDecl.codec.sum Variable.codec)).assembled
    (fun
      | .function f => .inl f
      | .record r => .inr (.inl r)
      | .field v => .inr (.inr v))
    (fun
      | .inl f => .function f
      | .inr (.inl r) => .record r
      | .inr (.inr v) => .field v)
    fun details => by cases details <;> rfl

end Details

namespace Scope

def codec : Codec Scope :=
  (text.pair (text.pair (nat.pair (nat.pair (nat.list.pair nat.list))))).assembled
    (fun s => (s.file.path, s.file.module, s.file.priority, s.file.length, s.file.lineStarts,
      s.nested))
    (fun (path, module, priority, length, lineStarts, nested) =>
      ⟨⟨path, module, priority, length, lineStarts⟩, nested⟩) fun _ => rfl

end Scope

namespace Definition

def codec : Codec Definition :=
  (text.pair (Scope.codec.pair (nat.pair (text.pair (bool.option.pair (Details.codec.pair
    (Token.codec.list.pair Token.codec.list))))))).assembled
    (fun d => (d.name, d.scope, d.offset, d.module, d.isPrivate, d.details, d.preComments,
      d.postComments))
    (fun (name, scope, offset, module, isPrivate, details, preComments, postComments) =>
      ⟨name, scope, offset, module, isPrivate, details, preComments, postComments⟩) fun _ => rfl

end Definition

namespace MacroDefinition

def codec : Codec MacroDefinition :=
  (Token.codec.pair (Token.codec.list.option.pair (Token.codec.option.pair
    (Token.codec.option.pair bool)))).assembled
    (fun d => (d.name, d.parameters, d.body, d.preComment, d.isVariadic))
    (fun (name, parameters, body, preComment, isVariadic) =>
      ⟨name, parameters, body, preComment, isVariadic⟩) fun _ => rfl

end MacroDefinition

namespace Codebase

def codec : Codec Codebase :=
  (Definition.codec.table.pair (textSet.pair (Definition.codec.table.table.pair
    (Definition.codec.table.pair (textSet.pair (text.table.pair
      MacroDefinition.codec.table)))))).assembled
    (fun c => (c.types, c.restrictedTypes, c.fields, c.functions, c.restrictedFunctions,
      c.typedefs, c.macros.entries))
    (fun (types, restrictedTypes, fields, functions, restrictedFunctions, typedefs, macros) =>
      ⟨types, restrictedTypes, fields, functions, restrictedFunctions, typedefs, ⟨macros⟩⟩)
    fun _ => rfl

end Codebase

namespace Severity

def all : List Severity := [.error, .warning, .note]

theorem mem_all (severity : Severity) : severity ∈ all := by cases severity <;> decide

def codec : Codec Severity := among all mem_all

end Severity

namespace Warning

def codec : Codec Warning :=
  (Severity.codec.pair ((among Category.all Category.mem_all).list.pair
    (text.option.pair text))).assembled
    (fun w => (w.severity, w.categories.members, w.location, w.message))
    (fun (severity, categories, location, message) =>
      ⟨severity, ⟨categories⟩, location, message⟩) fun _ => rfl

end Warning

namespace SourceScan

/-- What a written scan starts with. -/
def mark : Bytes := Bytes.ofText "scan1"

/-- A scan in its written form. -/
def codec : Codec SourceScan :=
  ((Codebase.codec.pair Warning.codec.list.list).assembled (fun s => (s.codebase, s.reports))
    (fun (codebase, reports) => ⟨codebase, reports⟩) fun _ => rfl).marked mark

end SourceScan

end CBoundary
