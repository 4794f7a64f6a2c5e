import CBoundary.DecimalNumeral

/-!
Diagnostic records. Records that belong together form a report, and a report is kept,
dropped and sorted as a whole, by its first record. Locations are texts of the form
`path:line:column`, perhaps with more behind them; sorting reads the numbers back, so that
line 9 comes before line 10.
-/
namespace CBoundary

inductive Severity where
  | error
  | warning
  | note
deriving DecidableEq, Repr, Inhabited

def Severity.label : Severity → String
  | .error => "error"
  | .warning => "warning"
  | .note => "note"

/-- What a diagnostic is about. -/
inductive Category where
  /-- Sightings of a name disagree on what it names. -/
  | kindMismatch
  /-- Sightings of a name belong to different modules. -/
  | moduleMismatch
  /-- Sightings of a name disagree on signature, members or body. -/
  | detailsMismatch
  /-- An annotation and a naming prefix name different modules. -/
  | ambiguousVisibility
  /-- A macro invocation could not be expanded. -/
  | macroExpansion
  /-- A file could not be read. -/
  | io
  /-- A private symbol is used outside its module. -/
  | access
deriving DecidableEq, Repr, Inhabited

namespace Category

def all : List Category :=
  [.kindMismatch, .moduleMismatch, .detailsMismatch, .ambiguousVisibility, .macroExpansion, .io,
   .access]

def label : Category → String
  | .kindMismatch => "kind-mismatch"
  | .moduleMismatch => "module-mismatch"
  | .detailsMismatch => "details-mismatch"
  | .ambiguousVisibility => "ambiguous-visibility"
  | .macroExpansion => "macro-expansion"
  | .io => "io"
  | .access => "access"

/-- The category with the given label. -/
def ofLabel? (label : String) : Option Category := all.find? fun c => c.label == label

theorem mem_all (c : Category) : c ∈ all := by
  cases c <;> decide

end Category

/-- A set of categories, listed in the order of their declaration and without repetition. -/
structure Categories where
  members : List Category
deriving DecidableEq, Repr, Inhabited

namespace Categories

/-- The categories that satisfy a test. -/
def ofTest (p : Category → Bool) : Categories := ⟨Category.all.filter p⟩

/-- The categories in a list. -/
def ofList (categories : List Category) : Categories := ofTest categories.contains

def all : Categories := ofTest fun _ => true

def only (c : Category) : Categories := ofTest (· == c)

/-- All categories but one. -/
def allBut (c : Category) : Categories := ofTest (· != c)

def contains (s : Categories) (c : Category) : Bool := s.members.contains c

/-- Do two sets share a category? -/
def meets (s t : Categories) : Bool := s.members.any t.contains

/-- The label of the only category, if there is just one. -/
def label (s : Categories) : String :=
  match s.members with
  | [c] => c.label
  | _ => "mixed"

end Categories

/-- One diagnostic record. Follow-up records of a report have no location. -/
structure Warning where
  severity : Severity
  categories : Categories
  location : Option String
  message : String
deriving DecidableEq, Repr, Inhabited

namespace Warning

def isError (w : Warning) : Bool := w.severity == .error

/-- The record as it is printed. -/
def render (w : Warning) : String :=
  match w.location with
  | some location => s!"{location} {w.severity.label}: {w.message}"
  | none => s!"{w.severity.label}: {w.message}"

end Warning

/-- Records that belong together. -/
abbrev Report := List Warning

namespace Report

/-- A report of one warning. -/
def warning (categories : Categories) (location : Option String) (message : String) : Report :=
  [⟨.warning, categories, location, message⟩]

/-- A report of one error. -/
def error (categories : Categories) (location : Option String) (message : String) : Report :=
  [⟨.error, categories, location, message⟩]

/-- A conflict between two sightings: a record for each side, and one for each message. -/
def conflict (categories : Categories) (here what there : String) (messages : List String) :
    Report :=
  ⟨.warning, categories, some here, s!"conflicting update for {what}:"⟩ ::
    ⟨.warning, categories, some there, "conflict here:"⟩ ::
    messages.map fun message => ⟨.warning, categories, none, message⟩

/-- What reports are sorted by: path, line and column. -/
structure SortKey where
  path : String
  line : Nat
  column : Nat
deriving DecidableEq, Repr, Inhabited

namespace SortKey

/-- The text in front of the last colon and the text behind it. -/
def splitLast? (text : List Char) : Option (List Char × List Char) :=
  match text.reverse.dropWhile (· != ':') with
  | [] => none
  | _ :: before => some (before.reverse, (text.reverse.takeWhile (· != ':')).reverse)

/-- Line and column numbers are below this bound. -/
def bound : Nat := 4294967296

/-- Reads a location. One that does not end in a line and a column that fit in 32 bits is a
path, and comes before its first line. -/
def ofLocation (location : String) : SortKey :=
  let read : Option SortKey := do
    let (front, column) ← splitLast? location.toList
    let (path, line) ← splitLast? front
    return ⟨String.ofList path, ← DecimalNumeral.read? bound line,
      ← DecimalNumeral.read? bound column⟩
  read.getD ⟨location, 0, 0⟩

protected def compare (a b : SortKey) : Ordering :=
  (compare a.path b.path).then ((compare a.line b.line).then (compare a.column b.column))

end SortKey

/-- The key of a report, from the location of its first record. -/
def sortKey? (r : Report) : Option SortKey :=
  (r.head?.bind Warning.location).map SortKey.ofLocation

/-- Does the first report come before the second, or neither before the other? Reports without
a location come first. -/
def sortsBefore (r s : Report) : Bool :=
  match r.sortKey?, s.sortKey? with
  | none, _ => true
  | some _, none => false
  | some a, some b => (a.compare b).isLE

/-- Reports in the order of their locations; reports at one place keep their order. -/
def sort (reports : List Report) : List Report := reports.mergeSort sortsBefore

end Report

end CBoundary
