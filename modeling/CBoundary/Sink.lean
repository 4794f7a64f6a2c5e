import CBoundary.Warning

/-!
The collection of diagnostics of a run. A sink takes in reports: it drops those whose first
record is of a category that is not enabled, counts the records of the others by severity,
and keeps up to a limit of them until they are taken out. Counts go on past the limit and are
never reset.
-/
namespace CBoundary

/-- Which categories are collected, and how many reports are kept; zero keeps all. -/
structure SinkConfig where
  enabled : Categories
  limit : Nat
deriving DecidableEq, Repr, Inhabited

namespace SinkConfig

/-- Everything is collected. -/
def everything : SinkConfig := ⟨Categories.all, 0⟩

/-- Everything but module mismatches, which are common where prototypes live in shared
headers. -/
def checker : SinkConfig := ⟨Categories.allBut .moduleMismatch, 0⟩

/-- Are records of these categories collected? -/
def isEnabled (c : SinkConfig) (categories : Categories) : Bool := c.enabled.meets categories

/-- Is a report collected? Its first record decides; an empty report is not. -/
def accepts (c : SinkConfig) (r : Report) : Bool :=
  r.head?.any fun w => c.isEnabled w.categories

end SinkConfig

/-- The reports kept and the tallies of all records that were accepted. -/
structure Sink where
  config : SinkConfig
  reports : List Report
  errors : Nat
  warnings : Nat
deriving DecidableEq, Repr, Inhabited

namespace Sink

/-- A sink that has taken in nothing. -/
def empty (config : SinkConfig) : Sink := ⟨config, [], 0, 0⟩

/-- Number of records of a severity. -/
def count (severity : Severity) (r : Report) : Nat := r.countP (·.severity == severity)

/-- Is there room for another report? -/
def hasRoom (s : Sink) : Bool := s.config.limit == 0 || s.reports.length < s.config.limit

/-- Takes in a report. -/
def emit (s : Sink) (r : Report) : Sink :=
  if s.config.accepts r then
    { s with
      reports := if s.hasRoom then s.reports ++ [r] else s.reports
      errors := s.errors + count .error r
      warnings := s.warnings + count .warning r }
  else s

/-- Takes in reports one after the other. -/
def emitAll (s : Sink) (reports : List Report) : Sink := reports.foldl emit s

def hasErrors (s : Sink) : Bool := 0 < s.errors

/-- The records kept, in order of arrival. -/
def snapshot (s : Sink) : List Warning := s.reports.flatten

/-- The records kept, in the order of their locations. -/
def sorted (s : Sink) : List Warning := (Report.sort s.reports).flatten

/-- The sink after its reports have been taken out. -/
def drained (s : Sink) : Sink := { s with reports := [] }

theorem config_emit (s : Sink) (r : Report) : (s.emit r).config = s.config := by
  unfold emit
  split <;> rfl

theorem config_emitAll (s : Sink) (reports : List Report) :
    (s.emitAll reports).config = s.config := by
  induction reports generalizing s with
  | nil => rfl
  | cons r reports ih => exact (ih (s.emit r)).trans (config_emit s r)

theorem emitAll_append (s : Sink) (first second : List Report) :
    s.emitAll (first ++ second) = (s.emitAll first).emitAll second :=
  List.foldl_append

end Sink

end CBoundary
