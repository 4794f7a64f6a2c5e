import CBoundary.CheckOptions
import CBoundary.ProjectScan

/-!
A check of a project: its sources are scanned, and what the scan found is reported. The report
lists the diagnostics in the order of their locations and sums up what was found. Problems with
single files are part of the report; a check as a whole fails only if the source directory
cannot be searched or the cache cannot be cleared.
-/
namespace CBoundary

/-- What a check found. -/
structure CheckReport where
  /-- Number of files that were to be scanned. -/
  files : Nat
  codebase : Codebase
  /-- The diagnostics in the order of their locations. -/
  warnings : List Warning
  errors : Nat

namespace CheckReport

/-- One line of the report. -/
def line (text : String) : String := text ++ "\n"

/-- Numbers of public and of private definitions of a module. -/
structure ModuleCount where
  publicCount : Nat
  privateCount : Nat
deriving DecidableEq, Repr, Inhabited

/-- Counts one more definition. -/
def ModuleCount.add (count : ModuleCount) (d : Definition) : ModuleCount :=
  if d.isKnownPrivate then { count with privateCount := count.privateCount + 1 }
  else { count with publicCount := count.publicCount + 1 }

/-- The counts of all modules that have definitions, in the order of their names. -/
def moduleCounts (c : Codebase) : List (String × ModuleCount) :=
  let counts : Std.ExtTreeMap String ModuleCount := c.definitions.foldl (fun counts d =>
    counts.insert d.module ((counts[d.module]?.getD ⟨0, 0⟩).add d)) ∅
  counts.toList

def renderModule (module : String) (count : ModuleCount) : String :=
  let name := if module == "" then "<none>" else module
  s!"module {name}: {count.publicCount} public, {count.privateCount} private"

/-- What was scanned and found, in numbers. -/
def summary (r : CheckReport) : String :=
  let c := r.codebase
  s!"scanned {r.files} files: {c.types.size} types, {c.functions.size} functions, " ++
    s!"{c.fieldCount} fields, {c.typedefs.size} typedefs, {c.macros.size} macros"

/-- Number of diagnostics that have a location. -/
def located (r : CheckReport) : Nat := r.warnings.countP fun w => w.location.isSome

/-- The text of a report. A verbose one counts the definitions of each module. -/
def render (r : CheckReport) (verbose : Bool) : String :=
  let modules := if verbose then
      (moduleCounts r.codebase).map fun (module, count) => renderModule module count
    else []
  String.join ((r.warnings.map Warning.render ++ modules ++
    [r.summary, s!"{r.errors} errors, {r.located} diagnostics"]).map line)

/-- Did the check find no errors? -/
def isClean (r : CheckReport) : Bool := r.errors == 0

end CheckReport

namespace CheckOptions

variable {m : Type → Type} [Monad m] [FileAccess m]

/-- A module for each directory right below the source directory, in the order of their
names. -/
def defaultModules (source : SourcePath) : ExceptT ScanError m (List Module) := do
  let entries ← ProjectScan.reading source (FileAccess.entries source)
  let names := (entries.filter DirectoryEntry.isDirectory).map DirectoryEntry.name
  return names.mergeSort.map Module.named

/-- The project that is asked for. -/
def moduleConfig (o : CheckOptions) : ExceptT ScanError m ModuleConfig := do
  let config := ModuleConfig.standard o.root
  let modules ← if o.modules.isEmpty then defaultModules config.sourceDirectory else pure o.modules
  return { config with modules, extraFiles := o.extraFiles, extraMacros := o.extraMacros }

/-- The diagnostics that are asked for. -/
def diagnostics (o : CheckOptions) : SinkConfig :=
  if o.warnModuleMismatch then SinkConfig.everything else SinkConfig.checker

/-- Checks a project. Scans are kept in the given form. -/
def run (o : CheckOptions) (form : StoredForm SourceScan) : ExceptT ScanError m CheckReport := do
  let config ← o.moduleConfig
  let cache := DiskCache.ofRoot config.root
  if o.clearCache then ExceptT.mk cache.clear
  let files ← ProjectScan.discover config
  let (codebase, sink) ← (ProjectScan.scanFiles config (Sink.empty o.diagnostics) form
    (if o.cache then some cache.cache else none) files : m _)
  return ⟨files.length, codebase, sink.sorted, sink.errors⟩

end CheckOptions

end CBoundary
