import CBoundary.FileAccess
import CBoundary.ScanCache
import CBoundary.Sink
import CBoundary.SourceScan

/-!
Scanning the files of a project. The sources are found below the source directory, each file
is scanned on its own, and the tables are then merged in the order of the files. A file that
cannot be read is reported and skipped. With a cache, the scan of a file is kept together with
the reports it gave rise to, and these are given out again when it is used.
-/
namespace CBoundary

/-- How the work of a scan is laid out. Each file is scanned on its own, so that what is found
does not depend on it. -/
structure ScanOptions where
  /-- May files be scanned at the same time? -/
  parallel : Bool
  /-- How many at most; zero leaves it to the machine. -/
  threads : Nat
  usesCache : Bool
deriving DecidableEq, Repr, Inhabited

/-- The options as they are shown. -/
def ScanOptions.render (o : ScanOptions) : String :=
  s!"ScanOptions \x7b parallel: {o.parallel}, threads: {o.threads}, cache: {o.usesCache} \x7d"

namespace ProjectScan

variable {m : Type → Type} [Monad m] [FileAccess m]

/-- Runs an operation on a file and says which file it failed on. -/
def reading {α : Type} (path : SourcePath) (operation : m (Except IoError α)) :
    ExceptT ScanError m α :=
  ExceptT.mk do return (← operation).mapError (ScanError.read path)

/-- The sources and headers below a directory, in any order. Directories cannot be nested
deeper than paths are long. -/
def sourcesBelow : Nat → SourcePath → ExceptT ScanError m (List SourcePath)
  | 0, directory => throw (.read directory .nameTooLong)
  | depth + 1, directory => do
      let entries ← reading directory (FileAccess.entries directory)
      let found ← entries.mapM fun entry => do
        let path := directory.join ⟨entry.name⟩
        if entry.isDirectory then sourcesBelow depth path
        else return if ModuleConfig.isSource path then [path] else []
      return found.flatten

/-- The extra files, then the sources and headers below the source directory in the order of
their paths. -/
def discover (config : ModuleConfig) : ExceptT ScanError m (List SourcePath) := do
  let found ← sourcesBelow FileAccess.pathLimit config.sourceDirectory
  return config.extraFiles.map config.root.join ++
    found.mergeSort fun p q => (p.compare q).isLE

/-- What a file is called in the cache: its path, relative to the root if it lies there. -/
def cacheKey (config : ModuleConfig) (path : SourcePath) : String :=
  ((path.stripStart? config.root).getD path).text

/-- The scan of a text that makes up a file. -/
def scanText (config : ModuleConfig) (path : SourcePath) (text : String) : SourceScan :=
  SourceScan.readText (ScanContext.forFile config path text) 0 SourceScan.start text

/-- Reads a file and scans it. -/
def scanAlone (config : ModuleConfig) (path : SourcePath) : ExceptT ScanError m SourceScan := do
  return scanText config path (← reading path (FileAccess.readText path))

/-- The scan with those of its reports that an empty sink keeps. -/
def captured (diagnostics : SinkConfig) (s : SourceScan) : SourceScan :=
  { s with reports := ((Sink.empty diagnostics).emitAll s.reports).reports }

/-- Scans a file by way of a cache. Without a time of change there is no way to tell what is
fresh, and the cache is left alone. -/
def scanWithCache (config : ModuleConfig) (diagnostics : SinkConfig)
    (form : StoredForm SourceScan) (cache : ScanCache m) (path : SourcePath) :
    ExceptT ScanError m SourceScan := do
  match ← (FileAccess.modified path : m _) with
  | .error _ => scanAlone config path
  | .ok modified =>
      ExceptT.mk (cache.cached form (cacheKey config path) modified
        (captured diagnostics <$> scanAlone config path).run)

/-- Scans a file, by way of a cache if there is one. -/
def scanFile (config : ModuleConfig) (diagnostics : SinkConfig) (form : StoredForm SourceScan)
    (cache : Option (ScanCache m)) (path : SourcePath) : ExceptT ScanError m SourceScan :=
  match cache with
  | some cache => scanWithCache config diagnostics form cache path
  | none => scanAlone config path

/-- Folds the scan of one more file into the table of the files before it. -/
def fold (s : SourceScan) : Except ScanError SourceScan → SourceScan
  | .ok scan => s.merge scan.codebase
  | .error e => s.report [Report.error (Categories.only .io) (some e.subject) e.message]

/-- The table of a project from the scans of its files, in order. The macros from outside the
sources come first. -/
def assemble (config : ModuleConfig) (scans : List (Except ScanError SourceScan)) : SourceScan :=
  scans.foldl fold (SourceScan.ofCodebase { Codebase.empty with
    macros := config.registerExtraMacros MacroTable.empty })

/-- The reports that the scan of one file gave rise to. -/
def reportsOf : Except ScanError SourceScan → List Report
  | .ok scan => scan.reports
  | .error _ => []

/-- Scans files and merges what was found. The sink takes in the reports of the files, then
those of the merge. -/
def scanFiles (config : ModuleConfig) (sink : Sink) (form : StoredForm SourceScan)
    (cache : Option (ScanCache m)) (paths : List SourcePath) : m (Codebase × Sink) := do
  let scans ← paths.mapM fun path => (scanFile config sink.config form cache path).run
  let project := assemble config scans
  return (project.codebase, (sink.emitAll (scans.flatMap reportsOf)).emitAll project.reports)

end ProjectScan

end CBoundary
