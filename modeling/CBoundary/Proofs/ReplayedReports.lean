import CBoundary.Proofs.CacheTransparency
import CBoundary.Proofs.UnreadableFile

/-!
Reports that are captured and given out again. What goes into a cache is the scan of a file with the
reports that an empty sink has kept, and these are what the sink of the run takes in. It keeps the
same reports as if the file had been scanned into it, whatever it has kept before, but it counts
only what was captured, and a limit cuts that off. A scan reports nothing but warnings, so errors
are counted the same, and warnings exactly if the limit cuts nothing off. Main statement:
`FileTree.replayed_alike`.
-/
namespace CBoundary

open ProjectScan

namespace ProjectScan

variable {m : Type → Type} [Monad m] [FileAccess m]

/-- Scans a file straight into a sink. -/
def scanInto (config : ModuleConfig) (path : SourcePath) (sink : Sink) :
    m (Except ScanError Codebase × Sink) := do
  let result ← (scanAlone config path).run
  return (result.map SourceScan.codebase, sink.emitAll (reportsOf result))

/-- Scans a file as it is scanned for a cache, and gives out to the sink what was captured. -/
def replayInto (config : ModuleConfig) (path : SourcePath) (sink : Sink) :
    m (Except ScanError Codebase × Sink) := do
  let result ← (captured sink.config <$> scanAlone config path).run
  return (result.map SourceScan.codebase, sink.emitAll (reportsOf result))

/-- What an empty sink keeps of the reports of a scan. -/
theorem reportsOf_captured (diagnostics : SinkConfig) (result : Except ScanError SourceScan) :
    reportsOf (result.map (captured diagnostics)) =
      ((Sink.empty diagnostics).emitAll (reportsOf result)).reports := by
  cases result <;> rfl

end ProjectScan

namespace Report

variable {r : Report}

theorem OnlyWarnings.count_warning_pos (h : r.OnlyWarnings) : 0 < Sink.count .warning r := by
  obtain ⟨w, hw⟩ := List.exists_mem_of_ne_nil r h.1
  exact List.countP_pos_iff.2 ⟨w, hw, by simp [h.2 w hw]⟩

theorem OnlyWarnings.count_error (h : r.OnlyWarnings) : Sink.count .error r = 0 := by
  refine List.countP_eq_zero.2 fun w hw => ?_
  simp [h.2 w hw]

end Report

namespace Sink

/-- Number of records of a severity in reports. -/
def countAll (severity : Severity) (reports : List Report) : Nat :=
  (reports.map (count severity)).sum

theorem countAll_append (severity : Severity) (first second : List Report) :
    countAll severity (first ++ second) = countAll severity first + countAll severity second := by
  rw [countAll, List.map_append, List.sum_append, countAll, countAll]

/-- Counts are of the records of all reports that are accepted, kept or not. -/
theorem tallies_emitAll (s : Sink) (reports : List Report) :
    (s.emitAll reports).errors =
        s.errors + countAll .error (reports.filter s.config.accepts) ∧
      (s.emitAll reports).warnings =
        s.warnings + countAll .warning (reports.filter s.config.accepts) := by
  induction reports generalizing s with
  | nil => simp [emitAll, countAll]
  | cons r reports ih =>
    have hstep : s.emitAll (r :: reports) = (s.emit r).emitAll reports := rfl
    have hconfig : (s.emit r).config = s.config := config_emit s r
    obtain ⟨herrors, hwarnings⟩ := ih (s.emit r)
    rw [hstep, herrors, hwarnings, hconfig]
    by_cases haccepts : s.config.accepts r = true
    · simp [emit, haccepts, countAll, Nat.add_assoc]
    · simp [emit, haccepts]

/-- The accepted reports that an empty sink has no room for. -/
def cutOff (config : SinkConfig) (reports : List Report) : List Report :=
  if config.limit = 0 then [] else (reports.filter config.accepts).drop config.limit

theorem cutOff_eq_nil {config : SinkConfig} {reports : List Report} :
    cutOff config reports = [] ↔
      config.limit = 0 ∨ (reports.filter config.accepts).length ≤ config.limit := by
  unfold cutOff
  split
  · simp [*]
  · simp [*]

/-- An empty sink takes in all that it accepts but what it has no room for. -/
theorem kept_append_cutOff (config : SinkConfig) (reports : List Report) :
    ((empty config).emitAll reports).reports ++ cutOff config reports =
      reports.filter config.accepts := by
  unfold cutOff
  split
  · rename_i hlimit
    rw [emitAll_eq (empty config) hlimit]
    simp [empty]
  · rename_i hlimit
    rw [reports_emitAll (empty config) hlimit]
    simp [empty]

theorem filter_kept (config : SinkConfig) (reports : List Report) :
    ((empty config).emitAll reports).reports.filter config.accepts =
      ((empty config).emitAll reports).reports :=
  List.filter_eq_self.2 fun _ hr => (mem_of_mem_empty hr).2

/-- What an empty sink has no room for is counted when it comes directly, and never after. -/
theorem tallies_emitAll_kept (s : Sink) (reports : List Report) :
    let replayed := s.emitAll ((empty s.config).emitAll reports).reports
    (s.emitAll reports).errors = replayed.errors + countAll .error (cutOff s.config reports) ∧
      (s.emitAll reports).warnings =
        replayed.warnings + countAll .warning (cutOff s.config reports) := by
  intro replayed
  obtain ⟨herrors, hwarnings⟩ := s.tallies_emitAll reports
  obtain ⟨herrors', hwarnings'⟩ := s.tallies_emitAll ((empty s.config).emitAll reports).reports
  rw [filter_kept] at herrors' hwarnings'
  rw [herrors, hwarnings, herrors', hwarnings', ← kept_append_cutOff, countAll_append,
    countAll_append, Nat.add_assoc, Nat.add_assoc]
  exact ⟨rfl, rfl⟩

theorem mem_of_mem_cutOff {config : SinkConfig} {reports : List Report} {r : Report}
    (hr : r ∈ cutOff config reports) : r ∈ reports := by
  have haccepted : r ∈ reports.filter config.accepts :=
    kept_append_cutOff config reports ▸ List.mem_append_right _ hr
  exact (List.mem_filter.1 haccepted).1

variable {reports : List Report}

theorem countAll_error (h : ∀ r ∈ reports, r.OnlyWarnings) : countAll .error reports = 0 := by
  refine List.sum_eq_zero fun n hn => ?_
  obtain ⟨r, hr, rfl⟩ := List.mem_map.1 hn
  exact (h r hr).count_error

theorem countAll_warning_eq_zero (h : ∀ r ∈ reports, r.OnlyWarnings) :
    countAll .warning reports = 0 ↔ reports = [] := by
  constructor
  · intro hzero
    by_contra hne
    obtain ⟨r, hr⟩ := List.exists_mem_of_ne_nil reports hne
    have hpos : 0 < countAll .warning reports :=
      List.sum_pos_iff_exists_pos_nat.2 ⟨_, List.mem_map_of_mem hr, (h r hr).count_warning_pos⟩
    exact hpos.ne' hzero
  · rintro rfl
    rfl

end Sink

namespace FileTree

variable (tree : FileTree) (config : ModuleConfig)

theorem run_scanInto (path : SourcePath) (sink : Sink) :
    (scanInto config path sink : StateM FileTree _).run tree =
      (((tree.scanOf config path).map SourceScan.codebase,
        sink.emitAll (reportsOf (tree.scanOf config path))), tree) := by
  unfold scanInto
  rw [StateT.run_bind, run_scanAlone]
  rfl

theorem run_replayInto (path : SourcePath) (sink : Sink) :
    (replayInto config path sink : StateM FileTree _).run tree =
      (((tree.scanOf config path).map SourceScan.codebase,
        sink.emitAll
          ((Sink.empty sink.config).emitAll (reportsOf (tree.scanOf config path))).reports),
        tree) := by
  have hcapture : (captured sink.config <$> (scanAlone config path :
      ExceptT ScanError (StateM FileTree) SourceScan)).run.run tree =
        ((tree.scanOf config path).map (captured sink.config), tree) := by
    rw [ExceptT.run_map, ← bind_pure_comp, StateT.run_bind, run_scanAlone]
    rfl
  unfold replayInto
  rw [StateT.run_bind, hcapture]
  have hsame : SameFor sink.config _ _ := sameFor_captured (tree.scanOf config path)
  exact congrArg (fun outcome => (outcome, tree))
    (Prod.ext hsame.codebase (congrArg sink.emitAll (reportsOf_captured _ _)))

/-- Whether a file is scanned straight into a sink or by way of what was captured for a cache, the
table or the error is the same, no file is changed, and the sink keeps the same reports and counts
the same errors, whatever was in it and whatever its configuration. The warnings it is short of are
those of the reports that the limit cut off when they were captured, so it counts the same exactly
if it has no limit or the file alone does not exceed it. -/
theorem replayed_alike (tree : FileTree) (config : ModuleConfig) (path : SourcePath)
    (sink : Sink) :
    let ((found, direct), after) := (scanInto config path sink : StateM FileTree _).run tree
    let ((given, replayed), last) := (replayInto config path sink : StateM FileTree _).run tree
    let reports := reportsOf (tree.scanOf config path)
    given = found ∧ after = tree ∧ last = tree ∧ replayed.config = direct.config ∧
      replayed.reports = direct.reports ∧ replayed.errors = direct.errors ∧
      direct.warnings =
        replayed.warnings + Sink.countAll .warning (Sink.cutOff sink.config reports) ∧
      (replayed.warnings = direct.warnings ↔
        sink.config.limit = 0 ∨
          (reports.filter sink.config.accepts).length ≤ sink.config.limit) := by
  rw [run_scanInto, run_replayInto]
  set reports := reportsOf (tree.scanOf config path)
  have hadvice : ∀ r ∈ Sink.cutOff sink.config reports, r.OnlyWarnings := fun r hr =>
    tree.onlyWarnings_of_mem_scanOf config (Sink.mem_of_mem_cutOff hr)
  obtain ⟨herrors, hwarnings⟩ := sink.tallies_emitAll_kept reports
  rw [Sink.countAll_error hadvice, Nat.add_zero] at herrors
  refine ⟨rfl, rfl, rfl, ?_, sink.reports_emitAll_kept reports, herrors.symm, hwarnings, ?_⟩
  · rw [Sink.config_emitAll, Sink.config_emitAll]
  · rw [hwarnings, Nat.left_eq_add, Sink.countAll_warning_eq_zero hadvice, Sink.cutOff_eq_nil]

/-- A record and its field give rise to a report each. Both are counted when they come directly, but
with a limit of one only the first is captured. -/
theorem second_report_not_counted :
    let text := "/* #private(foo) */ struct __wt_b_x \x7b /* #private(foo) */ int __wt_b_a; \x7d;"
    let config := { ModuleConfig.standard ⟨"."⟩ with modules := [.named "foo", .named "b"] }
    let tree : FileTree := ⟨.directory [("a.c", .file (Bytes.ofText text) ⟨0⟩)], [], ⟨0⟩⟩
    let sink := Sink.empty ⟨Categories.all, 1⟩
    let direct := ((scanInto config ⟨"a.c"⟩ sink : StateM FileTree _).run tree).1.2
    let replayed := ((replayInto config ⟨"a.c"⟩ sink : StateM FileTree _).run tree).1.2
    replayed.reports = direct.reports ∧ replayed.errors = direct.errors ∧
      direct.warnings = 2 ∧ replayed.warnings = 1 := by
  intro text config tree sink direct replayed
  have hone : ∃ s ∈ (Statement.ofSource 0 text).head?.toList,
      Statement.ofSource 0 text = [s] ∧ SourceScan.linkageBody? .idle s = none := by
    decide +kernel
  obtain ⟨s, -, hs, hbody⟩ := hone
  have hreports : reportsOf (tree.scanOf config ⟨"a.c"⟩) =
      (((Statement.ofSource 0 text).flatMap fun s =>
        (Sighting.ofStatement (ScanContext.forFile config ⟨"a.c"⟩ text) .idle s).1).foldl
          Sighting.addTo SourceScan.start).reports := by
    have hread : tree.read ⟨"a.c"⟩ = .ok (Bytes.ofText text) := rfl
    rw [FileTree.scanOf_of_read tree config hread, reportsOf, scanText, SourceScan.readText,
      SourceScan.readStatements_eq, ← Sighting.ofText, Sighting.ofText_singleton hs hbody, hs,
      List.flatMap_singleton]
  simp only [direct, replayed, run_scanInto, run_replayInto, hreports]
  decide +kernel

end FileTree

end CBoundary
