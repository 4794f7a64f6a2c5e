import CBoundary.FileTree
import CBoundary.Proofs.ReportOrigin
import Mathlib.Logic.Relation

/-!
Scanning files at the same time. Every file is read and scanned on its own, at any time, and its
reports reach the sink that all files share one after the other, between those of other files. The
tables are merged in the order of the paths once all reports are in. A step moves one report from
a file to the sink, and since reports of other files have other keys, what was sent together with
what is still to come stays the same by key. Hence no schedule can be told from scanning the files
one by one. Main statement: `outcome_alike_scanFiles`.
-/
namespace CBoundary

open ProjectScan Report Relation

/-- The table and the sink after the files were scanned and their tables are merged. -/
def ProjectScan.merged (config : ModuleConfig) (sink : Sink)
    (scans : List (Except ScanError SourceScan)) : Codebase × Sink :=
  let project := assemble config scans
  (project.codebase, sink.emitAll project.reports)

namespace FileTree

variable (tree : FileTree) (config : ModuleConfig)

def textAt (path : SourcePath) : Except IoError String :=
  (tree.read path).bind fun bytes => (bytes.text?.map Except.ok).getD (.error .notText)

theorem run_readText (path : SourcePath) :
    (FileAccess.readText path : StateM FileTree (Except IoError String)).run tree =
      (tree.textAt path, tree) := by
  have hread : (FileAccess.read path : StateM FileTree (Except IoError Bytes)).run tree =
      (tree.read path, tree) := rfl
  unfold FileAccess.readText textAt
  rw [StateT.run_bind, hread]
  cases tree.read path <;> rfl

/-- What scanning a file on its own finds. -/
def scanOf (path : SourcePath) : Except ScanError SourceScan :=
  ((tree.textAt path).mapError (ScanError.read path)).map (scanText config path)

/-- Scanning a file changes no file. -/
theorem run_scanAlone (path : SourcePath) :
    (scanAlone config path : ExceptT ScanError (StateM FileTree) SourceScan).run.run tree =
      (tree.scanOf config path, tree) := by
  unfold scanAlone reading scanOf
  simp only [ExceptT.run_bind, ExceptT.run_mk, StateT.run_bind, run_readText]
  cases tree.textAt path <;> rfl

theorem run_mapM_scanAlone (paths : List SourcePath) :
    (paths.mapM fun path =>
      (scanAlone config path : ExceptT ScanError (StateM FileTree) SourceScan).run).run tree =
        (paths.map (tree.scanOf config), tree) := by
  induction paths with
  | nil => rfl
  | cons path paths ih =>
    rw [List.mapM_cons, StateT.run_bind, run_scanAlone]
    change ((paths.mapM _ >>= _ : StateM FileTree _).run tree) = _
    rw [StateT.run_bind, ih]
    rfl

theorem run_scanFiles (sink : Sink) (form : StoredForm SourceScan) (paths : List SourcePath) :
    ((scanFiles config sink form none paths : StateM FileTree (Codebase × Sink)).run tree).1 =
      merged config (sink.emitAll ((paths.map (tree.scanOf config)).flatMap reportsOf))
        (paths.map (tree.scanOf config)) := by
  unfold scanFiles scanFile
  rw [StateT.run_bind, run_mapM_scanAlone]
  rfl

theorem scanOf_of_read {path : SourcePath} {text : String}
    (hread : tree.read path = .ok (Bytes.ofText text)) :
    tree.scanOf config path = .ok (scanText config path text) := by
  have htext : tree.textAt path = .ok text := by
    rw [textAt, hread, Except.bind, Bytes.text?_ofText]
    rfl
  rw [scanOf, htext]
  rfl

theorem startsIn_of_mem_reportsOf {path : SourcePath} {r : Report}
    (hr : r ∈ reportsOf (tree.scanOf config path)) : r.StartsIn path.text := by
  unfold scanOf at hr
  cases htext : tree.textAt path with
  | error e =>
    rw [htext] at hr
    exact absurd hr List.not_mem_nil
  | ok text =>
    rw [htext] at hr
    exact startsIn_scanText config path text hr

end FileTree

/-- How far the scan of one file has come. -/
inductive FileTask where
  | waiting (path : SourcePath)
  /-- Scanned, with reports that have yet to reach the sink. -/
  | scanned (scan : Except ScanError SourceScan) (unsent : List Report)

/-- The files that are scanned at the same time, in order, and the sink that they share. -/
structure ParallelScan where
  tasks : List FileTask
  sink : Sink

namespace FileTask

variable (tree : FileTree) (config : ModuleConfig)

/-- What the scan of the file finds, now or later. -/
def scan : FileTask → Except ScanError SourceScan
  | .waiting path => tree.scanOf config path
  | .scanned scan _ => scan

/-- The reports of the file that have yet to reach the sink. -/
def toCome : FileTask → List Report
  | .waiting path => reportsOf (tree.scanOf config path)
  | .scanned _ unsent => unsent

/-- What the scan of the file found, once all its reports are sent. -/
def result? : FileTask → Option (Except ScanError SourceScan)
  | .scanned scan [] => some scan
  | _ => none

/-- The number of steps to the result. -/
def distance : FileTask → Nat
  | .waiting path => (reportsOf (tree.scanOf config path)).length + 1
  | .scanned _ unsent => unsent.length

def done (scan : Except ScanError SourceScan) : FileTask := .scanned scan []

theorem mapM_result?_eq_some_iff {tasks : List FileTask}
    {scans : List (Except ScanError SourceScan)} :
    tasks.mapM result? = some scans ↔ tasks = scans.map done := by
  constructor
  · intro h
    induction tasks generalizing scans with
    | nil => simp_all
    | cons t tasks ih =>
      simp only [List.mapM_cons, Option.bind_eq_bind, Option.bind_eq_some_iff, Option.pure_def,
        Option.some.injEq] at h
      obtain ⟨scan, hscan, rest, hrest, rfl⟩ := h
      have ht : t = done scan := by
        unfold result? at hscan
        split at hscan
        · rw [Option.some.inj hscan, done]
        · simp at hscan
      rw [ht, ih hrest, List.map_cons]
  · rintro rfl
    induction scans with
    | nil => rfl
    | cons scan scans ih => simp [done, result?, ih]

end FileTask

namespace ParallelScan

/-- No file is scanned yet. -/
def start (sink : Sink) (paths : List SourcePath) : ParallelScan :=
  ⟨paths.map .waiting, sink⟩

/-- The table and the sink after the merge, once all files have their results. -/
def outcome? (config : ModuleConfig) (s : ParallelScan) : Option (Codebase × Sink) :=
  (s.tasks.mapM FileTask.result?).map (merged config s.sink)

variable (tree : FileTree) (config : ModuleConfig)

/-- One step of one file, whichever it is. -/
inductive Step : ParallelScan → ParallelScan → Prop
  | read (before after : List FileTask) (path : SourcePath) (sink : Sink) :
      Step ⟨before ++ .waiting path :: after, sink⟩
        ⟨before ++ .scanned (tree.scanOf config path) (reportsOf (tree.scanOf config path)) ::
          after, sink⟩
  | send (before after : List FileTask) (scan : Except ScanError SourceScan) (r : Report)
      (unsent : List Report) (sink : Sink) :
      Step ⟨before ++ .scanned scan (r :: unsent) :: after, sink⟩
        ⟨before ++ .scanned scan unsent :: after, sink.emit r⟩

/-- Any number of steps, in any order. -/
abbrev Run : ParallelScan → ParallelScan → Prop := ReflTransGen (Step tree config)

def scans (s : ParallelScan) : List (Except ScanError SourceScan) :=
  s.tasks.map (FileTask.scan tree config)

def toCome (s : ParallelScan) : List Report := s.tasks.flatMap (FileTask.toCome tree config)

/-- Unsent reports of different files have different keys. -/
def Apart (s : ParallelScan) : Prop :=
  s.tasks.Pairwise fun t u => ∀ r ∈ t.toCome tree config, ∀ r' ∈ u.toCome tree config,
    r.sortKey? ≠ r'.sortKey?

variable {tree config} {s s' : ParallelScan}

@[simp] theorem scans_start (sink : Sink) (paths : List SourcePath) :
    (start sink paths).scans tree config = paths.map (tree.scanOf config) := by
  simp only [scans, start, List.map_map]
  rfl

@[simp] theorem toCome_start (sink : Sink) (paths : List SourcePath) :
    (start sink paths).toCome tree config =
      (paths.map (tree.scanOf config)).flatMap reportsOf := by
  simp only [toCome, start, List.flatMap_map]
  rfl

@[simp] theorem scans_done (sink : Sink) (scans : List (Except ScanError SourceScan)) :
    ParallelScan.scans tree config ⟨scans.map FileTask.done, sink⟩ = scans := by
  simp only [ParallelScan.scans, List.map_map]
  exact List.map_id scans

@[simp] theorem toCome_done (sink : Sink) (scans : List (Except ScanError SourceScan)) :
    toCome tree config ⟨scans.map FileTask.done, sink⟩ = [] := by
  simp [toCome, FileTask.done, FileTask.toCome]

theorem Step.scans (h : Step tree config s s') : s'.scans tree config = s.scans tree config := by
  cases h <;> simp [ParallelScan.scans, FileTask.scan]

theorem apart_of_subset {before after : List FileTask} {t t' : FileTask} {sink sink' : Sink}
    (h : Apart tree config ⟨before ++ t :: after, sink⟩)
    (hsub : t'.toCome tree config ⊆ t.toCome tree config) :
    Apart tree config ⟨before ++ t' :: after, sink'⟩ := by
  obtain ⟨hbefore, hrest, hcross⟩ := List.pairwise_append.1 h
  obtain ⟨hfirst, hafter⟩ := List.pairwise_cons.1 hrest
  refine List.pairwise_append.2 ⟨hbefore, List.pairwise_cons.2 ⟨?_, hafter⟩, ?_⟩
  · intro u hu r hr
    exact hfirst u hu r (hsub hr)
  · intro u hu v hv r hr r' hr'
    rcases List.mem_cons.1 hv with rfl | hv
    · exact hcross u hu t List.mem_cons_self r hr r' (hsub hr')
    · exact hcross u hu v (List.mem_cons_of_mem t hv) r hr r' hr'

theorem Step.apart (h : Step tree config s s') (hapart : Apart tree config s) :
    Apart tree config s' := by
  cases h with
  | read before after path sink => exact apart_of_subset hapart (List.Subset.refl _)
  | send before after scan r unsent sink =>
    exact apart_of_subset hapart (List.subset_cons_self r unsent)

/-- What a step sends and what is still to come then is, by key, what was to come before. -/
theorem Step.sends (h : Step tree config s s') (hapart : Apart tree config s) :
    ∃ sent, s'.sink = s.sink.emitAll sent ∧
      SameByKey (sent ++ s'.toCome tree config) (s.toCome tree config) := by
  cases h with
  | read before after path sink =>
    refine ⟨[], rfl, ?_⟩
    simp only [toCome, List.nil_append, List.flatMap_append, List.flatMap_cons]
    exact SameByKey.refl _
  | send before after scan r unsent sink =>
    refine ⟨[r], rfl, ?_⟩
    simp only [toCome, List.flatMap_append, List.flatMap_cons]
    -- the report moves in front of those of the files before its own
    have hother : ∀ r' ∈ before.flatMap (FileTask.toCome tree config),
        r'.sortKey? ≠ r.sortKey? := by
      intro r' hr'
      obtain ⟨t, ht, hr'⟩ := List.mem_flatMap.1 hr'
      obtain ⟨-, -, hcross⟩ := List.pairwise_append.1 hapart
      exact hcross t ht _ List.mem_cons_self r' hr' r List.mem_cons_self
    have hmove := (SameByKey.move hother).append
      (SameByKey.refl (unsent ++ after.flatMap (FileTask.toCome tree config)))
    simpa [FileTask.toCome] using hmove

/-- Along a run the scans stay, and what was sent and what is still to come is, by key, what was to
come at its start. -/
theorem Run.sends (h : Run tree config s s') (hapart : Apart tree config s) :
    s'.scans tree config = s.scans tree config ∧
      ∃ sent, s'.sink = s.sink.emitAll sent ∧
        SameByKey (sent ++ s'.toCome tree config) (s.toCome tree config) := by
  induction h using ReflTransGen.head_induction_on with
  | refl => exact ⟨rfl, [], rfl, SameByKey.refl _⟩
  | head hstep _ ih =>
    obtain ⟨hscans, later, hsink', hlater⟩ := ih (hstep.apart hapart)
    obtain ⟨sent, hsink, hsent⟩ := hstep.sends hapart
    refine ⟨hscans.trans hstep.scans, sent ++ later, ?_, ?_⟩
    · rw [hsink', hsink, Sink.emitAll_append]
    · rw [List.append_assoc]
      exact ((SameByKey.refl sent).append hlater).trans hsent

theorem outcome?_done (sink : Sink) (scans : List (Except ScanError SourceScan)) :
    outcome? config ⟨scans.map FileTask.done, sink⟩ = some (merged config sink scans) := by
  rw [outcome?, FileTask.mapM_result?_eq_some_iff.2 rfl, Option.map_some]

/-- However far it has come, a file may send all its reports while the others wait. -/
theorem run_done (before after : List FileTask) (t : FileTask) (sink : Sink) :
    Run tree config ⟨before ++ t :: after, sink⟩
      ⟨before ++ .done (t.scan tree config) :: after,
        sink.emitAll (t.toCome tree config)⟩ := by
  have hsend (scan : Except ScanError SourceScan) (unsent : List Report) (sink : Sink) :
      Run tree config ⟨before ++ .scanned scan unsent :: after, sink⟩
        ⟨before ++ .done scan :: after, sink.emitAll unsent⟩ := by
    induction unsent generalizing sink with
    | nil => exact .refl
    | cons r unsent ih => exact .head (.send before after scan r unsent sink) (ih (sink.emit r))
  cases t with
  | waiting path => exact .head (.read before after path sink) (hsend _ _ _)
  | scanned scan unsent => exact hsend scan unsent sink

theorem run_map_done (before after : List FileTask) (sink : Sink) :
    Run tree config ⟨before ++ after, sink⟩
      ⟨before ++ (after.map (FileTask.scan tree config)).map .done,
        sink.emitAll (after.flatMap (FileTask.toCome tree config))⟩ := by
  induction after generalizing before sink with
  | nil => exact .refl
  | cons t after ih =>
    -- once the first file is done, it counts among those before
    have hrest := ih (before ++ [.done (t.scan tree config)])
      (sink.emitAll (t.toCome tree config))
    simp only [List.append_assoc, List.singleton_append, ← Sink.emitAll_append] at hrest
    exact (run_done before after t sink).trans hrest

/-- No schedule gets stuck. -/
theorem exists_run_outcome (s : ParallelScan) :
    ∃ last outcome, Run tree config s last ∧ last.outcome? config = some outcome :=
  ⟨_, _, run_map_done [] s.tasks s.sink, outcome?_done _ (s.scans tree config)⟩

theorem Step.distance_lt (h : Step tree config s s') :
    (s'.tasks.map (FileTask.distance tree config)).sum <
      (s.tasks.map (FileTask.distance tree config)).sum := by
  cases h <;> simp [FileTask.distance]

/-- No schedule goes on forever. -/
theorem wellFounded_step : WellFounded fun s' s => Step tree config s s' :=
  Subrelation.wf Step.distance_lt
    (measure fun s : ParallelScan => (s.tasks.map (FileTask.distance tree config)).sum).wf

theorem apart_start (sink : Sink) {paths : List SourcePath} (hdistinct : paths.Nodup)
    (hcolon : ∀ path ∈ paths, ':' ∉ path.text.toList) :
    Apart tree config (start sink paths) := by
  refine List.pairwise_map.2 ?_
  refine List.Pairwise.imp_of_mem ?_ hdistinct
  intro path path' hmem hmem' hne r hr r' hr'
  have hstarts := tree.startsIn_of_mem_reportsOf config hr
  have hstarts' := tree.startsIn_of_mem_reportsOf config hr'
  refine sortKey?_ne hstarts hstarts' (hcolon path hmem) (hcolon path' hmem') ?_
  intro htext
  exact hne (congrArg SourcePath.mk htext)

/-- Files may be scanned at the same time in any way. As long as the sink keeps all reports and
files are told apart by paths without colons, every run can be brought to an end, and at its end
the symbol table, the tallies and the sorted records are those of the files scanned one by one. -/
theorem outcome_alike_scanFiles (tree : FileTree) (config : ModuleConfig) (sink : Sink)
    (form : StoredForm SourceScan) (paths : List SourcePath) (hlimit : sink.config.limit = 0)
    (hdistinct : paths.Nodup) (hcolon : ∀ path ∈ paths, ':' ∉ path.text.toList) {s : ParallelScan}
    (hrun : Run tree config (start sink paths) s) :
    (∃ last outcome, Run tree config s last ∧ last.outcome? config = some outcome) ∧
      ∀ codebase after, s.outcome? config = some (codebase, after) →
        let sequential :=
          ((scanFiles config sink form none paths : StateM FileTree (Codebase × Sink)).run tree).1
        codebase = sequential.1 ∧ after.Alike sequential.2 := by
  refine ⟨exists_run_outcome s, ?_⟩
  intro codebase after houtcome
  obtain ⟨hscans, sent, hsink, hsent⟩ := Run.sends hrun (apart_start sink hdistinct hcolon)
  obtain ⟨tasks, last⟩ := s
  obtain ⟨scans, hresults, hmerged⟩ := Option.map_eq_some_iff.1 houtcome
  obtain rfl := FileTask.mapM_result?_eq_some_iff.1 hresults
  rw [scans_done, scans_start] at hscans
  rw [toCome_done, toCome_start, List.append_nil] at hsent
  subst hscans hsink
  obtain ⟨rfl, rfl⟩ := Prod.mk.inj hmerged
  rw [FileTree.run_scanFiles]
  refine ⟨rfl, ?_⟩
  -- the reports of the merge come behind all others, in both
  simp only [merged, ← Sink.emitAll_append]
  exact Sink.alike_emitAll sink hlimit (hsent.append (SameByKey.refl _))

/-- Of two files with one report each, the second is scanned and sends its report before the first
is read. -/
theorem second_file_first :
    let text := "/* #private(foo) */ struct __wt_bar_x \x7b int a; \x7d;"
    let config := { ModuleConfig.standard ⟨"."⟩ with modules := [.named "foo", .named "bar"] }
    let tree : FileTree := ⟨.directory [("a.c", .file (Bytes.ofText text) ⟨0⟩),
      ("b.c", .file (Bytes.ofText text) ⟨0⟩)], [], ⟨0⟩⟩
    let paths : List SourcePath := [⟨"a.c"⟩, ⟨"b.c"⟩]
    let sink := Sink.empty .everything
    let form : StoredForm SourceScan := ⟨fun _ => none, fun _ => none⟩
    let sequential :=
      ((scanFiles config sink form none paths : StateM FileTree (Codebase × Sink)).run tree).1
    ∃ s codebase after, Run tree config (start sink paths) s ∧
      s.sink.reports.map (fun r => r.head?.bind Warning.location) =
        [some "b.c:1:28", some "a.c:1:28"] ∧
      s.outcome? config = some (codebase, after) ∧
      codebase = sequential.1 ∧ after.Alike sequential.2 := by
  intro text config tree paths sink form sequential
  have hsecond : Run tree config (start sink paths)
      ⟨[.waiting ⟨"a.c"⟩, .done (tree.scanOf config ⟨"b.c"⟩)],
        sink.emitAll (reportsOf (tree.scanOf config ⟨"b.c"⟩))⟩ :=
    run_done [.waiting ⟨"a.c"⟩] [] (.waiting ⟨"b.c"⟩) sink
  have hrun : Run tree config (start sink paths)
      ⟨(paths.map (tree.scanOf config)).map .done,
        (sink.emitAll (reportsOf (tree.scanOf config ⟨"b.c"⟩))).emitAll
          (reportsOf (tree.scanOf config ⟨"a.c"⟩))⟩ :=
    hsecond.trans (run_done [] [.done (tree.scanOf config ⟨"b.c"⟩)] (.waiting ⟨"a.c"⟩) _)
  have houtcome := @outcome?_done config
    ((sink.emitAll (reportsOf (tree.scanOf config ⟨"b.c"⟩))).emitAll
      (reportsOf (tree.scanOf config ⟨"a.c"⟩))) (paths.map (tree.scanOf config))
  have halike := (outcome_alike_scanFiles tree config sink form paths rfl (by decide) (by decide)
    hrun).2 _ _ houtcome
  refine ⟨_, _, _, hrun, ?_, houtcome, halike⟩
  have hreports (path : SourcePath) (hread : tree.read path = .ok (Bytes.ofText text)) :
      reportsOf (tree.scanOf config path) =
        (((Statement.ofSource 0 text).flatMap fun s =>
          (Sighting.ofStatement (ScanContext.forFile config path text) .idle s).1).foldl
            Sighting.addTo SourceScan.start).reports := by
    have hone : ∃ s ∈ (Statement.ofSource 0 text).head?.toList,
        Statement.ofSource 0 text = [s] ∧ SourceScan.linkageBody? .idle s = none := by
      decide +kernel
    obtain ⟨s, -, hs, hbody⟩ := hone
    rw [FileTree.scanOf_of_read tree config hread, reportsOf, scanText, SourceScan.readText,
      SourceScan.readStatements_eq, ← Sighting.ofText, Sighting.ofText_singleton hs hbody, hs,
      List.flatMap_singleton]
  simp only [hreports ⟨"a.c"⟩ rfl, hreports ⟨"b.c"⟩ rfl]
  decide +kernel

end ParallelScan

end CBoundary
