import CBoundary.CommandLine
import CBoundary.Proofs.CacheTransparency
import CBoundary.Proofs.TableShape

/-!
What it costs that a file cannot be read. Scanning and merging report no errors, and what they do
depends on the table alone and not on what was reported before. So a scan that failed leaves behind
one report of an error, and all else is as if its file had not been among the others. A cache may
hand out the scan of a file that cannot be read any more, and then nothing is lost. Hence the errors
of a check are the files that are without a text when their turn comes and that the cache has no
scan of. Main statements: `assemble_costs` for scans of any kind, `ScanSetup.scan_turns` for files
one after the other, and `CheckOptions.unreadable_costs_itself`.
-/
namespace CBoundary

open ProjectScan

namespace Report

/-- Does the report have a record of an error? -/
def hasError (r : Report) : Bool := r.any Warning.isError

/-- The report has records, and all of them are warnings. -/
def OnlyWarnings (r : Report) : Prop := r ≠ [] ∧ ∀ w ∈ r, w.severity = .warning

/-- The reports of errors. -/
def failures (reports : List Report) : List Report := reports.filter hasError

/-- The reports without errors. -/
def advice (reports : List Report) : List Report := reports.filter fun r => !r.hasError

variable {reports : List Report}

theorem OnlyWarnings.hasError {r : Report} (h : r.OnlyWarnings) : r.hasError = false := by
  rw [Report.hasError, List.any_eq_false]
  intro w hw
  simp [Warning.isError, h.2 w hw]

theorem failures_append (first second : List Report) :
    failures (first ++ second) = failures first ++ failures second :=
  List.filter_append first second

theorem advice_append (first second : List Report) :
    advice (first ++ second) = advice first ++ advice second := List.filter_append first second

theorem failures_eq_nil (h : ∀ r ∈ reports, r.hasError = false) : failures reports = [] := by
  rw [failures, List.filter_eq_nil_iff]
  intro r hr
  rw [h r hr]
  exact Bool.false_ne_true

theorem advice_eq_self (h : ∀ r ∈ reports, r.hasError = false) : advice reports = reports := by
  rw [advice, List.filter_eq_self]
  intro r hr
  rw [h r hr, Bool.not_false]

theorem count_error_of_mem_advice {r : Report} (hr : r ∈ advice reports) :
    Sink.count .error r = 0 := by
  have hnone := (List.mem_filter.1 hr).2
  rw [Sink.count, List.countP_eq_zero]
  intro w hw herror
  have hany : r.hasError = true := List.any_eq_true.2 ⟨w, hw, herror⟩
  simp [hany] at hnone

theorem sum_count_error_advice (reports : List Report) :
    ((advice reports).map (Sink.count .error)).sum = 0 := by
  refine List.sum_eq_zero ?_
  intro n hn
  obtain ⟨r, hr, rfl⟩ := List.mem_map.1 hn
  exact count_error_of_mem_advice hr

theorem sum_map_eq (f : Report → Nat) (reports : List Report) :
    (reports.map f).sum = ((failures reports).map f).sum + ((advice reports).map f).sum := by
  have hperm := List.filter_append_perm hasError reports
  rw [← (hperm.map f).sum_eq, List.map_append, List.sum_append]
  rfl

/-- A test that does not tell records of one report apart picks whole reports. -/
theorem filter_flatten {p : Warning → Bool} {q : Report → Bool}
    (h : ∀ r ∈ reports, ∀ w ∈ r, p w = q r) :
    reports.flatten.filter p = (reports.filter q).flatten := by
  induction reports with
  | nil => rfl
  | cons r reports ih =>
    have hfirst := h r List.mem_cons_self
    rw [List.flatten_cons, List.filter_append,
      ih fun other hother => h other (List.mem_cons_of_mem r hother)]
    cases hr : q r with
    | false =>
      rw [List.filter_eq_nil_iff.2 fun w hw => by simp [hfirst w hw, hr], List.nil_append,
        List.filter_cons_of_neg (by simp [hr])]
    | true =>
      rw [List.filter_eq_self.2 fun w hw => (hfirst w hw).trans hr,
        List.filter_cons_of_pos hr, List.flatten_cons]

/-- Leaving reports out and sorting the others is sorting all and then leaving them out. -/
theorem filter_sort (p : Report → Bool) (reports : List Report) :
    (sort reports).filter p = sort (reports.filter p) := by
  refine SameByKey.eq_of_pairwise ((sort_pairwise reports).filter p) (sort_pairwise _) ?_
  exact ((sort_sameByKey reports).filter p).trans (sort_sameByKey _).symm

end Report

open Report

theorem Definition.onlyWarnings_of_mem_mergeReports {d e : Definition} {r : Report}
    (hr : r ∈ d.mergeReports e) : r.OnlyWarnings := by
  have hconflict (category : Category) (what : String) (winner loser : Definition)
      (messages : List String) :
      (conflictReport category what winner loser messages).OnlyWarnings := by
    simp [conflictReport, conflict, OnlyWarnings]
  simp only [mergeReports, List.mem_append, List.mem_ite_nil_left, List.mem_singleton] at hr
  rcases hr with (⟨-, rfl⟩ | ⟨-, rfl⟩) | hr
  · exact hconflict _ _ _ _ _
  · exact hconflict _ _ _ _ _
  · split at hr
    · simp at hr
    · obtain rfl := List.mem_singleton.1 hr
      exact hconflict _ _ _ _ _

theorem Visibility.onlyWarnings_of_mem_reports {c : ScanContext}
    {preComment postComment : Option Token} {name : String} {offset : Nat} {useNaming : Bool}
    {r : Report} (hr : r ∈ reports c preComment postComment name offset useNaming) :
    r.OnlyWarnings := by
  unfold reports at hr
  simp only at hr
  split at hr
  · split at hr
    · simp at hr
    · obtain rfl := List.mem_singleton.1 hr
      simp [Report.warning, OnlyWarnings]
  · simp at hr

namespace SourceScan

/-- Sightings whose remarks are warnings give rise to nothing but warnings. -/
theorem onlyWarnings_foldl_addTo {s : SourceScan} {xs : List Sighting}
    (hxs : ∀ reports, .remark reports ∈ xs → ∀ r ∈ reports, r.OnlyWarnings)
    (hs : ∀ r ∈ s.reports, r.OnlyWarnings) :
    ∀ r ∈ (xs.foldl Sighting.addTo s).reports, r.OnlyWarnings := by
  induction xs generalizing s with
  | nil => exact hs
  | cons x xs ih =>
    refine ih (fun reports hmem => hxs reports (List.mem_cons_of_mem x hmem)) ?_
    intro r hr
    rcases mem_reports_addTo hr with hr | ⟨reports, hx, hr⟩ | ⟨p, d, first, -, -, hr⟩
    · exact hs r hr
    · exact hxs reports (hx ▸ List.mem_cons_self) r hr
    · exact Definition.onlyWarnings_of_mem_mergeReports hr

theorem reports_addTo (s : SourceScan) (x : Sighting) :
    (x.addTo s).reports = s.reports ++ (x.addTo (ofCodebase s.codebase)).reports := by
  cases x <;> simp [Sighting.addTo, addTypeDefinition, addFunctionDefinition, addFieldDefinition,
    bindTypedef, report, ofCodebase]

/-- What sightings give rise to depends on the table alone, and comes behind what was reported. -/
theorem reports_foldl_addTo (s : SourceScan) (xs : List Sighting) :
    (xs.foldl Sighting.addTo s).reports =
      s.reports ++ (xs.foldl Sighting.addTo (ofCodebase s.codebase)).reports := by
  induction xs generalizing s with
  | nil => simp [ofCodebase]
  | cons x xs ih =>
    have htable : (x.addTo (ofCodebase s.codebase)).codebase = (x.addTo s).codebase :=
      (Codebase.addTo_codebase s x).symm
    rw [List.foldl_cons, ih, List.foldl_cons, ih (x.addTo (ofCodebase s.codebase)), htable,
      reports_addTo, List.append_assoc]

theorem reports_merge (s : SourceScan) (other : Codebase) :
    (s.merge other).reports = s.reports ++ ((ofCodebase s.codebase).merge other).reports := by
  rw [merge_reports, reports_foldl_addTo, ← merge_reports]

theorem onlyWarnings_of_mem_merge (c other : Codebase) :
    ∀ r ∈ ((ofCodebase c).merge other).reports, r.OnlyWarnings := by
  rw [merge_reports]
  refine onlyWarnings_foldl_addTo ?_ (by simp [ofCodebase])
  intro reports hmem
  simp [Codebase.contents] at hmem

theorem onlyWarnings_of_mem_readText (c : ScanContext) (base : Nat) (text : String) :
    ∀ r ∈ (readText c base start text).reports, r.OnlyWarnings := by
  rw [readText, readStatements_eq]
  refine onlyWarnings_foldl_addTo ?_ (by simp [start])
  intro reports hmem r hr
  obtain ⟨c', -, -, hform⟩ := Sighting.form_of_mem_ofText hmem
  cases hform
  exact Visibility.onlyWarnings_of_mem_reports hr

end SourceScan

namespace ProjectScan

/-- Why a file could not be scanned, if it could not. -/
def error? : Except ScanError SourceScan → Option ScanError
  | .ok _ => none
  | .error e => some e

/-- What is reported of a file that could not be scanned. -/
def failureReport (e : ScanError) : Report :=
  Report.error (Categories.only .io) (some e.subject) e.message

theorem assemble_append (config : ModuleConfig) (scans : List (Except ScanError SourceScan))
    (scan : Except ScanError SourceScan) :
    assemble config (scans ++ [scan]) = fold (assemble config scans) scan := by
  simp [assemble]

/-- A scan that failed adds one report to the merge, and leaves all else as it is without it. -/
theorem assemble_costs (config : ModuleConfig) (scans : List (Except ScanError SourceScan)) :
    let all := assemble config scans
    let rest := assemble config (scans.filter Except.isOk)
    all.codebase = rest.codebase ∧ advice all.reports = rest.reports ∧
      failures all.reports = (scans.filterMap error?).map failureReport := by
  induction scans using List.reverseRecOn with
  | nil => exact ⟨rfl, rfl, rfl⟩
  | append_singleton scans scan ih =>
    obtain ⟨htable, hadvice, hfailures⟩ := ih
    rw [assemble_append, List.filter_append, List.filterMap_append, List.map_append]
    cases scan with
    | ok scan =>
      have hnone : ∀ r ∈ ((SourceScan.ofCodebase (assemble config scans).codebase).merge
          scan.codebase).reports, r.hasError = false :=
        fun r hr => (SourceScan.onlyWarnings_of_mem_merge _ _ r hr).hasError
      have hkept : [(.ok scan : Except ScanError SourceScan)].filter Except.isOk = [.ok scan] := rfl
      rw [hkept, assemble_append, fold, fold]
      refine ⟨?_, ?_, ?_⟩
      · rw [Codebase.merge_codebase, Codebase.merge_codebase, htable]
      · rw [SourceScan.reports_merge, advice_append, hadvice, advice_eq_self hnone, htable,
          ← SourceScan.reports_merge]
      · rw [SourceScan.reports_merge, failures_append, hfailures, failures_eq_nil hnone]
        rfl
    | error e =>
      have hdropped : [(.error e : Except ScanError SourceScan)].filter Except.isOk = [] := rfl
      rw [hdropped, List.append_nil, fold, SourceScan.report]
      refine ⟨htable, ?_, ?_⟩
      · rw [advice_append, hadvice]
        exact List.append_nil _
      · rw [failures_append, hfailures]
        rfl

/-- How the outcome of scanning files differs from that of scanning the others: by these reports,
one for each of the files that could not be scanned. -/
structure CostsOnly (failed : List Report) (all rest : Codebase × Sink) : Prop where
  codebase : all.1 = rest.1
  errors : all.2.errors = failed.length
  others_errors : rest.2.errors = 0
  warnings : all.2.warnings = rest.2.warnings
  failures : Report.failures all.2.reports = failed
  others : advice all.2.reports = rest.2.reports
  sorted_failures : all.2.sorted.filter Warning.isError = (sort failed).flatten
  sorted_others : (all.2.sorted.filter fun w => !w.isError) = rest.2.sorted

variable {diagnostics : SinkConfig} {reports : List Report} {errors : List ScanError}

/-- A report is of errors throughout, or has none. -/
theorem isError_eq (h : failures reports = errors.map failureReport) {r : Report}
    (hr : r ∈ reports) {w : Warning} (hw : w ∈ r) : w.isError = r.hasError := by
  cases herror : r.hasError with
  | false => simpa using List.any_eq_false.1 herror w hw
  | true =>
    have hmem : r ∈ failures reports := List.mem_filter.2 ⟨hr, herror⟩
    rw [h] at hmem
    obtain ⟨e, -, rfl⟩ := List.mem_map.1 hmem
    obtain rfl := List.mem_singleton.1 hw
    rfl

theorem sum_count_failureReport (errors : List ScanError) :
    ((errors.map failureReport).map (Sink.count .error)).sum = errors.length ∧
      ((errors.map failureReport).map (Sink.count .warning)).sum = 0 := by
  induction errors with
  | nil => exact ⟨rfl, rfl⟩
  | cons e errors ih =>
    obtain ⟨herrors, hwarnings⟩ := ih
    have hone : Sink.count .error (failureReport e) = 1 := rfl
    have hnone : Sink.count .warning (failureReport e) = 0 := rfl
    simp only [List.map_cons, List.sum_cons, herrors, hwarnings, hone, hnone, List.length_cons]
    exact ⟨Nat.add_comm 1 errors.length, trivial⟩

/-- What failures cost a sink that keeps everything and collects what is about files. -/
theorem emitAll_costs (hlimit : diagnostics.limit = 0)
    (hcollects : diagnostics.isEnabled (Categories.only .io) = true)
    (h : failures reports = errors.map failureReport) (c : Codebase) :
    CostsOnly (errors.map failureReport) (c, (Sink.empty diagnostics).emitAll reports)
      (c, (Sink.empty diagnostics).emitAll (advice reports)) := by
  have hfailures : failures (reports.filter diagnostics.accepts) = errors.map failureReport := by
    have hall : ∀ r ∈ failures reports, diagnostics.accepts r = true := by
      intro r hr
      rw [h] at hr
      obtain ⟨e, -, rfl⟩ := List.mem_map.1 hr
      exact hcollects
    rw [failures, List.filter_comm, ← failures, List.filter_eq_self.2 hall, h]
  have hadvice : (advice reports).filter diagnostics.accepts =
      advice (reports.filter diagnostics.accepts) := List.filter_comm ..
  obtain ⟨herrors, hwarnings⟩ := sum_count_failureReport errors
  rw [Sink.emitAll_eq _ hlimit, Sink.emitAll_eq _ hlimit]
  simp only [Sink.empty, List.nil_append, Nat.zero_add, hadvice]
  generalize reports.filter diagnostics.accepts = kept at hfailures
  have huniform : ∀ r ∈ sort kept, ∀ w ∈ r, w.isError = r.hasError := fun r hr w hw =>
    isError_eq hfailures (List.mem_mergeSort.1 hr) hw
  exact {
    codebase := rfl
    errors := by
      rw [sum_map_eq, hfailures, herrors, sum_count_error_advice, List.length_map, Nat.add_zero]
    others_errors := sum_count_error_advice kept
    warnings := by rw [sum_map_eq (Sink.count .warning), hfailures, hwarnings, Nat.zero_add]
    failures := hfailures
    others := rfl
    sorted_failures := by
      rw [Sink.sorted, filter_flatten huniform, filter_sort, ← hfailures]
      rfl
    sorted_others := by
      have hothers : ∀ r ∈ sort kept, ∀ w ∈ r, (!w.isError) = !r.hasError := fun r hr w hw =>
        congrArg not (huniform r hr w hw)
      rw [Sink.sorted, filter_flatten hothers, filter_sort]
      rfl }

/-- Of scans that report no errors themselves, those that failed cost an error each. -/
theorem merged_costs (config : ModuleConfig) (hlimit : diagnostics.limit = 0)
    (hcollects : diagnostics.isEnabled (Categories.only .io) = true)
    {scans : List (Except ScanError SourceScan)}
    (hscans : ∀ scan ∈ scans, ∀ r ∈ reportsOf scan, r.hasError = false) :
    CostsOnly ((scans.filterMap error?).map failureReport)
      (merged config ((Sink.empty diagnostics).emitAll (scans.flatMap reportsOf)) scans)
      (merged config
        ((Sink.empty diagnostics).emitAll ((scans.filter Except.isOk).flatMap reportsOf))
        (scans.filter Except.isOk)) := by
  obtain ⟨htable, hadvice, hfailures⟩ := assemble_costs config scans
  have hnone : ∀ r ∈ scans.flatMap reportsOf, r.hasError = false := by
    intro r hr
    obtain ⟨scan, hscan, hr⟩ := List.mem_flatMap.1 hr
    exact hscans scan hscan r hr
  have hkept : (scans.filter Except.isOk).flatMap reportsOf = scans.flatMap reportsOf := by
    clear htable hadvice hfailures hnone hscans
    induction scans with
    | nil => rfl
    | cons scan scans ih =>
      cases scan with
      | ok scan => rw [List.filter_cons_of_pos rfl, List.flatMap_cons, ih, List.flatMap_cons]
      | error e => exact ih
  simp only [merged, ← Sink.emitAll_append, hkept, ← htable]
  have hfailed : failures (scans.flatMap reportsOf ++ (assemble config scans).reports) =
      (scans.filterMap error?).map failureReport := by
    rw [failures_append, failures_eq_nil hnone, hfailures, List.nil_append]
  have hcosts := emitAll_costs hlimit hcollects hfailed (assemble config scans).codebase
  rwa [advice_append, advice_eq_self hnone, hadvice] at hcosts

end ProjectScan

theorem Bytes.text?_eq_some_iff {bytes : Bytes} {text : String} :
    bytes.text? = some text ↔ bytes = ofText text := by
  constructor
  · intro h
    simp only [text?, String.fromUTF8?] at h
    split at h
    · rw [← Option.some.inj h]
      rfl
    · cases h
  · rintro rfl
    exact text?_ofText text

namespace FileTree

variable (tree : FileTree) (config : ModuleConfig)

/-- Is there a text at the path? -/
def isReadable (path : SourcePath) : Bool :=
  (tree.read path).toOption.any fun bytes => bytes.text?.isSome

/-- Why there is no text at the path: what reading it says, or else that it is no text. -/
def readError (path : SourcePath) : IoError :=
  match tree.read path with
  | .error cause => cause
  | .ok _ => .notText

/-- What is reported of a path without a text. -/
def complaint (path : SourcePath) : Report :=
  Report.error (Categories.only .io) (some path.text)
    s!"cannot read {path.text}: {(tree.readError path).message}"

theorem isReadable_iff {path : SourcePath} :
    tree.isReadable path = true ↔ ∃ text, tree.read path = .ok (Bytes.ofText text) := by
  unfold isReadable
  constructor
  · intro h
    cases hread : tree.read path with
    | error e => simp [hread, Except.toOption] at h
    | ok bytes =>
      obtain ⟨text, htext⟩ : ∃ text, bytes.text? = some text := by
        simpa [hread, Except.toOption, Option.isSome_iff_exists] using h
      exact ⟨text, by rw [Bytes.text?_eq_some_iff.1 htext]⟩
  · rintro ⟨text, hread⟩
    rw [hread]
    exact congrArg Option.isSome (Bytes.text?_ofText text)

theorem scanOf_of_unreadable {path : SourcePath} (h : tree.isReadable path = false) :
    tree.scanOf config path = .error (.read path (tree.readError path)) := by
  unfold isReadable at h
  unfold scanOf textAt readError
  cases hread : tree.read path with
  | error e => rfl
  | ok bytes =>
    have htext : bytes.text? = none := by simpa [hread, Except.toOption] using h
    simp only [Except.bind, htext]
    rfl

/-- A file that is scanned gives rise to nothing but warnings. -/
theorem onlyWarnings_of_mem_scanOf {path : SourcePath} {r : Report}
    (hr : r ∈ reportsOf (tree.scanOf config path)) : r.OnlyWarnings := by
  cases h : tree.isReadable path with
  | false =>
    rw [scanOf_of_unreadable tree config h] at hr
    exact absurd hr List.not_mem_nil
  | true =>
    obtain ⟨text, hread⟩ := tree.isReadable_iff.1 h
    rw [scanOf_of_read tree config hread] at hr
    exact SourceScan.onlyWarnings_of_mem_readText _ _ text r hr

end FileTree

/-- A scan without reports of errors. -/
def SourceScan.ErrorFree (scan : SourceScan) : Prop := ∀ r ∈ scan.reports, r.hasError = false

/-- All scans that can be read from the entries of keys are without errors. -/
def CacheView.ErrorFree {κ ε : Type} (view : CacheView κ ε) (form : StoredForm SourceScan)
    (w : CacheWorld κ) : Prop :=
  ∀ key bytes scan, view.HoldsFor w key bytes → form.read? bytes = some scan → scan.ErrorFree

namespace ScanCall

variable {κ ε : Type} {form : StoredForm SourceScan} {view : CacheView κ ε} {call : ScanCall}
  {w : CacheWorld κ} {outcome : Except ScanError SourceScan × CacheWorld κ}

theorem finds_of_unreadable {files : FileTree} (h : files.isReadable call.path = false) :
    call.finds files = .error (.read call.path (files.readError call.path)) :=
  files.scanOf_of_unreadable call.config h

theorem errorFree_scanText (config : ModuleConfig) (path : SourcePath) (text : String) :
    (scanText config path text).ErrorFree := fun r hr =>
  (SourceScan.onlyWarnings_of_mem_readText _ _ text r hr).hasError

theorem exists_finds_of_readable {files : FileTree} (h : files.isReadable call.path = true) :
    ∃ scan, call.finds files = .ok scan ∧ scan.ErrorFree := by
  obtain ⟨text, hread⟩ := files.isReadable_iff.1 h
  exact ⟨_, files.scanOf_of_read call.config hread, errorFree_scanText call.config call.path text⟩

theorem errorFree_captured {diagnostics : SinkConfig} {scan : SourceScan} (h : scan.ErrorFree) :
    (captured diagnostics scan).ErrorFree := fun r hr => h r (Sink.mem_of_mem_empty hr).1

/-- A file without a text gives an error when it is scanned, and nothing changes. -/
theorem Computes.of_unreadable (hcomputes : call.Computes view form w outcome)
    (h : w.files.isReadable call.path = false) :
    outcome = (.error (.read call.path (w.files.readError call.path)), w) := by
  have hfinds := finds_of_unreadable h
  refine Prod.ext ?_ (hcomputes.failed _ hfinds)
  rcases hcomputes.result with hresult | hresult
  · rw [hresult, hfinds]
  · rw [hresult, hfinds]
    rfl

/-- A file with a text gives a scan without errors, and leaves none with errors behind. -/
theorem Computes.of_readable (hcomputes : call.Computes view form w outcome)
    (h : w.files.isReadable call.path = true) (hview : view.ErrorFree form w) :
    view.ErrorFree form outcome.2 ∧ ∃ scan, outcome.1 = .ok scan ∧ scan.ErrorFree := by
  obtain ⟨scan, hfinds, hfree⟩ := exists_finds_of_readable h
  refine ⟨?_, ?_⟩
  · intro key bytes kept hholds hread
    rw [CacheView.HoldsFor, hcomputes.entry] at hholds
    rcases hcomputes.holds _ bytes hholds with hbefore | ⟨-, scan', hfinds', hstored⟩
    · exact hview key bytes kept hbefore hread
    · obtain rfl := Except.ok.inj (hfinds.symm.trans hfinds')
      obtain rfl := Option.some.inj (hread.symm.trans hstored)
      exact errorFree_captured hfree
  · rcases hcomputes.result with hresult | hresult
    · exact ⟨scan, hresult.trans hfinds, hfree⟩
    · rw [hfinds] at hresult
      exact ⟨_, hresult, errorFree_captured hfree⟩

end ScanCall

/-- How files are scanned: by which configuration, what is reported, and by way of which cache, if
there is one. -/
structure ScanSetup (κ : Type) where
  config : ModuleConfig
  diagnostics : SinkConfig
  form : StoredForm SourceScan
  cache : Option (ScanCache (StateT κ (StateM FileTree)))

namespace ScanSetup

variable {κ ε : Type} (s : ScanSetup κ)

def call (path : SourcePath) : ScanCall := ⟨s.config, s.diagnostics, path⟩

def scan (path : SourcePath) : StateT κ (StateM FileTree) (Except ScanError SourceScan) :=
  (s.call path).scan s.form s.cache

/-- Scans files with an empty sink. -/
def run (w : CacheWorld κ) (paths : List SourcePath) : (Codebase × Sink) × CacheWorld κ :=
  w.run (scanFiles s.config (Sink.empty s.diagnostics) s.form s.cache paths)

/-- The scan that is handed out for a file, if one is. -/
def handed? (w : CacheWorld κ) (path : SourcePath) : Option SourceScan :=
  s.cache.bind fun cache => (s.call path).handed? s.form cache w

/-- Does a file cost an error? It does if it has no text and nothing is handed out for it. -/
def loses (w : CacheWorld κ) (path : SourcePath) : Bool :=
  !w.files.isReadable path && (s.handed? w path).isNone

/-- Each of the files with where its scan starts from. -/
def turns (w : CacheWorld κ) : List SourcePath → List (SourcePath × CacheWorld κ)
  | [] => []
  | path :: paths => (path, w) :: turns (w.run (s.scan path)).2 paths

/-- The files that cost an error when their turn comes. -/
def lost (w : CacheWorld κ) (paths : List SourcePath) : List (SourcePath × CacheWorld κ) :=
  (s.turns w paths).filter fun (path, w) => s.loses w path

/-- The other files. -/
def found (w : CacheWorld κ) (paths : List SourcePath) : List SourcePath :=
  ((s.turns w paths).filter fun (path, w) => !s.loses w path).map Prod.fst

/-- What is reported of the files that cost an error. -/
def complaints (w : CacheWorld κ) (paths : List SourcePath) : List Report :=
  (s.lost w paths).map fun (path, w) => w.files.complaint path

/-- The cache, if there is one, is faithful, as is the form of what it keeps, and no scan that can
be read from it has reports of errors. -/
structure Clean (view : CacheView κ ε) (w : CacheWorld κ) : Prop where
  form : s.cache.isSome = true → s.form.IsFaithful
  faithful (cache : ScanCache (StateT κ (StateM FileTree))) :
    s.cache = some cache → cache.Faithful view
  errorFree : s.cache.isSome = true → view.ErrorFree s.form w

variable {s} {view : CacheView κ ε} {w : CacheWorld κ}

theorem clean_of_cache_none (hcache : s.cache = none) : s.Clean view w :=
  ⟨by simp [hcache], by simp [hcache], by simp [hcache]⟩

/-- A file that changes nothing leaves the others where they are. -/
theorem turns_cons {path : SourcePath} {result : Except ScanError SourceScan}
    (h : w.run (s.scan path) = (result, w)) (paths : List SourcePath) :
    s.turns w (path :: paths) = (path, w) :: s.turns w paths := by
  rw [turns, h]

theorem turns_of_cache_none (hcache : s.cache = none) (w : CacheWorld κ) (paths : List SourcePath) :
    s.turns w paths = paths.map (·, w) := by
  induction paths with
  | nil => rfl
  | cons path paths ih =>
    have hrun : w.run (s.scan path) = ((s.call path).finds w.files, w) := by
      rw [scan, hcache, ScanCall.run_scan_none]
    rw [turns_cons hrun, ih, List.map_cons]

/-- Without a cache, the files that cost an error are those without a text. -/
theorem lost_of_cache_none (hcache : s.cache = none) (w : CacheWorld κ)
    (paths : List SourcePath) :
    s.lost w paths = (paths.filter fun path => !w.files.isReadable path).map (·, w) ∧
      s.found w paths = paths.filter w.files.isReadable := by
  have hloses (path : SourcePath) : s.loses w path = !w.files.isReadable path := by
    simp [loses, handed?, hcache]
  rw [lost, found, turns_of_cache_none hcache, List.filter_map, List.filter_map, List.map_map]
  refine ⟨congrArg (List.map (·, w)) (List.filter_congr fun path _ => hloses path), ?_⟩
  have hkept : ((fun entry : SourcePath × CacheWorld κ => !s.loses entry.2 entry.1) ∘ (·, w)) =
      w.files.isReadable := funext fun path => by simp [hloses]
  rw [hkept]
  exact List.map_id _

theorem handed?_of_cache {cache : ScanCache (StateT κ (StateM FileTree))}
    (hcache : s.cache = some cache) (w : CacheWorld κ) (path : SourcePath) :
    s.handed? w path = (s.call path).handed? s.form cache w := by
  rw [handed?, hcache, Option.bind_some]

/-- A file that is handed out is not looked at. -/
theorem run_scan_of_handed (hclean : s.Clean view w) {path : SourcePath} {scan : SourceScan}
    (h : s.handed? w path = some scan) :
    w.run (s.scan path) = (.ok scan, w) ∧ scan.ErrorFree := by
  obtain ⟨cache, hcache, hhanded⟩ := Option.bind_eq_some_iff.1 h
  have hfaithful := hclean.faithful cache hcache
  obtain ⟨bytes, hbytes, hread⟩ := ScanCall.holdsFor_of_handed? hfaithful hhanded
  refine ⟨?_, hclean.errorFree (Option.isSome_of_eq_some hcache) _ bytes scan hbytes hread⟩
  rw [ScanSetup.scan, hcache]
  exact ScanCall.run_scan_handed hfaithful hhanded

/-- A file that costs an error changes nothing. -/
theorem run_scan_of_loses (hclean : s.Clean view w) {path : SourcePath}
    (h : s.loses w path = true) :
    w.run (s.scan path) = (.error (.read path (w.files.readError path)), w) := by
  obtain ⟨hreadable, hnone⟩ := Bool.and_eq_true_iff.1 h
  have hunreadable : w.files.isReadable path = false := by simpa using hreadable
  rw [Option.isNone_iff_eq_none] at hnone
  rw [scan]
  cases hcache : s.cache with
  | none =>
    rw [ScanCall.run_scan_none]
    exact Prod.ext (ScanCall.finds_of_unreadable hunreadable) rfl
  | some cache =>
    rw [handed?_of_cache hcache] at hnone
    have hform := hclean.form (Option.isSome_of_eq_some hcache)
    have hcomputes := ScanCall.computes hform (hclean.faithful cache hcache) hnone
    exact hcomputes.of_unreadable hunreadable

/-- A file with a text that is not handed out is scanned. -/
theorem run_scan_of_readable (hclean : s.Clean view w) {path : SourcePath}
    (hreadable : w.files.isReadable path = true) (hnone : s.handed? w path = none) :
    s.Clean view (w.run (s.scan path)).2 ∧
      ∃ scan, (w.run (s.scan path)).1 = .ok scan ∧ scan.ErrorFree := by
  rw [scan]
  cases hcache : s.cache with
  | none =>
    rw [ScanCall.run_scan_none]
    exact ⟨hclean, ScanCall.exists_finds_of_readable hreadable⟩
  | some cache =>
    rw [handed?_of_cache hcache] at hnone
    have hsome : s.cache.isSome = true := Option.isSome_of_eq_some hcache
    have hcomputes := ScanCall.computes (hclean.form hsome) (hclean.faithful cache hcache) hnone
    obtain ⟨hview, hscanned⟩ := hcomputes.of_readable hreadable (hclean.errorFree hsome)
    exact ⟨⟨hclean.form, hclean.faithful, fun _ => hview⟩, hscanned⟩

/-- One file: it costs an error, and nothing else happens, or there is a scan without errors. -/
theorem scan_turn (hclean : s.Clean view w) (path : SourcePath) :
    s.Clean view (w.run (s.scan path)).2 ∧
      ((s.loses w path = true ∧
          w.run (s.scan path) = (.error (.read path (w.files.readError path)), w)) ∨
        s.loses w path = false ∧ ∃ scan, (w.run (s.scan path)).1 = .ok scan ∧ scan.ErrorFree) := by
  cases hloses : s.loses w path with
  | true =>
    have hrun := run_scan_of_loses hclean hloses
    rw [hrun]
    exact ⟨hclean, Or.inl ⟨rfl, rfl⟩⟩
  | false =>
    cases hhanded : s.handed? w path with
    | some scan =>
      obtain ⟨hrun, hfree⟩ := run_scan_of_handed hclean hhanded
      rw [hrun]
      exact ⟨hclean, Or.inr ⟨rfl, scan, rfl, hfree⟩⟩
    | none =>
      have hreadable : w.files.isReadable path = true := by simpa [loses, hhanded] using hloses
      obtain ⟨hnext, hscanned⟩ := run_scan_of_readable hclean hreadable hhanded
      exact ⟨hnext, Or.inr ⟨rfl, hscanned⟩⟩

/-- Files one after the other: those that cost an error give an error each, and the scans of the
others are what they are without them. -/
theorem scan_turns (hclean : s.Clean view w) (paths : List SourcePath) :
    let scans := w.run (paths.mapM s.scan)
    w.run ((s.found w paths).mapM s.scan) = (scans.1.filter Except.isOk, scans.2) ∧
      (scans.1.filterMap error?).map failureReport = s.complaints w paths ∧
      (∀ scan ∈ scans.1, ∀ r ∈ reportsOf scan, r.hasError = false) ∧ s.Clean view scans.2 := by
  induction paths generalizing w with
  | nil => exact ⟨rfl, rfl, by simp, hclean⟩
  | cons path paths ih =>
    obtain ⟨hnext, hturn⟩ := scan_turn hclean path
    obtain ⟨hfound, hfailed, hreports, hlast⟩ := ih hnext
    simp only [List.mapM_cons, CacheWorld.run_bind, CacheWorld.run_pure]
    simp only [found, complaints, lost, turns] at hfound hfailed ⊢
    rcases hturn with ⟨hloses, hrun⟩ | ⟨hloses, scan, hscan, hnone⟩
    · simp only [hrun] at hfound hfailed hreports hlast ⊢
      refine ⟨?_, ?_, ?_, hlast⟩
      · simp only [List.filter_cons, hloses]
        exact hfound
      · simp only [List.filter_cons, hloses, List.filterMap_cons]
        exact congrArg _ hfailed
      · intro scan' hscan'
        rcases List.mem_cons.1 hscan' with rfl | hscan'
        · simp [reportsOf]
        · exact hreports scan' hscan'
    · refine ⟨?_, ?_, ?_, hlast⟩
      · simp only [List.filter_cons, hloses, Bool.not_false, if_true, List.map_cons, List.mapM_cons,
          CacheWorld.run_bind, CacheWorld.run_pure, hfound, hscan]
        rfl
      · simp only [List.filter_cons, hloses, hscan]
        exact hfailed
      · intro scan' hscan'
        rcases List.mem_cons.1 hscan' with rfl | hscan'
        · rw [hscan]
          exact hnone
        · exact hreports scan' hscan'

/-- Scanning files is scanning them one after the other and merging what was found. -/
theorem run_eq (s : ScanSetup κ) (w : CacheWorld κ) (paths : List SourcePath) :
    s.run w paths =
      let scans := w.run (paths.mapM s.scan)
      (merged s.config ((Sink.empty s.diagnostics).emitAll (scans.1.flatMap reportsOf)) scans.1,
        scans.2) := rfl

/-- Files that cost an error cost nothing but that. -/
theorem run_costs (hlimit : s.diagnostics.limit = 0)
    (hcollects : s.diagnostics.isEnabled (Categories.only .io) = true)
    (hclean : s.Clean view w) (paths : List SourcePath) :
    CostsOnly (s.complaints w paths) (s.run w paths).1 (s.run w (s.found w paths)).1 ∧
      (s.run w (s.found w paths)).2 = (s.run w paths).2 ∧ s.Clean view (s.run w paths).2 := by
  obtain ⟨hfound, hfailed, hreports, hlast⟩ := scan_turns hclean paths
  simp only [run_eq, hfound, ← hfailed]
  exact ⟨merged_costs s.config hlimit hcollects hreports, trivial, hlast⟩

end ScanSetup

namespace CacheWorld

variable {κ α β : Type} {w : CacheWorld κ}

/-- What comes of a program that may fail, and where it ends. -/
def attempt (w : CacheWorld κ) (program : ExceptT ScanError (StateT κ (StateM FileTree)) α) :
    Except ScanError α × CacheWorld κ :=
  w.run program.run

theorem attempt_bind (program : ExceptT ScanError (StateT κ (StateM FileTree)) α)
    (next : α → ExceptT ScanError (StateT κ (StateM FileTree)) β) :
    w.attempt (program >>= next) =
      match w.attempt program with
      | (.ok value, between) => between.attempt (next value)
      | (.error e, between) => (.error e, between) := by
  unfold attempt
  rw [ExceptT.run_bind, run_bind]
  rcases w.run program.run with ⟨outcome, between⟩
  cases outcome <;> rfl

theorem attempt_bind_eq_ok {program : ExceptT ScanError (StateT κ (StateM FileTree)) α}
    {next : α → ExceptT ScanError (StateT κ (StateM FileTree)) β} {result : β}
    {last : CacheWorld κ} :
    w.attempt (program >>= next) = (.ok result, last) ↔
      ∃ value between, w.attempt program = (.ok value, between) ∧
        between.attempt (next value) = (.ok result, last) := by
  rw [attempt_bind]
  rcases w.attempt program with ⟨outcome, between⟩
  cases outcome with
  | ok value => simp
  | error e => simp

theorem attempt_liftM (program : StateT κ (StateM FileTree) α) :
    w.attempt (liftM program) = (.ok (w.run program).1, (w.run program).2) := rfl

/-- Nothing is changed, whatever comes of the program. -/
def Keeps (program : ExceptT ScanError (StateT κ (StateM FileTree)) α) : Prop :=
  ∀ w : CacheWorld κ, (w.attempt program).2 = w

theorem Keeps.pure (value : α) :
    Keeps (Pure.pure value : ExceptT ScanError (StateT κ (StateM FileTree)) α) := fun _ => rfl

theorem Keeps.throw (e : ScanError) :
    Keeps (throw e : ExceptT ScanError (StateT κ (StateM FileTree)) α) := fun _ => rfl

theorem Keeps.bind {program : ExceptT ScanError (StateT κ (StateM FileTree)) α}
    {next : α → ExceptT ScanError (StateT κ (StateM FileTree)) β} (h : Keeps program)
    (hnext : ∀ value, Keeps (next value)) : Keeps (program >>= next) := by
  intro w
  have hbetween := h w
  rw [attempt_bind]
  rcases hrun : w.attempt program with ⟨outcome, between⟩
  rw [hrun] at hbetween
  cases outcome with
  | ok value => exact (hnext value between).trans hbetween
  | error e => exact hbetween

theorem Keeps.mapM {step : α → ExceptT ScanError (StateT κ (StateM FileTree)) β}
    (h : ∀ value, Keeps (step value)) (values : List α) : Keeps (values.mapM step) := by
  induction values with
  | nil => exact .pure []
  | cons value values ih =>
    rw [List.mapM_cons]
    exact (h value).bind fun _ => ih.bind fun _ => .pure _

theorem keeps_entries (path directory : SourcePath) :
    Keeps (reading path (FileAccess.entries directory) :
      ExceptT ScanError (StateT κ (StateM FileTree)) (List DirectoryEntry)) := fun _ => rfl

theorem keeps_sourcesBelow (depth : Nat) (directory : SourcePath) :
    Keeps (sourcesBelow depth directory :
      ExceptT ScanError (StateT κ (StateM FileTree)) (List SourcePath)) := by
  induction depth generalizing directory with
  | zero => exact .throw _
  | succ depth ih =>
    refine (keeps_entries _ _).bind fun entries => ?_
    refine (Keeps.mapM ?_ entries).bind fun _ => .pure _
    intro entry
    by_cases hdirectory : entry.isDirectory = true
    · simpa only [hdirectory, if_true] using ih _
    · simpa only [hdirectory, if_false] using .pure _

theorem keeps_discover (config : ModuleConfig) :
    Keeps (discover config :
      ExceptT ScanError (StateT κ (StateM FileTree)) (List SourcePath)) :=
  (keeps_sourcesBelow _ _).bind fun _ => .pure _

theorem keeps_moduleConfig (o : CheckOptions) :
    Keeps (o.moduleConfig : ExceptT ScanError (StateT κ (StateM FileTree)) ModuleConfig) := by
  have hmodules (source : SourcePath) : Keeps (CheckOptions.defaultModules source :
      ExceptT ScanError (StateT κ (StateM FileTree)) (List Module)) :=
    (keeps_entries _ _).bind fun _ => .pure _
  unfold CheckOptions.moduleConfig
  simp only
  split
  · exact (hmodules _).bind fun _ => .pure _
  · exact .pure _

/-- The root of a project is the one that is asked for. -/
theorem root_of_moduleConfig {o : CheckOptions} {config : ModuleConfig} {last : CacheWorld κ}
    (h : w.attempt o.moduleConfig = (.ok config, last)) : config.root = o.root := by
  unfold CheckOptions.moduleConfig at h
  simp only at h
  split at h
  · obtain ⟨modules, between, -, h⟩ := attempt_bind_eq_ok.1 h
    obtain ⟨hconfig, -⟩ := Prod.mk.inj h
    exact (congrArg ModuleConfig.root (Except.ok.inj hconfig)).symm
  · obtain ⟨modules, between, -, h⟩ := attempt_bind_eq_ok.1 h
    obtain ⟨hconfig, -⟩ := Prod.mk.inj h
    exact (congrArg ModuleConfig.root (Except.ok.inj hconfig)).symm

end CacheWorld

namespace DiskCache

variable {κ : Type} (c : DiskCache)

theorem run_clear_world (w : CacheWorld κ) :
    w.run c.clear =
      (((c.clear : StateM FileTree (Except ScanError Unit)).run w.files).1,
        ⟨w.kept, ((c.clear : StateM FileTree (Except ScanError Unit)).run w.files).2⟩) := by
  have hlift : (c.clear : StateT κ (StateM FileTree) (Except ScanError Unit)) =
      StateT.lift c.clear := by
    unfold clear
    rw [FileAccess.lift_bind]
    refine bind_congr fun removed => ?_
    rcases removed with e | value
    · cases e <;> rfl
    · rfl
  rw [hlift, CacheWorld.run_lift]

/-- What is left when a cache was cleared was there before. -/
theorem holdsFor_of_clear {w : CacheWorld κ} {key : String} {bytes : Bytes}
    (h : c.view.HoldsFor (w.run c.clear).2 key bytes) : c.view.HoldsFor w key bytes := by
  have hloses := loses_clear c w.files
  simp only [CacheView.HoldsFor, entry_view, holds_view, run_clear_world] at h ⊢
  rw [FileTree.placeOf_congr hloses.workingDirectory] at h
  obtain ⟨time, hfile⟩ := h
  rcases hloses.files (w.files.placeOf (c.entryPath key)) with hsame | hnone
  · exact ⟨time, hsame.symm.trans hfile⟩
  · exact absurd (hnone.symm.trans hfile) (Option.some_ne_none _).symm

/-- If no file of a tree reads as a scan with errors, then no entry does. -/
theorem errorFree_of_contents {form : StoredForm SourceScan} {w : CacheWorld κ}
    (h : ∀ bytes ∈ w.files.root.contents, ∀ scan, form.read? bytes = some scan →
      scan.ErrorFree) : c.view.ErrorFree form w := by
  intro key bytes scan hholds hread
  rw [CacheView.HoldsFor, holds_view] at hholds
  obtain ⟨time, hfile⟩ := hholds
  exact h bytes (FileTree.Node.mem_contents_of_file? hfile) scan hread

/-- If the files of a tree read as no scan but one without errors, then no entry has errors. -/
theorem errorFree_of_only {form : StoredForm SourceScan} {w : CacheWorld κ} {kept : SourceScan}
    (hkept : kept.ErrorFree)
    (h : ∀ bytes ∈ w.files.root.contents, form.read? bytes = none ∨ form.read? bytes = some kept) :
    c.view.ErrorFree form w := by
  refine errorFree_of_contents c fun bytes hbytes scan hscan => ?_
  rcases h bytes hbytes with hnone | hsome
  · exact absurd (hnone.symm.trans hscan) (Option.some_ne_none _).symm
  · obtain rfl := Option.some.inj (hsome.symm.trans hscan)
    exact hkept

theorem handed?_eq (form : StoredForm SourceScan) {call : ScanCall} {w : CacheWorld κ}
    {changed : Timestamp} (hmodified : w.files.modified call.path = .ok changed) :
    call.handed? form c.cache w = ((c.lookup call.key changed :
      StateM FileTree (Option Bytes)).run w.files).1.bind form.read? := by
  rw [ScanCall.handed?, hmodified, Except.toOption, Option.bind_some, run_cache_lookup]

/-- A call is handed out the scan that the file of its entry reads as, if that is found fresh. -/
theorem handed?_of_entry {form : StoredForm SourceScan} {call : ScanCall} {w : CacheWorld κ}
    {changed stored : Timestamp} {bytes : Bytes} {scan : SourceScan}
    (hmodified : w.files.modified call.path = .ok changed)
    (hfound : ((c.lookup call.key changed :
      StateM FileTree (Option Bytes)).run w.files).1.isSome = true)
    (hentry : w.files.fileAt? (w.files.placeOf (c.entryPath call.key)) = some (bytes, stored))
    (hread : form.read? bytes = some scan) : call.handed? form c.cache w = some scan := by
  rw [c.handed?_eq form hmodified, lookup_of_isSome hfound hentry]
  exact hread

end DiskCache

namespace CheckOptions

variable {κ : Type}

/-- The cache of the project that is asked for. -/
def disk (o : CheckOptions) : DiskCache := DiskCache.ofRoot o.root

/-- How the check scans the files of the project. -/
def setup (o : CheckOptions) (form : StoredForm SourceScan) (config : ModuleConfig) :
    ScanSetup κ :=
  ⟨config, o.diagnostics, form, if o.cache then some o.disk.cache else none⟩

/-- Where the check starts to scan: the cache was cleared, if that is asked for. -/
def cleared (o : CheckOptions) (w : CacheWorld κ) : CacheWorld κ :=
  if o.clearCache then (w.run o.disk.clear).2 else w

/-- A check that comes to an end lists the files, scans them, and changes nothing else. -/
theorem attempt_run_eq_ok {o : CheckOptions} {form : StoredForm SourceScan} {report : CheckReport}
    {w last : CacheWorld κ} (h : w.attempt (o.run form) = (.ok report, last)) :
    ∃ config files, (w.attempt o.moduleConfig).1 = .ok config ∧
      ((o.cleared w).attempt (discover config)).1 = .ok files ∧
      let outcome := (o.setup form config).run (o.cleared w) files
      report = ⟨files.length, outcome.1.1, outcome.1.2.sorted, outcome.1.2.errors⟩ ∧
        last = outcome.2 := by
  unfold CheckOptions.run at h
  obtain ⟨config, between, hconfig, hrest⟩ := CacheWorld.attempt_bind_eq_ok.1 h
  have hroot : DiskCache.ofRoot config.root = o.disk :=
    congrArg DiskCache.ofRoot (CacheWorld.root_of_moduleConfig hconfig)
  obtain rfl : between = w := by
    have hkeeps := CacheWorld.keeps_moduleConfig o w
    rwa [hconfig] at hkeeps
  refine ⟨config, ?_⟩
  rw [hconfig]
  simp only [hroot] at hrest
  have hstart : (o.cleared between).attempt (do
      let files ← discover config
      let outcome ← (scanFiles config (Sink.empty o.diagnostics) form
        (if o.cache then some o.disk.cache else none) files : StateT κ (StateM FileTree) _)
      return (⟨files.length, outcome.1, outcome.2.sorted, outcome.2.errors⟩ : CheckReport)) =
        (.ok report, last) := by
    unfold cleared
    split at hrest
    · rename_i hclear
      obtain ⟨_, start, hcleared, hrest⟩ := CacheWorld.attempt_bind_eq_ok.1 hrest
      obtain rfl : (between.run o.disk.clear).2 = start := congrArg Prod.snd hcleared
      rwa [if_pos hclear]
    · rename_i hclear
      rwa [if_neg hclear]
  obtain ⟨files, listed, hfiles, hscan⟩ := CacheWorld.attempt_bind_eq_ok.1 hstart
  obtain rfl : listed = o.cleared between := by
    have hkeeps := CacheWorld.keeps_discover config (o.cleared between)
    rwa [hfiles] at hkeeps
  obtain ⟨outcome, after, houtcome, hreport⟩ := CacheWorld.attempt_bind_eq_ok.1 hscan
  rw [CacheWorld.attempt_liftM] at houtcome
  obtain ⟨hscanned, rfl⟩ := Prod.mk.inj houtcome
  obtain rfl := Except.ok.inj hscanned
  obtain ⟨hchecked, rfl⟩ := Prod.mk.inj hreport
  exact ⟨files, rfl, by rw [hfiles], (Except.ok.inj hchecked).symm, rfl⟩

/-- A check whose project is known and whose files are listed comes to an end. -/
theorem attempt_run_of_ok {o : CheckOptions} (form : StoredForm SourceScan) {w : CacheWorld κ}
    {config : ModuleConfig} {files : List SourcePath} (hclear : o.clearCache = false)
    (hconfig : (w.attempt o.moduleConfig).1 = .ok config)
    (hfiles : (w.attempt (discover config)).1 = .ok files) :
    ∃ report last, w.attempt (o.run form) = (.ok report, last) := by
  have hconfig : w.attempt o.moduleConfig = (.ok config, w) :=
    Prod.ext hconfig (CacheWorld.keeps_moduleConfig o w)
  have hfiles : w.attempt (discover config) = (.ok files, w) :=
    Prod.ext hfiles (CacheWorld.keeps_discover config w)
  unfold CheckOptions.run
  rw [CacheWorld.attempt_bind, hconfig]
  simp only [hclear, Bool.false_eq_true, if_false]
  rw [CacheWorld.attempt_bind, hfiles]
  simp only [CacheWorld.attempt_bind, CacheWorld.attempt_liftM]
  exact ⟨_, _, rfl⟩

/-- Entries that are left where the check starts to scan were there before. -/
theorem errorFree_cleared {o : CheckOptions} {form : StoredForm SourceScan} {w : CacheWorld κ}
    (h : o.disk.view.ErrorFree form w) : o.disk.view.ErrorFree form (o.cleared w) := by
  unfold cleared
  split
  · exact fun key bytes scan hholds => h key bytes scan (o.disk.holdsFor_of_clear hholds)
  · exact h

theorem setup_cache (o : CheckOptions) (form : StoredForm SourceScan) (config : ModuleConfig) :
    (o.setup form config : ScanSetup κ).cache = if o.cache then some o.disk.cache else none := rfl

/-- The cache on disk may be used if what is in it reads as scans without errors. -/
theorem clean_setup {o : CheckOptions} {form : StoredForm SourceScan} {w : CacheWorld κ}
    (h : o.cache = true → form.IsFaithful ∧ o.disk.view.ErrorFree form w) (config : ModuleConfig) :
    (o.setup form config).Clean o.disk.view w := by
  by_cases hcache : o.cache = true
  · obtain ⟨hform, hview⟩ := h hcache
    refine ⟨fun _ => hform, fun cache hsome => ?_, fun _ => hview⟩
    rw [setup_cache, if_pos hcache] at hsome
    obtain rfl := Option.some.inj hsome
    exact o.disk.faithful_cache
  · exact ScanSetup.clean_of_cache_none (by rw [setup_cache, if_neg hcache])

/-- Files that cost an error cost nothing but that, with either of the diagnostics that may be asked
for and by way of any cache that holds no scans with errors; none are put there. Without a cache
they are the files that cannot be read. The errors of a check are the files that cost one, and it
fails if there is one. -/
theorem unreadable_costs_itself :
    (∀ {κ ε : Type} (s : ScanSetup κ) (view : CacheView κ ε) (w : CacheWorld κ)
      (paths : List SourcePath),
      s.diagnostics = .everything ∨ s.diagnostics = .checker → s.Clean view w →
        CostsOnly (s.complaints w paths) (s.run w paths).1 (s.run w (s.found w paths)).1 ∧
          (s.run w (s.found w paths)).2 = (s.run w paths).2 ∧ s.Clean view (s.run w paths).2) ∧
    (∀ {κ : Type} (s : ScanSetup κ) (w : CacheWorld κ) (paths : List SourcePath),
      s.cache = none →
        s.lost w paths = (paths.filter fun path => !w.files.isReadable path).map (·, w) ∧
          s.found w paths = paths.filter w.files.isReadable) ∧
    ∀ {κ : Type} (o : CheckOptions) (form : StoredForm SourceScan) (report : CheckReport)
      (w last : CacheWorld κ),
      (o.cache = true → form.IsFaithful ∧ o.disk.view.ErrorFree form w) →
      w.attempt (o.run form) = (.ok report, last) →
        ∃ config files, (w.attempt o.moduleConfig).1 = .ok config ∧
          ((o.cleared w).attempt (discover config)).1 = .ok files ∧
          let s : ScanSetup κ := o.setup form config
          let start := o.cleared w
          CostsOnly (s.complaints start files) (s.run start files).1
              (s.run start (s.found start files)).1 ∧
            report.codebase = (s.run start files).1.1 ∧
            report.warnings = (s.run start files).1.2.sorted ∧
            report.errors = (s.lost start files).length ∧
            (∀ verbose, (Command.checkOutcome verbose (.ok report)).status.code =
              if s.lost start files = [] then 0 else 1) ∧
            (o.cache = true → o.disk.view.ErrorFree form last) := by
  have hcosts {κ ε : Type} (s : ScanSetup κ) (view : CacheView κ ε) (w : CacheWorld κ)
      (paths : List SourcePath) (h : s.diagnostics = .everything ∨ s.diagnostics = .checker)
      (hclean : s.Clean view w) := by
    refine ScanSetup.run_costs (s := s) ?_ ?_ hclean paths
    · rcases h with h | h <;> rw [h] <;> rfl
    · rcases h with h | h <;> rw [h] <;> rfl
  refine ⟨hcosts, fun s w paths hcache => ScanSetup.lost_of_cache_none hcache w paths, ?_⟩
  intro κ o form report w last hcache hrun
  obtain ⟨config, files, hconfig, hfiles, rfl, rfl⟩ := attempt_run_eq_ok hrun
  have hdiagnostics : o.diagnostics = .everything ∨ o.diagnostics = .checker := by
    unfold diagnostics
    split
    · exact Or.inl rfl
    · exact Or.inr rfl
  have hclean : (o.setup form config).Clean o.disk.view (o.cleared w) := clean_setup
    (fun hused => ⟨(hcache hused).1, errorFree_cleared (hcache hused).2⟩) config
  obtain ⟨hcostsOnly, -, hlast⟩ := hcosts _ _ _ files hdiagnostics hclean
  have herrors := hcostsOnly.errors
  rw [ScanSetup.complaints, List.length_map] at herrors
  refine ⟨config, files, hconfig, hfiles, hcostsOnly, rfl, rfl, herrors, fun verbose => ?_, ?_⟩
  · simp only [Command.checkOutcome, CheckReport.isClean, beq_iff_eq, herrors,
      List.length_eq_zero_iff]
    split <;> rfl
  · intro hused
    exact hlast.errorFree (by simp [setup_cache, hused])

/-- Of four files, one is missing, one is a directory and one is no text, but was when it was
scanned for the cache. Without the cache they cost an error each, and with it the last one does
not. -/
theorem three_of_four_unreadable :
    let config := { ModuleConfig.standard ⟨"p"⟩ with
      modules := [.named "m"], extraFiles := [⟨"gone.c"⟩, ⟨"src"⟩, ⟨"b.c"⟩] }
    let scanned := captured .checker (scanText config ⟨"p/b.c"⟩ "int g(void);")
    let form := SourceScan.codec.storedForm
    let w : CacheWorld Unit := ⟨(), .directory [("p", .directory [("b.c", .file [255] ⟨0⟩),
      ("src", .directory [("a.c", .file (Bytes.ofText "int f(void);") ⟨0⟩)]),
      ("build", .directory [(".parsecache", .directory
        [("b.c.scan", .file (SourceScan.codec.encode scanned) ⟨0⟩)])])])], [], ⟨0⟩⟩
    let o := { standard ⟨"p"⟩ with
      modules := [.named "m"], extraFiles := [⟨"gone.c"⟩, ⟨"src"⟩, ⟨"b.c"⟩] }
    let cached := { o with cache := true }
    let plain : ScanSetup Unit := o.setup form config
    let s : ScanSetup Unit := cached.setup form config
    let unreadable : List SourcePath := [⟨"p/gone.c"⟩, ⟨"p/src"⟩, ⟨"p/b.c"⟩]
    let paths := unreadable ++ [⟨"p/src/a.c"⟩]
    unreadable.map w.files.readError = [.missing, .isDirectory, .notText] ∧
      (plain.Clean o.disk.view w ∧ plain.cache = none ∧
        plain.lost w paths = unreadable.map (·, w) ∧ plain.found w paths = [⟨"p/src/a.c"⟩] ∧
        CostsOnly (unreadable.map w.files.complaint) (plain.run w paths).1
          (plain.run w [⟨"p/src/a.c"⟩]).1 ∧
        ∃ report last, w.attempt (o.run form) = (.ok report, last) ∧ report.errors = 3 ∧
          (Command.checkOutcome false (.ok report)).status.code = 1) ∧
      s.Clean o.disk.view w ∧ form.IsFaithful ∧ o.disk.view.ErrorFree form w ∧
        s.handed? w ⟨"p/b.c"⟩ = some scanned ∧
        s.lost w paths = [(⟨"p/gone.c"⟩, w), (⟨"p/src"⟩, w)] ∧
        s.found w paths = [⟨"p/b.c"⟩, ⟨"p/src/a.c"⟩] ∧
        CostsOnly ([⟨"p/gone.c"⟩, ⟨"p/src"⟩].map w.files.complaint) (s.run w paths).1
          (s.run w [⟨"p/b.c"⟩, ⟨"p/src/a.c"⟩]).1 ∧
        ∃ report last, w.attempt (cached.run form) = (.ok report, last) ∧ report.errors = 2 ∧
          (Command.checkOutcome false (.ok report)).status.code = 1 := by
  intro config scanned form w o cached plain s unreadable paths
  obtain ⟨hcosts, hnocache, hcheck⟩ := unreadable_costs_itself
  have hform : form.IsFaithful := SourceScan.codec.isFaithful_storedForm
  have hread : form.read? (SourceScan.codec.encode scanned) = some scanned := hform _ _ rfl
  have hfiles : (w.attempt (discover config)).1 = .ok paths := by decide +kernel
  -- no entry holds a scan with errors
  have hview : o.disk.view.ErrorFree form w := by
    have hcontents : w.files.root.contents =
        [[255], Bytes.ofText "int f(void);", SourceScan.codec.encode scanned] := rfl
    have hother : ∀ bytes ∈ [[255], Bytes.ofText "int f(void);"],
        (form.read? bytes).isNone = true := by decide +kernel
    have hkept : scanned.ErrorFree :=
      ScanCall.errorFree_captured (ScanCall.errorFree_scanText config _ _)
    refine o.disk.errorFree_of_only hkept ?_
    rw [hcontents]
    intro bytes hbytes
    rcases List.mem_append.1 (show bytes ∈ [_, _] ++ [_] from hbytes) with hbytes | hbytes
    · exact .inl (Option.isNone_iff_eq_none.1 (hother bytes hbytes))
    · exact .inr (List.mem_singleton.1 hbytes ▸ hread)
  refine ⟨by decide +kernel, ?_, ?_⟩
  · have hclean : plain.Clean o.disk.view w := ScanSetup.clean_of_cache_none rfl
    obtain ⟨hlost, hfound⟩ := hnocache plain w paths rfl
    have hunreadable : (paths.filter fun path => !w.files.isReadable path) = unreadable := by
      decide +kernel
    have hreadable : paths.filter w.files.isReadable = [⟨"p/src/a.c"⟩] := by decide +kernel
    rw [hunreadable] at hlost
    rw [hreadable] at hfound
    obtain ⟨hcostsOnly, -, -⟩ := hcosts plain o.disk.view w paths (Or.inr rfl) hclean
    rw [hfound, ScanSetup.complaints, hlost, List.map_map] at hcostsOnly
    obtain ⟨report, last, hrun⟩ :=
      attempt_run_of_ok form rfl (show (w.attempt o.moduleConfig).1 = .ok config from rfl) hfiles
    obtain ⟨config', files, hconfig', hfiles', -, -, -, herrors, hcode, -⟩ :=
      hcheck o form report w last (by simp [o, standard]) hrun
    obtain rfl : config = config' := Except.ok.inj hconfig'
    obtain rfl : paths = files := Except.ok.inj (hfiles.symm.trans hfiles')
    have hstart : (o.setup form config).lost (o.cleared w) paths = unreadable.map (·, w) := hlost
    rw [hstart] at herrors hcode
    exact ⟨hclean, rfl, hlost, hfound, hcostsOnly, report, last, hrun, herrors, hcode false⟩
  · have hclean : s.Clean o.disk.view w :=
      clean_setup (o := cached) (fun _ => ⟨hform, hview⟩) config
    -- what the cache hands out for each of the files
    have hgone : s.handed? w ⟨"p/gone.c"⟩ = none := by
      have hmodified : w.files.modified (s.call ⟨"p/gone.c"⟩).path = .error .missing := by
        decide +kernel
      rw [ScanSetup.handed?_of_cache rfl, ScanCall.handed?, hmodified]
      rfl
    have hsrc : s.handed? w ⟨"p/src"⟩ = none := by
      have hmodified : w.files.modified (s.call ⟨"p/src"⟩).path = .ok ⟨0⟩ := by decide +kernel
      have hlookup : ((o.disk.lookup (s.call ⟨"p/src"⟩).key ⟨0⟩ :
          StateM FileTree (Option Bytes)).run w.files).1 = none := by decide +kernel
      exact (o.disk.handed?_eq form hmodified).trans (by rw [hlookup]; rfl)
    have hb : s.handed? w ⟨"p/b.c"⟩ = some scanned := by
      have hmodified : w.files.modified (s.call ⟨"p/b.c"⟩).path = .ok ⟨0⟩ := by decide +kernel
      have hplace : w.files.placeOf (o.disk.entryPath (s.call ⟨"p/b.c"⟩).key) =
          ["p", "build", ".parsecache", "b.c.scan"] := by decide +kernel
      exact o.disk.handed?_of_entry hmodified (by decide +kernel) (by rw [hplace]; rfl) hread
    have hloses : s.loses w ⟨"p/gone.c"⟩ = true ∧ s.loses w ⟨"p/src"⟩ = true ∧
        s.loses w ⟨"p/b.c"⟩ = false ∧ s.loses w ⟨"p/src/a.c"⟩ = false := by
      have hreadable : paths.map w.files.isReadable = [false, false, false, true] := by
        decide +kernel
      simp only [paths, unreadable, List.cons_append, List.nil_append, List.map_cons, List.map_nil,
        List.cons.injEq] at hreadable
      obtain ⟨hgone', hsrc', -, ha', -⟩ := hreadable
      simp [ScanSetup.loses, hgone, hsrc, hb, hgone', hsrc', ha']
    obtain ⟨hlosesGone, hlosesSrc, hlosesB, hlosesA⟩ := hloses
    have hturns : s.turns w paths =
        [(⟨"p/gone.c"⟩, w), (⟨"p/src"⟩, w), (⟨"p/b.c"⟩, w), (⟨"p/src/a.c"⟩, w)] := by
      have hpaths : paths = [⟨"p/gone.c"⟩, ⟨"p/src"⟩, ⟨"p/b.c"⟩, ⟨"p/src/a.c"⟩] := rfl
      rw [hpaths,
        ScanSetup.turns_cons (ScanSetup.run_scan_of_loses hclean hlosesGone),
        ScanSetup.turns_cons (ScanSetup.run_scan_of_loses hclean hlosesSrc),
        ScanSetup.turns_cons (ScanSetup.run_scan_of_handed hclean hb).1]
      rfl
    have hlost : s.lost w paths = [(⟨"p/gone.c"⟩, w), (⟨"p/src"⟩, w)] := by
      simp [ScanSetup.lost, hturns, hlosesGone, hlosesSrc, hlosesB, hlosesA]
    have hfound : s.found w paths = [⟨"p/b.c"⟩, ⟨"p/src/a.c"⟩] := by
      simp [ScanSetup.found, hturns, hlosesGone, hlosesSrc, hlosesB, hlosesA]
    obtain ⟨hcostsOnly, -, -⟩ := hcosts s o.disk.view w paths (Or.inr rfl) hclean
    rw [hfound, ScanSetup.complaints, hlost] at hcostsOnly
    obtain ⟨report, last, hrun⟩ :=
      attempt_run_of_ok form rfl (show (w.attempt cached.moduleConfig).1 = .ok config from rfl)
        hfiles
    obtain ⟨config', files, hconfig', hfiles', -, -, -, herrors, hcode, -⟩ :=
      hcheck cached form report w last (fun _ => ⟨hform, hview⟩) hrun
    obtain rfl : config = config' := Except.ok.inj hconfig'
    obtain rfl : paths = files := Except.ok.inj (hfiles.symm.trans hfiles')
    have hstart : (cached.setup form config).lost (cached.cleared w) paths =
        [(⟨"p/gone.c"⟩, w), (⟨"p/src"⟩, w)] := hlost
    rw [hstart] at herrors hcode
    exact ⟨hclean, hform, hview, hb, hlost, hfound, hcostsOnly, report, last, hrun, herrors,
      hcode false⟩

/-- A file that is no text any more was one when it was scanned for the cache, and nothing says that
it was changed later. It cannot be read, but the check finds no error. -/
theorem unreadable_file_replayed :
    let path : SourcePath := ⟨"p/src/a.c"⟩
    let config := { ModuleConfig.standard ⟨"p"⟩ with modules := [.named "m"] }
    let scanned := captured .checker (scanText config path "int f(void);")
    let form := SourceScan.codec.storedForm
    let w : CacheWorld Unit := ⟨(), .directory [("p", .directory [
      ("src", .directory [("a.c", .file [255] ⟨0⟩)]),
      ("build", .directory [(".parsecache", .directory [("src", .directory
        [("a.c.scan", .file (SourceScan.codec.encode scanned) ⟨0⟩)])])])])], [], ⟨0⟩⟩
    let o := { standard ⟨"p"⟩ with modules := [.named "m"], cache := true }
    let s : ScanSetup Unit := o.setup form config
    (w.attempt o.moduleConfig).1 = .ok config ∧ (w.attempt (discover config)).1 = .ok [path] ∧
      w.files.isReadable path = false ∧ s.handed? w path = some scanned ∧
      ∃ report last, w.attempt (o.run form) = (.ok report, last) ∧ report.errors = 0 ∧
        (Command.checkOutcome false (.ok report)).status.code = 0 := by
  intro path config scanned form w o s
  have hfiles : (w.attempt (discover config)).1 = .ok [path] := by decide +kernel
  have hform : form.IsFaithful := SourceScan.codec.isFaithful_storedForm
  have hread : form.read? (SourceScan.codec.encode scanned) = some scanned := hform _ _ rfl
  have hview : o.disk.view.ErrorFree form w := by
    have hcontents : w.files.root.contents = [[255], SourceScan.codec.encode scanned] := rfl
    have hother : (form.read? [255]).isNone = true := by decide +kernel
    have hkept : scanned.ErrorFree :=
      ScanCall.errorFree_captured (ScanCall.errorFree_scanText config _ _)
    refine o.disk.errorFree_of_only hkept ?_
    rw [hcontents]
    exact List.forall_mem_cons.2 ⟨.inl (Option.isNone_iff_eq_none.1 hother),
      List.forall_mem_singleton.2 (.inr hread)⟩
  have hclean : s.Clean o.disk.view w := clean_setup (o := o) (fun _ => ⟨hform, hview⟩) config
  have hhanded : s.handed? w path = some scanned := by
    have hmodified : w.files.modified (s.call path).path = .ok ⟨0⟩ := by decide +kernel
    have hplace : w.files.placeOf (o.disk.entryPath (s.call path).key) =
        ["p", "build", ".parsecache", "src", "a.c.scan"] := by decide +kernel
    exact o.disk.handed?_of_entry hmodified (by decide +kernel) (by rw [hplace]; rfl) hread
  obtain ⟨report, last, hrun⟩ :=
    attempt_run_of_ok form rfl (show (w.attempt o.moduleConfig).1 = .ok config from rfl) hfiles
  refine ⟨rfl, hfiles, by decide +kernel, hhanded, report, last, hrun, ?_⟩
  obtain ⟨config', files, hconfig', hfiles', rfl, -⟩ := attempt_run_eq_ok hrun
  obtain rfl : config = config' := Except.ok.inj hconfig'
  obtain rfl : [path] = files := Except.ok.inj (hfiles.symm.trans hfiles')
  have herrors : (s.run w [path]).1.2.errors = 0 := by
    have hloses : s.loses w path = false := by simp [ScanSetup.loses, hhanded]
    have hcosts := (ScanSetup.run_costs rfl rfl hclean [path]).1.errors
    rwa [ScanSetup.complaints, ScanSetup.lost, ScanSetup.turns, ScanSetup.turns,
      List.filter_cons_of_neg (by simp [hloses])] at hcosts
  refine ⟨herrors, ?_⟩
  have hclean : (s.run w [path]).1.2.errors == 0 := by rw [herrors]; rfl
  exact congrArg (fun clean => (if clean then ExitStatus.success else .errors).code) hclean

end CheckOptions

end CBoundary
