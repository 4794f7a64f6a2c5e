import CBoundary.Proofs.SharedCache
import CBoundary.Proofs.TableMerge
import CBoundary.ScanCodec

/-!
Scanning by way of a cache. A cache is asked for the key of a file, which is a path, and hands out
what was kept in its entry: the scan that some earlier call made, with the reports that an empty
sink of that call kept. Every entry was made by one of the calls, so if calls with the same entry
are the same, what is handed out is what the call would have found. The key does not tell
configurations apart, though. Main statements: `scans_alike`, and `second_call_given_first_scan` for
calls that share a key and nothing else.
-/
namespace CBoundary

open ProjectScan

namespace Sink

/-- A sink with a limit keeps the first reports that it accepts, as long as there is room. -/
theorem reports_emitAll (s : Sink) (hlimit : s.config.limit ≠ 0) (reports : List Report) :
    (s.emitAll reports).reports = s.reports ++
      (reports.filter s.config.accepts).take (s.config.limit - s.reports.length) := by
  induction reports generalizing s with
  | nil => simp [emitAll]
  | cons r reports ih =>
    have hstep : s.emitAll (r :: reports) = (s.emit r).emitAll reports := rfl
    have hconfig : (s.emit r).config = s.config := config_emit s r
    rw [hstep, ih (s.emit r) (by rwa [hconfig]), hconfig]
    by_cases haccepts : s.config.accepts r = true
    · by_cases hroom : s.reports.length < s.config.limit
      · have hleft : s.config.limit - s.reports.length =
            s.config.limit - (s.reports.length + 1) + 1 := by omega
        simp [emit, hasRoom, haccepts, hroom, hleft]
      · have hleft : s.config.limit - s.reports.length = 0 := by omega
        simp [emit, hasRoom, haccepts, hroom, hlimit, hleft]
    · simp [emit, haccepts]

/-- What an empty sink keeps came to it and was accepted. -/
theorem mem_of_mem_empty {config : SinkConfig} {reports : List Report} {r : Report}
    (hr : r ∈ ((empty config).emitAll reports).reports) :
    r ∈ reports ∧ config.accepts r = true := by
  refine List.mem_filter.1 ?_
  by_cases hlimit : config.limit = 0
  · rw [emitAll_eq _ hlimit] at hr
    simpa only [empty, List.nil_append] using hr
  · rw [reports_emitAll _ hlimit] at hr
    simp only [empty, List.nil_append] at hr
    exact List.mem_of_mem_take hr

/-- What an empty sink kept, any sink with its configuration keeps as if it had come directly. -/
theorem reports_emitAll_kept (s : Sink) (reports : List Report) :
    (s.emitAll ((empty s.config).emitAll reports).reports).reports =
      (s.emitAll reports).reports := by
  have haccepted : ((empty s.config).emitAll reports).reports.filter s.config.accepts =
      ((empty s.config).emitAll reports).reports :=
    List.filter_eq_self.2 fun r hr => (mem_of_mem_empty hr).2
  by_cases hlimit : s.config.limit = 0
  · rw [emitAll_eq s hlimit, emitAll_eq s hlimit]
    simp only [haccepted]
    rw [emitAll_eq (empty s.config) hlimit]
    simp [empty]
  · rw [reports_emitAll s hlimit, haccepted, reports_emitAll s hlimit,
      reports_emitAll (empty s.config) hlimit]
    simp only [empty, List.nil_append, List.length_nil, Nat.sub_zero, List.take_take]
    rw [Nat.min_eq_left (Nat.sub_le _ _)]

/-- Without a limit, counts too are as if all had come directly. -/
theorem emitAll_kept (s : Sink) (hlimit : s.config.limit = 0) (reports : List Report) :
    s.emitAll ((empty s.config).emitAll reports).reports = s.emitAll reports := by
  rw [emitAll_eq s hlimit, emitAll_eq s hlimit, emitAll_eq (empty s.config) hlimit]
  simp [empty, List.filter_filter]

end Sink

namespace ProjectScan

/-- Two results of a scan that sinks of a configuration cannot tell apart: the table or the error is
the same, the same reports are kept, and where all reports are kept, they count the same. -/
structure SameFor (diagnostics : SinkConfig) (first second : Except ScanError SourceScan) :
    Prop where
  codebase : first.map SourceScan.codebase = second.map SourceScan.codebase
  reports (sink : Sink) (hconfig : sink.config = diagnostics) :
    (sink.emitAll (reportsOf first)).reports = (sink.emitAll (reportsOf second)).reports
  tallies (sink : Sink) (hconfig : sink.config = diagnostics) (hlimit : diagnostics.limit = 0) :
    sink.emitAll (reportsOf first) = sink.emitAll (reportsOf second)

variable {diagnostics : SinkConfig}

theorem SameFor.refl (result : Except ScanError SourceScan) : SameFor diagnostics result result :=
  ⟨rfl, fun _ _ => rfl, fun _ _ _ => rfl⟩

theorem sameFor_captured (result : Except ScanError SourceScan) :
    SameFor diagnostics (result.map (captured diagnostics)) result := by
  cases result with
  | error e => exact .refl _
  | ok scan =>
    refine ⟨rfl, ?_, ?_⟩
    · rintro sink rfl
      exact sink.reports_emitAll_kept scan.reports
    · rintro sink rfl hlimit
      exact sink.emitAll_kept hlimit scan.reports

end ProjectScan

namespace ScanCache

variable {κ ε : Type} {form : StoredForm SourceScan}
  {cache : ScanCache (StateT κ (StateM FileTree))} {view : CacheView κ ε}

/-- What reads as a scan in the entry of a call is what this call captures. -/
def Justified (form : StoredForm SourceScan) (view : CacheView κ ε) (calls : List ScanCall)
    (files : FileTree) (w : CacheWorld κ) : Prop :=
  ∀ call ∈ calls, ∀ bytes found, view.HoldsFor w call.key bytes → form.read? bytes = some found →
    ∃ scan, call.finds files = .ok scan ∧ found = captured call.diagnostics scan

/-- The texts of the calls stay as they are, however many of the calls have been made. -/
def Steady (form : StoredForm SourceScan) (cache : ScanCache (StateT κ (StateM FileTree)))
    (calls : List ScanCall) (w : CacheWorld κ) : Prop :=
  ∀ made, made <+: calls → ∀ call ∈ calls,
    (w.run (made.mapM (ScanCall.scan form (some cache)))).2.files.read call.path =
      w.files.read call.path

variable {calls : List ScanCall} {files : FileTree} {call : ScanCall} {w : CacheWorld κ}

/-- One call by way of the cache: it hands out what it finds when made alone, and what it keeps is
justified. -/
theorem scan_step (hform : form.IsFaithful) (hfaithful : cache.Faithful view)
    (hsame : ∀ a ∈ calls, ∀ b ∈ calls, view.entry w a.key = view.entry w b.key → a = b)
    (hcall : call ∈ calls) (hread : w.files.read call.path = files.read call.path)
    (hjustified : Justified form view calls files w) :
    SameFor call.diagnostics (w.run (call.scan form (some cache))).1 (call.finds files) ∧
      Justified form view calls files (w.run (call.scan form (some cache))).2 := by
  have hfinds : call.finds w.files = call.finds files := ScanCall.finds_congr hread
  cases hhanded : call.handed? form cache w with
  | some found =>
    obtain ⟨bytes, hbytes, hvalue⟩ := ScanCall.holdsFor_of_handed? hfaithful hhanded
    obtain ⟨scan, hscan, rfl⟩ := hjustified call hcall bytes found hbytes hvalue
    rw [ScanCall.run_scan_handed hfaithful hhanded, hscan]
    exact ⟨sameFor_captured (.ok scan), hjustified⟩
  | none =>
    have hcomputes := ScanCall.computes hform hfaithful hhanded
    generalize w.run (call.scan form (some cache)) = outcome at hcomputes
    refine ⟨?_, ?_⟩
    · rcases hcomputes.result with hresult | hresult
      · rw [hresult, hfinds]
        exact .refl _
      · rw [hresult, hfinds]
        exact sameFor_captured _
    · intro other hother bytes found hbytes hvalue
      rw [CacheView.HoldsFor, hcomputes.entry] at hbytes
      rcases hcomputes.holds _ bytes hbytes with hbefore | ⟨hentry, scan, hscan, hstored⟩
      · exact hjustified other hother bytes found hbefore hvalue
      · obtain rfl := hsame other hother call hcall hentry
        exact ⟨scan, hfinds ▸ hscan, Option.some.inj (hvalue.symm.trans hstored)⟩

/-- Any number of calls by way of the cache, one after the other. -/
theorem scan_run (hform : form.IsFaithful) (hfaithful : cache.Faithful view)
    (hsame : ∀ a ∈ calls, ∀ b ∈ calls, view.entry w a.key = view.entry w b.key → a = b)
    {rest : List ScanCall} (hrest : rest ⊆ calls) (hjustified : Justified form view calls files w)
    (hsteady : ∀ made, made <+: rest → ∀ call ∈ calls,
      (w.run (made.mapM (ScanCall.scan form (some cache)))).2.files.read call.path =
        files.read call.path) :
    List.Forall₂ (fun call result => SameFor call.diagnostics result (call.finds files)) rest
      (w.run (rest.mapM (ScanCall.scan form (some cache)))).1 := by
  induction rest generalizing w with
  | nil => exact .nil
  | cons call rest ih =>
    have hcall : call ∈ calls := hrest List.mem_cons_self
    have hread : w.files.read call.path = files.read call.path :=
      hsteady [] List.nil_prefix call hcall
    obtain ⟨hresult, hnext⟩ := scan_step hform hfaithful hsame hcall hread hjustified
    have hentry := ScanCall.entry_run_scan hform hfaithful call w
    rw [List.mapM_cons]
    refine .cons hresult (ih ?_ (List.subset_of_cons_subset hrest) hnext ?_)
    · intro a ha b hb hab
      rw [hentry, hentry] at hab
      exact hsame a ha b hb hab
    · intro made hmade other hother
      have hlater := hsteady (call :: made) (List.prefix_cons_inj call |>.2 hmade) other hother
      rw [List.mapM_cons] at hlater
      exact hlater

/-- Calls that share a cache, over texts that stay as they are, get what they would get without it,
as long as calls with the same entry are the same and the entries do not hold scans of anything
else, as when they are empty. -/
theorem scans_alike {κ ε : Type} {form : StoredForm SourceScan} (hform : form.IsFaithful)
    {cache : ScanCache (StateT κ (StateM FileTree))} {view : CacheView κ ε}
    (hfaithful : cache.Faithful view) (calls : List ScanCall) (w : CacheWorld κ)
    (hjustified : Justified form view calls w.files w) (hsteady : Steady form cache calls w)
    (hsame : ∀ a ∈ calls, ∀ b ∈ calls, view.entry w a.key = view.entry w b.key → a = b) :
    List.Forall₂
      (fun call result => SameFor call.diagnostics result (w.run (call.scan form none)).1) calls
      (w.run (calls.mapM (ScanCall.scan form (some cache)))).1 := by
  simp only [ScanCall.run_scan_none]
  exact scan_run hform hfaithful hsame (List.Subset.refl _) hjustified hsteady

/-- Texts stay as they are if nothing that is stored for a call changes them. -/
theorem steady_of_store (hfaithful : cache.Faithful view) (good : CacheWorld κ → Prop)
    (hstart : good w)
    (hstore : ∀ call ∈ calls, ∀ w' bytes, good w' → good (w'.run (cache.store call.key bytes)).2)
    (hreads : ∀ w', good w' → ∀ call ∈ calls, w'.files.read call.path = w.files.read call.path) :
    Steady form cache calls w := by
  intro made hprefix
  refine hreads _ ?_
  have hmade : made ⊆ calls := hprefix.subset
  clear hreads hprefix
  induction made generalizing w with
  | nil => exact hstart
  | cons call made ih =>
    simp only [List.mapM_cons, CacheWorld.run_bind, CacheWorld.run_pure]
    refine ih ?_ (List.subset_of_cons_subset hmade)
    rcases ScanCall.world_run_scan hfaithful call w with hsame | ⟨bytes, hstored⟩
    · rwa [hsame]
    · rw [hstored]
      exact hstore call (hmade List.mem_cons_self) w bytes hstart

end ScanCache

namespace DiskCache

open ScanCache

/-- Texts that are there stay as they are, if none of them is an entry itself. -/
theorem steady_cache {κ : Type} {form : StoredForm SourceScan} (c : DiskCache)
    {calls : List ScanCall} {w : CacheWorld κ}
    (hreads : ∀ call ∈ calls, ∃ content, w.files.read call.path = .ok content)
    (hplaces : ∀ a ∈ calls, ∀ b ∈ calls,
      w.files.placeOf a.path ≠ w.files.placeOf (c.entryPath b.key)) :
    Steady form c.cache calls w := by
  refine steady_of_store c.faithful_cache
    (fun w' => w'.files.workingDirectory = w.files.workingDirectory ∧
      ∀ call ∈ calls, w'.files.read call.path = w.files.read call.path) ⟨rfl, fun _ _ => rfl⟩ ?_
    fun w' h => h.2
  rintro b hb w' bytes ⟨hworking, hsame⟩
  simp only [run_cache_store]
  refine ⟨(fileAt?_store c b.key bytes w'.files).1.trans hworking, ?_⟩
  intro a ha
  obtain ⟨content, hcontent⟩ := hreads a ha
  have hplace := hplaces a ha b hb
  rw [← FileTree.placeOf_congr hworking, ← FileTree.placeOf_congr hworking] at hplace
  rw [hcontent]
  exact read_store hplace ((hsame a ha).trans hcontent)

end DiskCache

namespace MemoryCache

open ScanCache

variable {form : StoredForm SourceScan} {clock : StateT MemoryCache (StateM FileTree) Timestamp}

theorem steady_cache (hclock : ∀ w : CacheWorld MemoryCache, (w.run clock).2 = w)
    (calls : List ScanCall) (w : CacheWorld MemoryCache) :
    Steady form (cache clock) calls w := by
  refine steady_of_store (faithful_cache hclock) (fun w' => w'.files = w.files) rfl ?_ ?_
  · intro call _ w' bytes h
    rwa [run_store hclock]
  · intro w' h call _
    rw [h]

/-- A call whose key is not there stores its scan. -/
theorem run_scan_absent (hclock : ∀ w : CacheWorld MemoryCache, (w.run clock).2 = w)
    {call : ScanCall} {w : CacheWorld MemoryCache} {changed : Timestamp} {scan : SourceScan}
    {bytes : Bytes} (habsent : w.kept.entries[call.key]? = none)
    (hmodified : w.files.modified call.path = .ok changed)
    (hscan : call.finds w.files = .ok scan)
    (hwrite : form.write? (captured call.diagnostics scan) = some bytes) :
    w.run (call.scan form (some (cache clock))) = (.ok (captured call.diagnostics scan),
      ⟨w.kept.store (w.run clock).1 call.key bytes, w.files⟩) := by
  have hlookup : w.run ((cache clock).lookup call.key changed) = (none, w) := by
    have hnone : w.kept.lookup call.key changed = none := by
      rw [lookup, habsent, Option.filter_none, Option.map_none]
    exact congrArg (·, w) hnone
  rw [ScanCall.run_scan_some, hmodified]
  simp only [cached, CacheWorld.run_bind, hlookup, Option.bind_none, computeAndStore,
    ScanCall.run_captured, hscan, Except.map, hwrite, run_store hclock, CacheWorld.run_discard,
    CacheWorld.run_pure]

/-- A call whose key is there, stored late enough, is handed out what is there. -/
theorem run_scan_present (hclock : ∀ w : CacheWorld MemoryCache, (w.run clock).2 = w)
    {call : ScanCall} {w : CacheWorld MemoryCache} {stored changed : Timestamp}
    {bytes : Bytes} {scan : SourceScan}
    (hpresent : w.kept.entries[call.key]? = some (stored, bytes))
    (hread : form.read? bytes = some scan)
    (hmodified : w.files.modified call.path = .ok changed)
    (hfresh : stored.isFresh changed = true) :
    w.run (call.scan form (some (cache clock))) = (.ok scan, w) := by
  refine ScanCall.run_scan_handed (faithful_cache hclock) ?_
  have hlookup : (w.run ((cache clock).lookup call.key changed)).1 = some bytes := by
    have hsome : w.kept.lookup call.key changed = some bytes := by
      rw [lookup, hpresent, Option.filter_some, if_pos hfresh, Option.map_some]
    exact hsome
  rw [ScanCall.handed?, hmodified, Except.toOption, Option.bind_some, hlookup, Option.bind_some,
    hread]

/-- What one call has stored, the next call with its key is given, whatever its configuration. -/
theorem second_call_given_first_scan (hform : form.IsFaithful)
    (hclock : ∀ w : CacheWorld MemoryCache, (w.run clock).2 = w)
    (first second : ScanCall) {w : CacheWorld MemoryCache} {made changed : Timestamp}
    {scan : SourceScan} {bytes : Bytes} (hkey : second.key = first.key)
    (habsent : w.kept.entries[first.key]? = none)
    (hfirst : w.files.modified first.path = .ok made) (hscan : first.finds w.files = .ok scan)
    (hwrite : form.write? (captured first.diagnostics scan) = some bytes)
    (hsecond : w.files.modified second.path = .ok changed)
    (hfresh : (w.run clock).1.isFresh changed = true) :
    (w.run ([first, second].mapM (ScanCall.scan form (some (cache clock))))).1 =
      [.ok (captured first.diagnostics scan), .ok (captured first.diagnostics scan)] := by
  have hmiss := run_scan_absent hclock habsent hfirst hscan hwrite
  have hpresent : (w.kept.store (w.run clock).1 first.key bytes).entries[second.key]? =
      some ((w.run clock).1, bytes) := by
    rw [hkey, store, Std.ExtTreeMap.getElem?_insert_self]
  have hhit := @run_scan_present form clock hclock second
    ⟨w.kept.store (w.run clock).1 first.key bytes, w.files⟩ _ _ _ _ hpresent (hform _ _ hwrite)
    hsecond hfresh
  simp only [List.mapM_cons, List.mapM_nil, CacheWorld.run_bind, CacheWorld.run_pure, hmiss, hhit]

end MemoryCache

namespace ScanCache

/-- A file with a report is scanned, another one, and the first one again, out of the cache: first
in memory, then on disk. -/
theorem repeated_scan_alike :
    let text := "/* #private(foo) */ struct __wt_bar_x \x7b int a; \x7d;"
    let config := { ModuleConfig.standard ⟨"p"⟩ with modules := [.named "foo", .named "bar"] }
    let calls : List ScanCall := [⟨config, .checker, ⟨"p/a.c"⟩⟩, ⟨config, .everything, ⟨"p/b.c"⟩⟩,
      ⟨config, .checker, ⟨"p/a.c"⟩⟩]
    let tree : FileTree := ⟨.directory [("p", .directory
      [("a.c", .file (Bytes.ofText text) ⟨0⟩), ("b.c", .file (Bytes.ofText text) ⟨0⟩)])], [], ⟨0⟩⟩
    let form := SourceScan.codec.storedForm
    let memory : ScanCache (StateT MemoryCache (StateM FileTree)) := MemoryCache.cache (pure ⟨0⟩)
    let disk := DiskCache.ofRoot config.root
    let w : CacheWorld MemoryCache := ⟨MemoryCache.empty, tree⟩
    let v : CacheWorld Unit := ⟨(), tree⟩
    form.IsFaithful ∧
      (memory.Faithful MemoryCache.view ∧ Justified form MemoryCache.view calls tree w ∧
        Steady form memory calls w ∧ (∀ a ∈ calls, ∀ b ∈ calls, a.key = b.key → a = b) ∧
        List.Forall₂
          (fun call result => SameFor call.diagnostics result (w.run (call.scan form none)).1) calls
          (w.run (calls.mapM (ScanCall.scan form (some memory)))).1) ∧
      disk.cache.Faithful (disk.view : CacheView Unit FileTree.Place) ∧
        Justified form disk.view calls tree v ∧ Steady form disk.cache calls v ∧
        (∀ a ∈ calls, ∀ b ∈ calls, disk.view.entry v a.key = disk.view.entry v b.key → a = b) ∧
        List.Forall₂
          (fun call result => SameFor call.diagnostics result (v.run (call.scan form none)).1) calls
          (v.run (calls.mapM (ScanCall.scan form (some disk.cache)))).1 := by
  intro text config calls tree form memory disk w v
  have hform : form.IsFaithful := SourceScan.codec.isFaithful_storedForm
  refine ⟨hform, ?_, ?_⟩
  · have hclock (w : CacheWorld MemoryCache) :
        (w.run (pure ⟨0⟩ : StateT MemoryCache (StateM FileTree) Timestamp)).2 = w := rfl
    have hfaithful := MemoryCache.faithful_cache hclock
    have hjustified : Justified form MemoryCache.view calls tree w := by
      rintro call - bytes found ⟨stored, hstored⟩
      simp [w, MemoryCache.empty] at hstored
    have hsteady : Steady form memory calls w := MemoryCache.steady_cache hclock calls w
    have hsame : ∀ a ∈ calls, ∀ b ∈ calls, a.key = b.key → a = b := by decide +kernel
    exact ⟨hfaithful, hjustified, hsteady, hsame,
      scans_alike hform hfaithful calls w hjustified hsteady hsame⟩
  · have hfaithful : disk.cache.Faithful (disk.view : CacheView Unit FileTree.Place) :=
      disk.faithful_cache
    have hempty : ∀ call ∈ calls, tree.fileAt? (tree.placeOf (disk.entryPath call.key)) = none := by
      decide +kernel
    have hjustified : Justified form disk.view calls tree v := by
      intro call hcall bytes found hholds
      rw [CacheView.HoldsFor, DiskCache.entry_view, DiskCache.holds_view] at hholds
      obtain ⟨time, hfile⟩ := hholds
      exact absurd ((hempty call hcall).symm.trans hfile) (Option.some_ne_none _).symm
    have hreads : ∀ call ∈ calls, v.files.read call.path = .ok (Bytes.ofText text) := by
      decide +kernel
    have hsteady : Steady form disk.cache calls v :=
      disk.steady_cache (fun call hcall => ⟨_, hreads call hcall⟩) (by decide +kernel)
    have hsame : ∀ a ∈ calls, ∀ b ∈ calls,
        disk.view.entry v a.key = disk.view.entry v b.key → a = b := by
      simp only [DiskCache.entry_view]
      decide +kernel
    exact ⟨hfaithful, hjustified, hsteady, hsame,
      scans_alike hform hfaithful calls v hjustified hsteady hsame⟩

/-- A file belongs to a module of the second configuration only, but the scan of the first is handed
out. -/
theorem other_configuration_given_stale_module :
    let text := "int f(void) \x7b return 0; \x7d"
    let path : SourcePath := ⟨"proj/src/foo/a.c"⟩
    let first : ScanCall :=
      ⟨{ ModuleConfig.standard ⟨"proj"⟩ with modules := [.named "bar"] }, .everything, path⟩
    let second : ScanCall :=
      ⟨{ ModuleConfig.standard ⟨"proj"⟩ with modules := [.named "foo"] }, .everything, path⟩
    let w : CacheWorld MemoryCache := ⟨MemoryCache.empty, ⟨.directory [("proj", .directory
      [("src", .directory [("foo", .directory [("a.c", .file (Bytes.ofText text) ⟨0⟩)])])])], [],
      ⟨0⟩⟩⟩
    let form := SourceScan.codec.storedForm
    let cache : ScanCache (StateT MemoryCache (StateM FileTree)) := MemoryCache.cache (pure ⟨0⟩)
    let moduleOf (result : Except ScanError SourceScan) : Option String :=
      (result.toOption.bind fun s => s.codebase.functions["f"]?).map Definition.module
    (w.run ([first, second].mapM (ScanCall.scan form (some cache)))).1.map moduleOf =
        [some "", some ""] ∧
      moduleOf (w.run (second.scan form none)).1 = some "foo" := by
  intro text path first second w form cache moduleOf
  have hclock (w : CacheWorld MemoryCache) :
      (w.run (pure ⟨0⟩ : StateT MemoryCache (StateM FileTree) Timestamp)).2 = w := rfl
  have hread : w.files.read path = .ok (Bytes.ofText text) := by decide +kernel
  have hmodified : w.files.modified path = .ok ⟨0⟩ := by decide +kernel
  have hone : ∃ s ∈ (Statement.ofSource 0 text).head?.toList,
      Statement.ofSource 0 text = [s] ∧ SourceScan.linkageBody? .idle s = none := by
    decide +kernel
  obtain ⟨s, -, hs, hbody⟩ := hone
  have hmodule (config : ModuleConfig) :
      (scanText config path text).codebase.functions["f"]?.map Definition.module =
        (((Statement.ofSource 0 text).flatMap fun s =>
          (Sighting.ofStatement (ScanContext.forFile config path text) .idle s).1).foldl
            (fun found x => found.merge Definition.merge (x.definitionAt? (.function "f")))
              none).map Definition.module := by
    have hfunction (c : Codebase) : c.functions["f"]? = c.definition? (.function "f") := rfl
    have hstart : SourceScan.start.codebase.definition? (.function "f") = none := by
      simp [SourceScan.start, Codebase.empty, Codebase.definition?]
    rw [hfunction, scanText, Codebase.readText_codebase, Codebase.definition?_foldl_take, hstart,
      Sighting.ofText_singleton hs hbody, hs, List.flatMap_singleton]
  have hfinds (call : ScanCall) (hpath : call.path = path) :
      call.finds w.files = .ok (scanText call.config path text) := by
    rw [ScanCall.finds, hpath]
    exact FileTree.scanOf_of_read _ _ hread
  have hboth := MemoryCache.second_call_given_first_scan SourceScan.codec.isFaithful_storedForm
    (w := w) hclock first second rfl (by simp [w, MemoryCache.empty]) hmodified (hfinds first rfl)
    rfl hmodified (by decide)
  rw [hboth, ScanCall.run_scan_none, hfinds second rfl]
  simp only [moduleOf, List.map_cons, List.map_nil, captured, Except.toOption, Option.bind_some,
    hmodule]
  decide +kernel

end ScanCache

end CBoundary
