import CBoundary.Proofs.DiskEntry
import CBoundary.Proofs.ParallelScan

/-!
Calls for scans that share a cache. A cache keeps bytes in entries. Each key has an entry, and keys
may share one, as they do on disk, where slashes at the start of a key do not count. A call is
handed out what the entry of its key holds, if that is fresh and reads as a scan. Else it scans its
file, and if there is a text, the scan is what can be read from the entry from then on. Main
statements: `ScanCall.computes`, and `faithful_cache` for the caches in memory and on disk.
-/
namespace CBoundary

open ProjectScan

/-- Where programs that share a cache stand: what the cache has for itself, and the files. -/
structure CacheWorld (κ : Type) where
  kept : κ
  files : FileTree

namespace CacheWorld

variable {κ α β : Type} (w : CacheWorld κ)

def run (program : StateT κ (StateM FileTree) α) : α × CacheWorld κ :=
  let ((value, kept), files) := (program.run w.kept).run w.files
  (value, ⟨kept, files⟩)

@[simp] theorem run_pure (value : α) : w.run (pure value) = (value, w) := rfl

@[simp] theorem run_bind (program : StateT κ (StateM FileTree) α)
    (next : α → StateT κ (StateM FileTree) β) :
    w.run (program >>= next) = (w.run program).2.run (next (w.run program).1) := rfl

@[simp] theorem run_discard (program : StateT κ (StateM FileTree) α) :
    w.run (discard program) = ((), (w.run program).2) := rfl

/-- A program on the files alone. -/
@[simp] theorem run_lift (program : StateM FileTree α) :
    w.run (StateT.lift program) =
      ((program.run w.files).1, ⟨w.kept, (program.run w.files).2⟩) := rfl

theorem run_read (path : SourcePath) :
    w.run (FileAccess.read path) = (w.files.read path, w) := rfl

theorem run_readText (path : SourcePath) :
    w.run (FileAccess.readText path) = (w.files.textAt path, w) := by
  unfold FileAccess.readText FileTree.textAt
  rw [run_bind, run_read]
  cases w.files.read path <;> rfl

/-- Scanning a file on its own changes nothing. -/
theorem run_scanAlone (config : ModuleConfig) (path : SourcePath) :
    w.run (scanAlone config path : ExceptT ScanError (StateT κ (StateM FileTree)) SourceScan).run =
      (w.files.scanOf config path, w) := by
  unfold scanAlone reading FileTree.scanOf
  simp only [ExceptT.run_bind, ExceptT.run_mk, run_bind, run_readText]
  cases w.files.textAt path <;> rfl

end CacheWorld

/-- How to look into a cache: which entry a key has, and which bytes an entry holds. -/
structure CacheView (κ ε : Type) where
  entry : CacheWorld κ → String → ε
  Holds : CacheWorld κ → ε → Bytes → Prop

/-- Does the entry of the key hold the bytes? -/
def CacheView.HoldsFor {κ ε : Type} (view : CacheView κ ε) (w : CacheWorld κ) (key : String)
    (bytes : Bytes) : Prop :=
  view.Holds w (view.entry w key) bytes

/-- A store of bytes in entries. Looking up finds what the entry of the key holds and changes
nothing. Storing puts nothing but the new bytes into that entry, and nothing into any other, and
keys keep their entries. -/
structure ScanCache.Faithful {κ ε : Type} (cache : ScanCache (StateT κ (StateM FileTree)))
    (view : CacheView κ ε) : Prop where
  lookup_keeps (w : CacheWorld κ) (key : String) (source : Timestamp) :
    (w.run (cache.lookup key source)).2 = w
  lookup_holds (w : CacheWorld κ) (key : String) (source : Timestamp) (bytes : Bytes) :
    (w.run (cache.lookup key source)).1 = some bytes → view.HoldsFor w key bytes
  store_entry (w : CacheWorld κ) (key : String) (bytes : Bytes) (other : String) :
    view.entry (w.run (cache.store key bytes)).2 other = view.entry w other
  store_holds (w : CacheWorld κ) (key : String) (bytes : Bytes) (place : ε) (found : Bytes) :
    view.Holds (w.run (cache.store key bytes)).2 place found →
      view.Holds w place found ∨ (place = view.entry w key ∧ found = bytes)

/-- One call for the scan of a file. -/
structure ScanCall where
  config : ModuleConfig
  diagnostics : SinkConfig
  path : SourcePath
deriving DecidableEq

namespace ScanCall

variable {κ ε : Type}

/-- What the file of the call is called in a cache. -/
def key (call : ScanCall) : String := cacheKey call.config call.path

/-- The scan that the call asks for, by way of a cache if there is one. -/
def scan (form : StoredForm SourceScan) (cache : Option (ScanCache (StateT κ (StateM FileTree))))
    (call : ScanCall) : StateT κ (StateM FileTree) (Except ScanError SourceScan) :=
  (scanFile call.config call.diagnostics form cache call.path).run

/-- What the call finds in a file tree when it is made alone. -/
def finds (files : FileTree) (call : ScanCall) : Except ScanError SourceScan :=
  files.scanOf call.config call.path

/-- The scan that the cache hands out for the call, if it does. -/
def handed? (form : StoredForm SourceScan) (cache : ScanCache (StateT κ (StateM FileTree)))
    (call : ScanCall) (w : CacheWorld κ) : Option SourceScan :=
  (w.files.modified call.path).toOption.bind fun modified =>
    (w.run (cache.lookup call.key modified)).1.bind form.read?

/-- What a call that is handed out nothing comes to: the scan of its file, with all its reports or
with those that were captured. Unless there is no text, the captured scan may be in the entry of the
call behind it, and nothing else is new in any entry. -/
structure Computes (view : CacheView κ ε) (form : StoredForm SourceScan) (call : ScanCall)
    (w : CacheWorld κ) (outcome : Except ScanError SourceScan × CacheWorld κ) : Prop where
  result : outcome.1 = call.finds w.files ∨
    outcome.1 = (call.finds w.files).map (captured call.diagnostics)
  failed (e : ScanError) : call.finds w.files = .error e → outcome.2 = w
  entry (key : String) : view.entry outcome.2 key = view.entry w key
  holds (place : ε) (bytes : Bytes) : view.Holds outcome.2 place bytes →
    view.Holds w place bytes ∨ (place = view.entry w call.key ∧ ∃ scan,
      call.finds w.files = .ok scan ∧ form.read? bytes = some (captured call.diagnostics scan))

variable {form : StoredForm SourceScan} {cache : ScanCache (StateT κ (StateM FileTree))}
  {view : CacheView κ ε} {call : ScanCall} {w : CacheWorld κ}

theorem run_scan_none (call : ScanCall) (w : CacheWorld κ) :
    w.run (call.scan form none) = (call.finds w.files, w) :=
  w.run_scanAlone call.config call.path

theorem finds_congr {files files' : FileTree}
    (hread : files.read call.path = files'.read call.path) :
    call.finds files = call.finds files' := by
  rw [finds, finds, FileTree.scanOf, FileTree.scanOf, FileTree.textAt, FileTree.textAt, hread]

/-- By way of a cache, the call asks for the time of change first. -/
theorem run_scan_some (call : ScanCall) (w : CacheWorld κ) :
    w.run (call.scan form (some cache)) =
      match w.files.modified call.path with
      | .error _ => (call.finds w.files, w)
      | .ok modified => w.run (cache.cached form call.key modified
          (captured call.diagnostics <$> (scanAlone call.config call.path :
            ExceptT ScanError (StateT κ (StateM FileTree)) SourceScan)).run) := by
  have hmodified : w.run (liftM (FileAccess.modified call.path :
      StateT κ (StateM FileTree) (Except IoError Timestamp)) :
        ExceptT ScanError (StateT κ (StateM FileTree)) (Except IoError Timestamp)).run =
          (.ok (w.files.modified call.path), w) := rfl
  unfold scan scanFile scanWithCache
  simp only [ExceptT.run_bind, CacheWorld.run_bind, hmodified]
  cases w.files.modified call.path with
  | error e => exact w.run_scanAlone call.config call.path
  | ok modified => rfl

/-- What the call computes if nothing is handed out. -/
theorem run_captured (call : ScanCall) (w : CacheWorld κ) :
    w.run (captured call.diagnostics <$> (scanAlone call.config call.path :
      ExceptT ScanError (StateT κ (StateM FileTree)) SourceScan)).run =
        ((call.finds w.files).map (captured call.diagnostics), w) := by
  have halone := w.run_scanAlone call.config call.path
  rw [ExceptT.run_map, ← bind_pure_comp, CacheWorld.run_bind, halone]
  rfl

/-- What is handed out is given on, and nothing changes. -/
theorem run_scan_handed (hfaithful : cache.Faithful view) {scan : SourceScan}
    (h : call.handed? form cache w = some scan) :
    w.run (call.scan form (some cache)) = (.ok scan, w) := by
  obtain ⟨modified, hmodified, hscan⟩ := Option.bind_eq_some_iff.1 h
  rw [run_scan_some]
  cases htime : w.files.modified call.path with
  | error e => simp [htime, Except.toOption] at hmodified
  | ok time =>
    obtain rfl : time = modified := by simpa [htime, Except.toOption] using hmodified
    simp only [ScanCache.cached, CacheWorld.run_bind, hfaithful.lookup_keeps, hscan]
    rfl

/-- What is handed out was read from the entry of the call. -/
theorem holdsFor_of_handed? (hfaithful : cache.Faithful view) {scan : SourceScan}
    (h : call.handed? form cache w = some scan) :
    ∃ bytes, view.HoldsFor w call.key bytes ∧ form.read? bytes = some scan := by
  obtain ⟨modified, -, hscan⟩ := Option.bind_eq_some_iff.1 h
  obtain ⟨bytes, hbytes, hread⟩ := Option.bind_eq_some_iff.1 hscan
  exact ⟨bytes, hfaithful.lookup_holds w call.key modified bytes hbytes, hread⟩

/-- A scan that is computed and stored can be read from the entry of its call. -/
theorem computes_computeAndStore (hform : form.IsFaithful) (hfaithful : cache.Faithful view)
    (call : ScanCall) (w : CacheWorld κ) :
    call.Computes view form w (w.run (cache.computeAndStore form call.key
      (captured call.diagnostics <$> (scanAlone call.config call.path :
        ExceptT ScanError (StateT κ (StateM FileTree)) SourceScan)).run)) := by
  unfold ScanCache.computeAndStore
  rw [CacheWorld.run_bind, run_captured]
  cases hfinds : call.finds w.files with
  | error e => exact ⟨Or.inl hfinds.symm, fun _ _ => rfl, fun _ => rfl, fun _ _ => Or.inl⟩
  | ok scan =>
    have hcomputed : (.ok (captured call.diagnostics scan) : Except ScanError SourceScan) =
        (call.finds w.files).map (captured call.diagnostics) := by
      rw [hfinds]
      rfl
    have hfound (e : ScanError) : call.finds w.files ≠ .error e := by simp [hfinds]
    simp only [Except.map]
    cases hwrite : form.write? (captured call.diagnostics scan) with
    | none =>
      exact ⟨Or.inr hcomputed, fun e he => absurd he (hfound e), fun _ => rfl, fun _ _ => Or.inl⟩
    | some bytes =>
      refine ⟨Or.inr hcomputed, fun e he => absurd he (hfound e),
        hfaithful.store_entry w call.key bytes, fun place found hholds => ?_⟩
      refine (hfaithful.store_holds w call.key bytes place found hholds).imp_right ?_
      rintro ⟨hplace, rfl⟩
      exact ⟨hplace, scan, hfinds, hform _ _ hwrite⟩

/-- A call that is handed out nothing computes its scan. -/
theorem computes (hform : form.IsFaithful) (hfaithful : cache.Faithful view)
    (h : call.handed? form cache w = none) :
    call.Computes view form w (w.run (call.scan form (some cache))) := by
  rw [run_scan_some]
  cases hmodified : w.files.modified call.path with
  | error e => exact ⟨Or.inl rfl, fun _ _ => rfl, fun _ => rfl, fun _ _ => Or.inl⟩
  | ok modified =>
    have hnone : (w.run (cache.lookup call.key modified)).1.bind form.read? = none := by
      simpa [handed?, hmodified, Except.toOption] using h
    simp only [ScanCache.cached, CacheWorld.run_bind, hfaithful.lookup_keeps, hnone]
    exact computes_computeAndStore hform hfaithful call w

/-- Calls leave all entries where they are. -/
theorem entry_run_scan (hform : form.IsFaithful) (hfaithful : cache.Faithful view)
    (call : ScanCall) (w : CacheWorld κ) (key : String) :
    view.entry (w.run (call.scan form (some cache))).2 key = view.entry w key := by
  cases h : call.handed? form cache w with
  | some scan => rw [run_scan_handed hfaithful h]
  | none => exact (computes hform hfaithful h).entry key

/-- A call changes nothing unless it stores something under its key. -/
theorem world_run_scan (hfaithful : cache.Faithful view) (call : ScanCall) (w : CacheWorld κ) :
    (w.run (call.scan form (some cache))).2 = w ∨
      ∃ bytes,
        (w.run (call.scan form (some cache))).2 = (w.run (cache.store call.key bytes)).2 := by
  rw [run_scan_some]
  cases w.files.modified call.path with
  | error e => exact Or.inl rfl
  | ok modified =>
    simp only [ScanCache.cached, CacheWorld.run_bind, hfaithful.lookup_keeps]
    cases (w.run (cache.lookup call.key modified)).1.bind form.read? with
    | some value => exact Or.inl rfl
    | none =>
      simp only [ScanCache.computeAndStore, CacheWorld.run_bind, run_captured]
      cases call.finds w.files with
      | error e => exact Or.inl rfl
      | ok scan =>
        simp only [Except.map]
        cases form.write? (captured call.diagnostics scan) with
        | none => exact Or.inl rfl
        | some bytes => exact Or.inr ⟨bytes, rfl⟩

end ScanCall

namespace MemoryCache

/-- In memory, each key has an entry of its own. -/
def view : CacheView MemoryCache String where
  entry _ key := key
  Holds w key bytes := ∃ stored, w.kept.entries[key]? = some (stored, bytes)

variable {clock : StateT MemoryCache (StateM FileTree) Timestamp}

theorem run_store (hclock : ∀ w : CacheWorld MemoryCache, (w.run clock).2 = w)
    (w : CacheWorld MemoryCache) (key : String) (bytes : Bytes) :
    w.run ((cache clock).store key bytes) =
      (.ok (), ⟨w.kept.store (w.run clock).1 key bytes, w.files⟩) := by
  have hrun : w.run ((cache clock).store key bytes) = (.ok (),
      ⟨(w.run clock).2.kept.store (w.run clock).1 key bytes, (w.run clock).2.files⟩) := rfl
  rw [hrun, hclock]

/-- A cache in memory is faithful, whatever the clock shows. -/
theorem faithful_cache (hclock : ∀ w : CacheWorld MemoryCache, (w.run clock).2 = w) :
    (cache clock).Faithful view where
  lookup_keeps w key source := rfl
  lookup_holds w key source bytes h := by
    obtain ⟨⟨stored, found⟩, hentry, rfl⟩ := Option.map_eq_some_iff.1 h
    exact ⟨stored, (Option.filter_eq_some_iff.1 hentry).1⟩
  store_entry w key bytes other := rfl
  store_holds w key bytes other found h := by
    obtain ⟨stored, hstored⟩ := h
    rw [run_store hclock, MemoryCache.store, Std.ExtTreeMap.getElem?_insert] at hstored
    split at hstored
    · rename_i hkey
      obtain ⟨-, rfl⟩ := Prod.mk.inj (Option.some.inj hstored)
      exact Or.inr ⟨(Std.LawfulEqCmp.compare_eq_iff_eq.1 hkey).symm, rfl⟩
    · exact Or.inl ⟨stored, hstored⟩

end MemoryCache

namespace FileAccess

variable {κ α β : Type}

/-- Programs on files do with them what they do where nothing else is carried along. -/
theorem lift_bind (program : StateM FileTree α) (next : α → StateM FileTree β) :
    (StateT.lift (program >>= next) : StateT κ (StateM FileTree) β) =
      StateT.lift program >>= fun value => StateT.lift (next value) := rfl

theorem ensureDirectory_eq_lift (path : SourcePath) :
    (ensureDirectory path : StateT κ (StateM FileTree) (Except IoError Unit)) =
      StateT.lift (ensureDirectory path) := by
  unfold ensureDirectory
  rw [lift_bind]
  refine bind_congr fun made => ?_
  cases made <;> rfl

theorem ensureDirectories_eq_lift (count : Nat) (path : SourcePath) :
    (ensureDirectories count path : StateT κ (StateM FileTree) (Except IoError Unit)) =
      StateT.lift (ensureDirectories count path) := by
  induction count generalizing path with
  | zero => rfl
  | succ count ih =>
    unfold ensureDirectories
    rw [lift_bind, ensureDirectory_eq_lift]
    refine bind_congr fun made => ?_
    split
    · rw [lift_bind, ih]
      refine bind_congr fun made => ?_
      cases made <;> rfl
    · rfl

end FileAccess

namespace DiskCache

open FileAccess

variable {κ : Type} (c : DiskCache) (key : String)

/-- On disk, an entry is the place of a file. -/
def view : CacheView κ FileTree.Place where
  entry w key := w.files.placeOf (c.entryPath key)
  Holds w place bytes := ∃ time, w.files.fileAt? place = some (bytes, time)

theorem lookup_eq_lift (source : Timestamp) :
    (c.lookup key source : StateT κ (StateM FileTree) (Option Bytes)) =
      StateT.lift (c.lookup key source) := by
  unfold lookup
  rw [lift_bind]
  refine bind_congr fun stored => ?_
  cases stored with
  | error e => rfl
  | ok stored => by_cases hfresh : stored.isFresh source = true <;> simp only [hfresh] <;> rfl

theorem store_eq_lift (bytes : Bytes) :
    (c.store key bytes : StateT κ (StateM FileTree) (Except ScanError Unit)) =
      StateT.lift (c.store key bytes) := by
  unfold store makeDirectories
  rw [lift_bind, ensureDirectories_eq_lift]
  refine bind_congr fun made => ?_
  cases made with
  | error e => rfl
  | ok =>
    simp only [lift_bind]
    refine bind_congr fun written => ?_
    cases written <;> rfl

theorem run_cache_lookup (w : CacheWorld κ) (source : Timestamp) :
    w.run (c.cache.lookup key source) =
      (((c.lookup key source : StateM FileTree (Option Bytes)).run w.files).1, w) := by
  have hcache : c.cache.lookup key source =
      (c.lookup key source : StateT κ (StateM FileTree) (Option Bytes)) := rfl
  rw [hcache, lookup_eq_lift, CacheWorld.run_lift, run_lookup]

theorem run_cache_store (w : CacheWorld κ) (bytes : Bytes) :
    w.run (c.cache.store key bytes) =
      let stored := (c.store key bytes : StateM FileTree (Except ScanError Unit)).run w.files
      (stored.1, ⟨w.kept, stored.2⟩) := by
  have hcache : c.cache.store key bytes =
      (c.store key bytes : StateT κ (StateM FileTree) (Except ScanError Unit)) := rfl
  rw [hcache, store_eq_lift, CacheWorld.run_lift]

theorem entry_view (w : CacheWorld κ) :
    c.view.entry w key = w.files.placeOf (c.entryPath key) := by
  simp only [view]

theorem holds_view {w : CacheWorld κ} {place : FileTree.Place} {bytes : Bytes} :
    c.view.Holds w place bytes ↔ ∃ time, w.files.fileAt? place = some (bytes, time) :=
  Iff.rfl

/-- The cache on disk is faithful, whatever else is in the tree. -/
theorem faithful_cache : c.cache.Faithful (c.view : CacheView κ FileTree.Place) where
  lookup_keeps w key source := by rw [run_cache_lookup]
  lookup_holds w key source bytes h := by
    simp only [run_cache_lookup] at h
    rw [CacheView.HoldsFor, entry_view, holds_view]
    exact fileAt?_of_lookup h
  store_entry w key bytes other := by
    simp only [run_cache_store, entry_view]
    exact FileTree.placeOf_congr (fileAt?_store c key bytes w.files).1 (c.entryPath other)
  store_holds w key bytes place found h := by
    simp only [run_cache_store, holds_view, entry_view] at h ⊢
    obtain ⟨time, hfile⟩ := h
    obtain ⟨-, -, hfiles⟩ := fileAt?_store c key bytes w.files
    rcases hfiles place with hsame | ⟨hplace, stored, hnew⟩
    · exact Or.inl ⟨time, hsame.symm.trans hfile⟩
    · obtain ⟨rfl, -⟩ := Prod.mk.inj (Option.some.inj (hfile.symm.trans hnew))
      exact Or.inr ⟨hplace, rfl⟩

end DiskCache

end CBoundary
