import CBoundary.FileAccess
import Std.Data.ExtTreeMap

/-!
Results kept from one run to the next. A cache maps a key to bytes and knows when they were
stored. They are fresh as long as the source they were made from was not changed more than a
second later. Bytes that are stale, or that do not read back as a value, count as absent: the
value is computed anew and stored. A cache either lives in memory or as files below the build
directory of a project.
-/
namespace CBoundary

/-- Why a file could not be scanned. -/
inductive ScanError where
  | read (path : SourcePath) (cause : IoError)
  | cache (key : String) (reason : String)
deriving DecidableEq, Repr, Inhabited

namespace ScanError

def message : ScanError → String
  | .read path cause => s!"cannot read {path.text}: {cause.message}"
  | .cache key reason => s!"scan cache entry {key}: {reason}"

/-- The file or the entry that the error is about. -/
def subject : ScanError → String
  | .read path _ => path.text
  | .cache key _ => key

end ScanError

/-- How long after a value was stored its source may have been changed, in nanoseconds. -/
def Timestamp.tolerance : Int := second

/-- Is something stored at this time fresh for a source last changed at the other? -/
def Timestamp.isFresh (stored source : Timestamp) : Bool :=
  source.nanoseconds ≤ stored.nanoseconds + tolerance

/-- How values of a type are kept in a cache. Some values may have no stored form. -/
structure StoredForm (α : Type) where
  write? : α → Option Bytes
  read? : Bytes → Option α

/-- Reading gives back what was written. -/
def StoredForm.IsFaithful {α : Type} (f : StoredForm α) : Prop :=
  ∀ value bytes, f.write? value = some bytes → f.read? bytes = some value

/-- A place to keep results in. -/
structure ScanCache (m : Type → Type) where
  /-- The bytes under a key, if they are fresh for a source last changed at the given time. -/
  lookup : String → Timestamp → m (Option Bytes)
  store : String → Bytes → m (Except ScanError Unit)

namespace ScanCache

variable {m : Type → Type} [Monad m] {α : Type}

/-- Computes a value and stores it. A failure to store it does not matter. -/
def computeAndStore (cache : ScanCache m) (form : StoredForm α) (key : String)
    (compute : m (Except ScanError α)) : m (Except ScanError α) := do
  match ← compute with
  | .error e => return .error e
  | .ok value =>
      match form.write? value with
      | none => return .ok value
      | some bytes =>
          discard (cache.store key bytes)
          return .ok value

/-- The value kept under a key, or else the one that is computed, which is then kept. -/
def cached (cache : ScanCache m) (form : StoredForm α) (key : String) (source : Timestamp)
    (compute : m (Except ScanError α)) : m (Except ScanError α) := do
  match (← cache.lookup key source).bind form.read? with
  | some value => return .ok value
  | none => cache.computeAndStore form key compute

end ScanCache

/-- A cache in memory: the bytes under each key and when they were stored. -/
structure MemoryCache where
  entries : Std.ExtTreeMap String (Timestamp × Bytes)

namespace MemoryCache

def empty : MemoryCache := ⟨∅⟩

def size (c : MemoryCache) : Nat := c.entries.size

def isEmpty (c : MemoryCache) : Bool := c.entries.isEmpty

def lookup (c : MemoryCache) (key : String) (source : Timestamp) : Option Bytes :=
  (c.entries[key]?.filter fun entry => entry.1.isFresh source).map Prod.snd

def store (c : MemoryCache) (now : Timestamp) (key : String) (bytes : Bytes) : MemoryCache :=
  ⟨c.entries.insert key (now, bytes)⟩

variable {m : Type → Type} [Monad m]

/-- The cache in memory as a place to keep results in, by the given clock. -/
def cache [MonadStateOf MemoryCache m] (clock : m Timestamp) : ScanCache m where
  lookup key source := do return (← getThe MemoryCache).lookup key source
  store key bytes := do
    let now ← clock
    modifyThe MemoryCache fun c => c.store now key bytes
    return .ok ()

end MemoryCache

/-- A cache on disk: a directory with a file for each key. -/
structure DiskCache where
  directory : SourcePath
deriving DecidableEq, Repr, Inhabited

namespace DiskCache

/-- The cache of a project. -/
def ofRoot (root : SourcePath) : DiskCache := ⟨(root.join ⟨"build"⟩).join ⟨".parsecache"⟩⟩

/-- The file of a key. Slashes at the start of the key do not lead out of the directory. -/
def entryPath (c : DiskCache) (key : String) : SourcePath :=
  let relative := key.toList.dropWhile fun ch => ch == '/' || ch == '\\'
  c.directory.join ⟨String.ofList relative ++ ".scan"⟩

variable {m : Type → Type} [Monad m] [FileAccess m]

def lookup (c : DiskCache) (key : String) (source : Timestamp) : m (Option Bytes) := do
  match ← FileAccess.modified (c.entryPath key) with
  | .error _ => return none
  | .ok stored =>
      if stored.isFresh source then return (← FileAccess.read (c.entryPath key)).toOption
      else return none

def store (c : DiskCache) (key : String) (bytes : Bytes) : m (Except ScanError Unit) := do
  let refused (e : IoError) : Except ScanError Unit := .error (.cache key e.message)
  match ← FileAccess.makeDirectories (c.entryPath key).parent with
  | .error e => return refused e
  | .ok () =>
      match ← FileAccess.write (c.entryPath key) bytes with
      | .error e => return refused e
      | .ok () => return .ok ()

/-- The cache on disk as a place to keep results in. -/
def cache (c : DiskCache) : ScanCache m := ⟨c.lookup, c.store⟩

/-- Removes every entry. -/
def clear (c : DiskCache) : m (Except ScanError Unit) := do
  match ← FileAccess.removeTree c.directory with
  | .ok () | .error .missing => return .ok ()
  | .error e => return .error (.read c.directory e)

end DiskCache

end CBoundary
