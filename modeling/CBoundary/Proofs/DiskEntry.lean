import CBoundary.Proofs.FilePlace
import CBoundary.ScanCache

/-!
What the cache on disk does to the files of a tree. A lookup finds what the file of its key holds
and changes nothing. A store makes directories, and puts its bytes into the file of its key or
changes no file at all, so other files are read as before. Clearing takes files away, every file
below the directory of the cache among them. Main statements: `fileAt?_store`, `fileAt?_clear` and
`loses_clear`.
-/
namespace CBoundary

namespace DiskCache

open FileTree

variable {c : DiskCache} {t : FileTree} {key : String} {bytes : Bytes}

theorem directory_ne_nil (root : SourcePath) :
    (ofRoot root).directory.text.toList ≠ [] := by
  have hname : (SourcePath.mk ".parsecache").isAbsolute = false := by decide
  obtain ⟨front, htext, -⟩ := SourcePath.text_join (root.join ⟨"build"⟩)
  rw [ofRoot, htext _ hname]
  exact List.append_ne_nil_of_right_ne_nil front (by decide)

/-- Looking up changes no file. -/
theorem run_lookup (c : DiskCache) (key : String) (source : Timestamp) (t : FileTree) :
    ((c.lookup key source : StateM FileTree (Option Bytes)).run t).2 = t := by
  unfold lookup
  generalize c.entryPath key = path
  have hmodified : (FileAccess.modified path : StateM FileTree _).run t =
      (t.modified path, t) := rfl
  rw [run_bind, hmodified]
  cases t.modified path with
  | error e => rfl
  | ok stored =>
    simp only
    split <;> rfl

/-- What is looked up is what the file of the key holds. -/
theorem fileAt?_of_lookup {source : Timestamp}
    (h : ((c.lookup key source : StateM FileTree (Option Bytes)).run t).1 = some bytes) :
    ∃ time, t.fileAt? (t.placeOf (c.entryPath key)) = some (bytes, time) := by
  unfold lookup at h
  generalize c.entryPath key = path at h ⊢
  have hmodified : (FileAccess.modified path : StateM FileTree _).run t =
      (t.modified path, t) := rfl
  have hread : (FileAccess.read path : StateM FileTree _).run t = (t.read path, t) := rfl
  rw [run_bind, hmodified] at h
  cases htime : t.modified path with
  | error e => simp [htime] at h
  | ok stored =>
    simp only [htime] at h
    split at h
    · rw [run_bind, hread] at h
      refine fileAt?_of_read ?_
      cases hcontent : t.read path with
      | error e => simp [hcontent, Except.toOption] at h
      | ok content =>
        simp only [hcontent, Except.toOption, run_pure] at h
        exact congrArg Except.ok (Option.some.inj h)
    · simp at h

/-- If there is something to look up, it is what the file of the key holds. -/
theorem lookup_of_isSome {source stored : Timestamp}
    (hfound : ((c.lookup key source : StateM FileTree (Option Bytes)).run t).1.isSome = true)
    (hentry : t.fileAt? (t.placeOf (c.entryPath key)) = some (bytes, stored)) :
    ((c.lookup key source : StateM FileTree (Option Bytes)).run t).1 = some bytes := by
  obtain ⟨found, hlookup⟩ := Option.isSome_iff_exists.1 hfound
  obtain ⟨time, hfile⟩ := fileAt?_of_lookup hlookup
  obtain ⟨rfl, -⟩ := Prod.mk.inj (Option.some.inj (hentry.symm.trans hfile))
  exact hlookup

/-- Storing changes the file of the key at most, and if it does, the file holds what was stored. No
directory is lost. -/
theorem fileAt?_store (c : DiskCache) (key : String) (bytes : Bytes) (t : FileTree) :
    let t' := ((c.store key bytes : StateM FileTree (Except ScanError Unit)).run t).2
    t'.workingDirectory = t.workingDirectory ∧
      (∀ other, t.DirectoryAt other → t'.DirectoryAt other) ∧ ∀ other,
        t'.fileAt? other = t.fileAt? other ∨
          (other = t.placeOf (c.entryPath key) ∧
            ∃ time, t'.fileAt? other = some (bytes, time)) := by
  unfold store
  generalize c.entryPath key = path
  -- directories come first, which are no files
  have hmade := OnlyMakes.makeDirectories path.parent t
  rw [run_bind]
  generalize (FileAccess.makeDirectories path.parent :
    StateM FileTree (Except IoError Unit)).run t = made at hmade ⊢
  obtain ⟨outcome, between⟩ := made
  cases outcome with
  | error e =>
    exact ⟨hmade.workingDirectory, hmade.directories, fun other => Or.inl (hmade.files other)⟩
  | ok =>
    have hwrite : (FileAccess.write path bytes : StateM FileTree _).run between =
        (change (·.write path bytes)).run between := rfl
    simp only [run_bind, hwrite, run_change]
    cases hwritten : between.write path bytes with
    | error e =>
      exact ⟨hmade.workingDirectory, hmade.directories, fun other => Or.inl (hmade.files other)⟩
    | ok last =>
      obtain ⟨hworking, -, hdirectories, hfiles⟩ := fileAt?_write hwritten
      refine ⟨hworking.trans hmade.workingDirectory,
        fun other hother => hdirectories other (hmade.directories other hother), fun other => ?_⟩
      rcases hfiles other with hsame | ⟨rfl, hnew⟩
      · exact Or.inl (hsame.trans (hmade.files other))
      · exact Or.inr ⟨placeOf_congr hmade.workingDirectory _, _, hnew⟩

/-- What could be read from other files is read from them still. -/
theorem read_store {path : SourcePath} {content : Bytes}
    (hplace : t.placeOf path ≠ t.placeOf (c.entryPath key)) (h : t.read path = .ok content) :
    (((c.store key bytes : StateM FileTree (Except ScanError Unit)).run t).2).read path =
      .ok content := by
  obtain ⟨hworking, hdirectories, hfiles⟩ := fileAt?_store c key bytes t
  refine read_of_fileAt? hworking hdirectories ?_ h
  exact (hfiles _).resolve_right fun hstored => hplace hstored.1

/-- The text of the directory of a cache is the root with two names behind it. -/
theorem text_directory {root : SourcePath} {front : List Char}
    (hfront : ∀ q : SourcePath, q.isAbsolute = false →
      (root.join q).text.toList = front ++ q.text.toList) :
    (ofRoot root).directory.text.toList = front ++ "build/.parsecache".toList := by
  have hbuild := hfront ⟨"build"⟩ (by decide)
  have hlast : (root.join ⟨"build"⟩).text.toList.getLast? = some 'd' := by
    rw [hbuild, List.getLast?_append]
    rfl
  rw [ofRoot, SourcePath.join, if_neg (by decide)]
  simp [hbuild]

/-- The parts of a root, as far as they are followed to the root and to its cache. -/
theorem exists_ways (t : FileTree) (root : SourcePath) :
    ∃ parts, t.wayTo (root.join ⟨"."⟩) = parts ++ ["."] ∧
      t.wayTo (ofRoot root).directory = parts ++ ["build", ".parsecache"] := by
  obtain ⟨front, lead, hfront, hlead⟩ := SourcePath.exists_parts_join root
  have horigin : t.origin (ofRoot root).directory = t.origin (root.join ⟨"."⟩) := by
    rw [origin, origin, ofRoot, SourcePath.isAbsolute_join (by decide),
      SourcePath.isAbsolute_join (by decide), SourcePath.isAbsolute_join (by decide)]
  refine ⟨t.origin (root.join ⟨"."⟩) ++ lead.map String.ofList, ?_, ?_⟩
  · rw [wayTo, hfront _ (by decide), hlead, List.map_append, List.append_assoc]
    rfl
  · rw [wayTo, text_directory hfront, hlead, List.map_append, List.append_assoc, horigin]
    rfl

/-- If the directory of a cache is missing, then nothing is at its place. -/
theorem get?_of_find_missing {root : SourcePath}
    (hroot : t.isDirectory (root.join ⟨"."⟩) = true)
    (h : t.find (ofRoot root).directory = .error .missing) :
    t.root.get? (t.placeOf (ofRoot root).directory) = none := by
  obtain ⟨parts, hdot, hway⟩ := exists_ways t root
  obtain ⟨base, hbase⟩ := exists_walk_of_dot hdot hroot
  have hnames : ∀ part ∈ ["build", ".parsecache"], IsName part := by
    unfold IsName
    decide
  have hend : ["build", ".parsecache"].foldl stepPart base = base ++ ["build", ".parsecache"] := by
    simp [stepPart]
  have hplace := foldl_wayTo t (ofRoot root).directory
  rw [hway, List.foldl_append, ← walk_eq_ok hbase, hend] at hplace
  rw [← hplace]
  have hmissing := walk_of_find_missing (directory_ne_nil root) h
  rw [hway, walk_append, hbase] at hmissing
  rcases hmissing with hmissing | ⟨place, hwalk, hnone⟩
  · exact get?_of_walk_missing hnames hmissing
  · rwa [← hend, ← walk_eq_ok hwalk]

/-- Clearing removes the directory, and it does not matter if that is missing. -/
theorem run_clear (c : DiskCache) (t : FileTree) :
    let removed := (removeTree c.directory).run t
    let cleared := (c.clear : StateM FileTree (Except ScanError Unit)).run t
    cleared.2 = removed.2 ∧
      (cleared.1 = .ok () → removed.1 = .ok () ∨ removed.1 = .error .missing) := by
  unfold clear
  generalize c.directory = directory
  have hremove : (FileAccess.removeTree directory : StateM FileTree _).run t =
      (removeTree directory).run t := rfl
  rw [run_bind, hremove]
  generalize (removeTree directory).run t = removed
  obtain ⟨outcome, last⟩ := removed
  cases outcome with
  | ok => exact ⟨rfl, fun _ => Or.inl rfl⟩
  | error e =>
    cases e with
    | missing => exact ⟨rfl, fun _ => Or.inr rfl⟩
    | _ => exact ⟨rfl, fun h => by simp at h⟩

/-- Once the cache was cleared, no file is left below its directory. -/
theorem fileAt?_clear {root : SourcePath} (hroot : t.isDirectory (root.join ⟨"."⟩) = true)
    (h : (((ofRoot root).clear : StateM FileTree (Except ScanError Unit)).run t).1 = .ok ()) :
    let t' := (((ofRoot root).clear : StateM FileTree (Except ScanError Unit)).run t).2
    t'.workingDirectory = t.workingDirectory ∧
      ∀ rest, t'.fileAt? (t.placeOf (ofRoot root).directory ++ rest) = none := by
  have hmissing := get?_of_find_missing hroot
  obtain ⟨hlast, houtcome⟩ := run_clear (ofRoot root) t
  rw [hlast]
  have houtcome := houtcome h
  generalize (ofRoot root).directory = directory at hmissing houtcome ⊢
  by_cases hfound : ∃ place entries, t.find directory = .ok (place, .directory entries)
  · obtain ⟨place, entries, hfind⟩ := hfound
    obtain ⟨hloses, hnone⟩ := fileAt?_removeTree hfind
    rw [← (placeOf_of_find hfind).1]
    exact ⟨hloses.workingDirectory, hnone⟩
  · have hnone : ∀ place entries, t.find directory ≠ .ok (place, .directory entries) :=
      fun place entries hfind => hfound ⟨place, entries, hfind⟩
    rw [run_removeTree_of_not_directory hnone] at houtcome ⊢
    refine ⟨rfl, fun rest => ?_⟩
    have hcause : t.find directory = .error .missing := by
      cases hfind : t.find directory with
      | error e => simpa [hfind] using houtcome
      | ok found => simp [hfind] at houtcome
    rw [fileAt?, Node.get?_append, hmissing hcause]
    rfl

/-- Clearing changes no file but takes some away, whatever comes of it. -/
theorem loses_clear (c : DiskCache) (t : FileTree) :
    Loses t ((c.clear : StateM FileTree (Except ScanError Unit)).run t).2 := by
  rw [(run_clear c t).1]
  by_cases hfound : ∃ place entries, t.find c.directory = .ok (place, .directory entries)
  · obtain ⟨place, entries, hfind⟩ := hfound
    exact (fileAt?_removeTree hfind).1
  · rw [run_removeTree_of_not_directory fun place entries hfind => hfound ⟨place, entries, hfind⟩]
    exact .refl t

end DiskCache

end CBoundary
