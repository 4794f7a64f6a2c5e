import CBoundary.Proofs.DiskEntry
import CBoundary.Proofs.UnreadableFile

/-!
The entries of the cache on disk. A file is kept under its path below the root, or under its
whole path if it lies elsewhere, and what is kept is a file of that name below the directory of the
cache. So sources have entries of their own, as long as a path below the root is not taken for one
below `/`, nor the other way round, and entries stay in the directory unless two dots lead out of
it. Then no lookup finds what was stored for another file, and none what was there before the cache
was cleared. Main statement: `ProjectScan.entries_apart`.
-/
namespace CBoundary

namespace SourcePath

/-- Do the components lead above where they start, from some names below it? -/
def climbs : Nat → List Component → Bool
  | _, [] => false
  | depth, .up :: rest => depth == 0 || climbs (depth - 1) rest
  | depth, .name _ :: rest => climbs (depth + 1) rest
  | depth, .root :: rest | depth, .here :: rest => climbs depth rest

/-- The path leads to something below the other. -/
def Below (directory path : SourcePath) : Prop :=
  ∃ rest, rest ≠ [] ∧ path.components = directory.components ++ rest ∧ climbs 0 rest = false

theorem climbs_of_append {front back : List Component} {depth : Nat}
    (h : climbs depth (front ++ back) = false) : climbs depth front = false := by
  induction front generalizing depth with
  | nil => rfl
  | cons c front ih =>
    cases c with
    | up =>
      obtain ⟨hdepth, hrest⟩ := Bool.or_eq_false_iff.1 h
      exact Bool.or_eq_false_iff.2 ⟨hdepth, ih hrest⟩
    | name => exact ih h
    | root => exact ih h
    | here => exact ih h

/-- What does not climb does not climb by a further name. -/
theorem climbs_append_name {front : List Component} {depth : Nat}
    (h : climbs depth front = false) (text : String) :
    climbs depth (front ++ [.name text]) = false := by
  induction front generalizing depth with
  | nil => rfl
  | cons c front ih =>
    cases c with
    | up =>
      obtain ⟨hdepth, hrest⟩ := Bool.or_eq_false_iff.1 h
      exact Bool.or_eq_false_iff.2 ⟨hdepth, ih hrest⟩
    | name => exact ih h
    | root => exact ih h
    | here => exact ih h

/-- Components that do not climb lead to a place below where they start. -/
theorem foldl_stepComponent_append {components : List Component} {place : FileTree.Place}
    (h : climbs place.length components = false) (hroot : .root ∉ components)
    (base : FileTree.Place) :
    components.foldl FileTree.stepComponent (base ++ place) =
      base ++ components.foldl FileTree.stepComponent place := by
  induction components generalizing place with
  | nil => rfl
  | cons c components ih =>
    have hrest : .root ∉ components := fun hmem => hroot (List.mem_cons_of_mem c hmem)
    cases c with
    | root => exact absurd List.mem_cons_self hroot
    | here => exact ih h hrest
    | up =>
      obtain ⟨hdepth, hclimbs⟩ := Bool.or_eq_false_iff.1 h
      have hne : place ≠ [] := by
        rintro rfl
        simp at hdepth
      rw [List.foldl_cons, List.foldl_cons, FileTree.stepComponent, FileTree.stepComponent,
        List.dropLast_append_of_ne_nil hne]
      exact ih (by rwa [List.length_dropLast]) hrest
    | name text =>
      rw [List.foldl_cons, List.foldl_cons, FileTree.stepComponent, FileTree.stepComponent,
        List.append_assoc]
      exact ih (by simpa [climbs] using h) hrest

theorem foldl_stepComponent_below {components : List Component}
    (h : climbs 0 components = false) (hroot : .root ∉ components) (base : FileTree.Place) :
    components.foldl FileTree.stepComponent base =
      base ++ components.foldl FileTree.stepComponent [] := by
  have hempty : climbs ([] : FileTree.Place).length components = false := h
  have hbelow := foldl_stepComponent_append hempty hroot base
  rwa [List.append_nil] at hbelow

theorem root_not_mem_names (text : List Char) : .root ∉ names text := fun h =>
  (ne_of_mem_names h).1 rfl

/-- With the ending, any part is a name. -/
theorem componentOf?_ending (last : List Char) :
    componentOf? (last ++ ".scan".toList) =
      some (.name (String.ofList (last ++ ".scan".toList))) := by
  have hlength : (last ++ ".scan".toList).length = last.length + 5 := List.length_append
  have hne {part : List Char} (h : part.length < 5) : (last ++ ".scan".toList == part) = false := by
    refine beq_eq_false_iff_ne.2 ?_
    rintro rfl
    omega
  have hempty : (last ++ ".scan".toList).isEmpty = false :=
    List.isEmpty_eq_false_iff.2 (List.append_ne_nil_of_right_ne_nil last (by decide))
  rw [componentOf?, hempty, hne (by decide : ['.'].length < 5),
    hne (by decide : ['.', '.'].length < 5)]
  rfl

theorem names_ending {last : List Char} (h : '/' ∉ last) :
    names (last ++ ".scan".toList) = [.name (String.ofList (last ++ ".scan".toList))] := by
  have hending : '/' ∉ last ++ ".scan".toList := by
    intro hmem
    rcases List.mem_append.1 hmem with hmem | hmem
    · exact h hmem
    · exact absurd hmem (by decide)
  rw [names_of_not_mem hending, componentOf?_ending]
  rfl

/-- The last part of a text, and the components in front of it. -/
theorem exists_last_part (text : List Char) :
    ∃ front last, names text = front ++ (componentOf? last).toList ∧
      names (text ++ ".scan".toList) =
        front ++ [.name (String.ofList (last ++ ".scan".toList))] := by
  by_cases hslash : '/' ∈ text
  · obtain ⟨back, front, hsplit, hback⟩ :=
      List.eq_append_cons_of_mem (List.mem_reverse.2 hslash)
    have htext : text = front.reverse ++ '/' :: back.reverse := by
      have hreverse := congrArg List.reverse hsplit
      simpa using hreverse
    have hlast : '/' ∉ back.reverse := fun h => hback (List.mem_reverse.1 h)
    refine ⟨names front.reverse, back.reverse, ?_, ?_⟩
    · rw [htext, names_append, names_of_not_mem hlast]
    · rw [htext, List.append_assoc, List.cons_append, names_append, names_ending hlast]
  · refine ⟨[], text, ?_, names_ending hslash⟩
    rw [names_of_not_mem hslash]
    rfl

theorem names_dropWhile_slash (text ending : List Char) :
    names (text.dropWhile (· == '/') ++ ending) = names (text ++ ending) := by
  induction text with
  | nil => rfl
  | cons c text ih =>
    by_cases hc : c = '/'
    · subst hc
      rw [List.dropWhile_cons_of_pos rfl, ih, List.cons_append, names_slash]
    · rw [List.dropWhile_cons_of_neg (by simpa using hc)]

/-- Texts with the same components behind an ending have the same components without it. -/
theorem names_of_ending {text text' : List Char}
    (h : names (text ++ ".scan".toList) = names (text' ++ ".scan".toList)) :
    names text = names text' := by
  obtain ⟨front, last, hnames, hending⟩ := exists_last_part text
  obtain ⟨front', last', hnames', hending'⟩ := exists_last_part text'
  rw [hending, hending'] at h
  obtain ⟨rfl, hlast⟩ := List.append_inj' h rfl
  obtain rfl : last = last' := by
    have htext := Component.name.inj (List.singleton_inj.1 hlast)
    exact List.append_cancel_right (String.ofList_inj.1 htext)
  rw [hnames, hnames']

end SourcePath

namespace DiskCache

open SourcePath

theorem dropWhile_of_start {key : List Char}
    (h : (key.dropWhile (· == '/')).head? ≠ some '\\') :
    (key.dropWhile fun c => c == '/' || c == '\\') = key.dropWhile (· == '/') := by
  induction key with
  | nil => rfl
  | cons c key ih =>
    by_cases hc : c = '/'
    · subst hc
      exact ih h
    · have hslash : (c == '/') = false := by simpa using hc
      rw [List.dropWhile_cons_of_neg (by simp [hslash])] at h
      have hback : (c == '\\') = false := by
        refine beq_eq_false_iff_ne.2 fun hback => h (congrArg some hback)
      simp [hslash, hback]

/-- A file is put below the directory of the cache under the names of its key. -/
theorem exists_entry (c : DiskCache) {key : String}
    (h : (key.toList.dropWhile (· == '/')).head? ≠ some '\\') :
    ∃ file : SourcePath, c.entryPath key = c.directory.join file ∧ file.isAbsolute = false ∧
      names file.text.toList = names (key.toList ++ ".scan".toList) := by
  refine ⟨_, rfl, ?_, ?_⟩
  · rw [isAbsolute, dropWhile_of_start h, String.toList_append, String.toList_ofList]
    have hhead := List.head?_dropWhile_not (· == '/') key.toList
    cases hdrop : key.toList.dropWhile (· == '/') with
    | nil => rfl
    | cons c rest => simpa [hdrop] using hhead
  · rw [dropWhile_of_start h, String.toList_append, String.toList_ofList, names_dropWhile_slash]

end DiskCache

namespace ProjectScan

open SourcePath

variable {config : ModuleConfig} {path path' : SourcePath} {absolute : Bool}

/-- Where the scan of a file is kept. -/
def entryPath (config : ModuleConfig) (path : SourcePath) : SourcePath :=
  (DiskCache.ofRoot config.root).entryPath (cacheKey config path)

/-- What sources are: paths below the root, or absolute ones. -/
def IsSource (config : ModuleConfig) (path : SourcePath) : Prop :=
  path.startsWith config.root = true ∨ path.isAbsolute = true

/-- The names in the key of a file. -/
def keyNames (config : ModuleConfig) (path : SourcePath) : List Component :=
  names (cacheKey config path).toList

/-- A source with a key of one kind, absolute or not, that loses nothing but slashes when it is made
a name of a file: no backslash stands at its start. -/
structure Keyed (config : ModuleConfig) (absolute : Bool) (path : SourcePath) : Prop where
  source : IsSource config path
  kind : (SourcePath.mk (cacheKey config path)).isAbsolute = absolute
  start : ((cacheKey config path).toList.dropWhile (· == '/')).head? ≠ some '\\'

theorem IsSource.join (h : IsSource config path) (name : SourcePath) :
    IsSource config (path.join name) := by
  by_cases hname : name.isAbsolute = true
  · have hjoin : path.join name = name := by rw [SourcePath.join, if_pos hname]
    refine Or.inr ?_
    rwa [hjoin]
  · have hname : name.isAbsolute = false := by simpa using hname
    rcases h with h | h
    · exact Or.inl (startsWith_iff.2 ((startsWith_iff.1 h).trans (components_prefix_join hname)))
    · exact Or.inr ((isAbsolute_join hname).trans h)

theorem isSource_root_join (config : ModuleConfig) (path : SourcePath) :
    IsSource config (config.root.join path) :=
  IsSource.join (Or.inl (startsWith_iff.2 List.prefix_rfl)) path

/-- The route of a source, from the names in its key. -/
theorem Keyed.route_eq (h : Keyed config absolute path) :
    path.route = (if absolute then [.root] else config.root.route) ++ keyNames config path := by
  obtain ⟨hsource, rfl, -⟩ := h
  unfold keyNames cacheKey
  cases hstrip : path.stripStart? config.root with
  | some rest =>
    obtain ⟨hroute, hroot⟩ := route_stripStart? hstrip
    have hrest : rest.route = (if rest.isAbsolute then [.root] else []) ++
        names rest.text.toList := rfl
    rw [hroute, Option.getD_some, hrest]
    cases habsolute : rest.isAbsolute with
    | true => simp [route_eq_components config.root, hroot habsolute]
    | false => simp
  | none =>
    have houtside : path.startsWith config.root = false := by
      unfold stripStart? at hstrip
      split at hstrip
      · simp at hstrip
      · simpa using ‹¬ path.startsWith config.root = true›
    have habsolute : path.isAbsolute = true := by simpa [IsSource, houtside] using hsource
    simp [route, habsolute]

/-- The components of an entry behind those of the directory of the cache. -/
def entryNames (config : ModuleConfig) (path : SourcePath) : List Component :=
  names ((cacheKey config path).toList ++ ".scan".toList)

/-- The components and the route of an entry. -/
theorem Keyed.entryPath_eq (h : Keyed config absolute path) :
    (entryPath config path).components =
        (DiskCache.ofRoot config.root).directory.components ++ entryNames config path ∧
      (entryPath config path).route =
        (DiskCache.ofRoot config.root).directory.route ++ entryNames config path := by
  obtain ⟨file, hentry, hrelative, hnames⟩ :=
    DiskCache.exists_entry (DiskCache.ofRoot config.root) h.start
  rw [entryPath, hentry, components_join (DiskCache.directory_ne_nil config.root) hrelative,
    route_join hrelative, route_of_relative hrelative, hnames]
  exact ⟨rfl, rfl⟩

/-- Sources with the same entry have the same names in their keys. -/
theorem Keyed.keyNames_eq (h : Keyed config absolute path) {absolute' : Bool}
    (h' : Keyed config absolute' path')
    (hentry : (entryPath config path).components = (entryPath config path').components) :
    keyNames config path = keyNames config path' := by
  rw [h.entryPath_eq.1, h'.entryPath_eq.1] at hentry
  exact names_of_ending (List.append_cancel_left hentry)

/-- The names of a key and those of its entry differ in the last part. -/
theorem exists_file_part (config : ModuleConfig) (path : SourcePath) :
    ∃ front last, keyNames config path = front ++ (componentOf? last).toList ∧
      entryNames config path = front ++ [.name (String.ofList (last ++ ".scan".toList))] :=
  exists_last_part _

theorem entryNames_ne_nil (config : ModuleConfig) (path : SourcePath) :
    entryNames config path ≠ [] := by
  obtain ⟨front, last, -, hentry⟩ := exists_file_part config path
  rw [hentry]
  exact List.append_ne_nil_of_right_ne_nil front (by simp)

theorem climbs_entryNames (h : climbs 0 (keyNames config path) = false) :
    climbs 0 (entryNames config path) = false := by
  obtain ⟨front, last, hkey, hentry⟩ := exists_file_part config path
  rw [hkey] at h
  rw [hentry]
  exact climbs_append_name (climbs_of_append h) _

theorem Keyed.below (h : Keyed config absolute path)
    (hclimbs : climbs 0 (keyNames config path) = false) :
    Below (DiskCache.ofRoot config.root).directory (entryPath config path) :=
  ⟨entryNames config path, entryNames_ne_nil config path, h.entryPath_eq.1,
    climbs_entryNames hclimbs⟩

section Tree

open FileTree

variable {tree : FileTree}

theorem placeOf_of_route {q : SourcePath} {names : List Component}
    (h : path.route = q.route ++ names) :
    tree.placeOf path = names.foldl stepComponent (tree.placeOf q) := by
  rw [placeOf, h, List.foldl_append, placeOf]

/-- Where a source is, from the names in its key. -/
theorem Keyed.placeOf_eq (h : Keyed config absolute path) :
    tree.placeOf path = (keyNames config path).foldl stepComponent
      (if absolute then [] else tree.placeOf config.root) := by
  cases absolute with
  | true =>
    rw [placeOf, h.route_eq, if_pos rfl, if_pos rfl]
    rfl
  | false =>
    exact placeOf_of_route h.route_eq

/-- An entry is below the place of the directory of the cache. -/
theorem Keyed.placeOf_entryPath (h : Keyed config absolute path)
    (hclimbs : climbs 0 (keyNames config path) = false) :
    tree.placeOf (entryPath config path) =
      tree.placeOf (DiskCache.ofRoot config.root).directory ++
        (entryNames config path).foldl stepComponent [] := by
  rw [placeOf_of_route h.entryPath_eq.2,
    foldl_stepComponent_below (climbs_entryNames hclimbs) (root_not_mem_names _)]

/-- The components of a key in front of its last part lead from anywhere to the same place below. -/
theorem foldl_front_below {front : List Component} {last : List Char}
    (hkey : keyNames config path = front ++ (componentOf? last).toList)
    (hclimbs : climbs 0 (keyNames config path) = false) (base : FileTree.Place) :
    front.foldl stepComponent base = base ++ front.foldl stepComponent [] := by
  have hroot := root_not_mem_names (cacheKey config path).toList
  rw [← keyNames, hkey] at hroot
  rw [hkey] at hclimbs
  exact foldl_stepComponent_below (climbs_of_append hclimbs)
    (fun hmem => hroot (List.mem_append_left _ hmem)) base

/-- Sources whose entries are at one place are themselves at one place. -/
theorem Keyed.placeOf_eq_of_entryPath (h : Keyed config absolute path)
    (h' : Keyed config absolute path') (hclimbs : climbs 0 (keyNames config path) = false)
    (hclimbs' : climbs 0 (keyNames config path') = false)
    (hentry : tree.placeOf (entryPath config path) = tree.placeOf (entryPath config path')) :
    tree.placeOf path = tree.placeOf path' := by
  obtain ⟨front, last, hkey, hnames⟩ := exists_file_part config path
  obtain ⟨front', last', hkey', hnames'⟩ := exists_file_part config path'
  rw [h.placeOf_entryPath hclimbs, h'.placeOf_entryPath hclimbs'] at hentry
  have hends := List.append_cancel_left hentry
  rw [hnames, hnames', List.foldl_append, List.foldl_append] at hends
  obtain ⟨hfront, hlast⟩ := List.append_inj' hends rfl
  obtain rfl : last = last' :=
    List.append_cancel_right (String.ofList_inj.1 (List.singleton_inj.1 hlast))
  rw [h.placeOf_eq, h'.placeOf_eq, hkey, hkey', List.foldl_append, List.foldl_append,
    foldl_front_below hkey hclimbs, foldl_front_below hkey' hclimbs', hfront]

end Tree

end ProjectScan

namespace CacheWorld

variable {κ α β : Type}

/-- What the program gives back, if it does, is of a kind. -/
def Yields (kind : α → Prop) (program : ExceptT ScanError (StateT κ (StateM FileTree)) α) : Prop :=
  ∀ w value last, CacheWorld.attempt w program = (.ok value, last) → kind value

theorem Yields.pure {kind : α → Prop} {value : α} (h : kind value) :
    Yields kind (Pure.pure value : ExceptT ScanError (StateT κ (StateM FileTree)) α) := by
  intro w value' last hrun
  obtain ⟨hvalue, -⟩ := Prod.mk.inj hrun
  exact Except.ok.inj hvalue ▸ h

theorem Yields.bind {kind : β → Prop} {program : ExceptT ScanError (StateT κ (StateM FileTree)) α}
    {next : α → ExceptT ScanError (StateT κ (StateM FileTree)) β}
    (h : ∀ value, Yields kind (next value)) : Yields kind (program >>= next) := by
  intro w value last hrun
  obtain ⟨between, w', -, hnext⟩ := attempt_bind_eq_ok.1 hrun
  exact h between w' value last hnext

theorem Yields.mapM {kind : β → Prop}
    {step : α → ExceptT ScanError (StateT κ (StateM FileTree)) β}
    (h : ∀ value, Yields kind (step value)) (values : List α) :
    Yields (fun found => ∀ value ∈ found, kind value) (values.mapM step) := by
  induction values with
  | nil => exact .pure (by simp)
  | cons value values ih =>
    intro w found last hrun
    rw [List.mapM_cons] at hrun
    obtain ⟨first, w', hfirst, hrest⟩ := attempt_bind_eq_ok.1 hrun
    obtain ⟨rest, w'', hvalues, hpure⟩ := attempt_bind_eq_ok.1 hrest
    obtain ⟨hfound, -⟩ := Prod.mk.inj hpure
    obtain rfl := Except.ok.inj hfound
    intro value' hvalue'
    rcases List.mem_cons.1 hvalue' with rfl | hmem
    · exact h value w _ _ hfirst
    · exact ih w' rest w'' hvalues value' hmem

end CacheWorld

namespace ProjectScan

open SourcePath FileTree

variable {config : ModuleConfig} {path path' : SourcePath} {absolute : Bool}

theorem yields_sourcesBelow {κ : Type} (depth : Nat) {directory : SourcePath}
    (h : IsSource config directory) :
    CacheWorld.Yields (fun found => ∀ path ∈ found, IsSource config path)
      (sourcesBelow depth directory :
        ExceptT ScanError (StateT κ (StateM FileTree)) (List SourcePath)) := by
  induction depth generalizing directory with
  | zero =>
    intro w found last hrun
    obtain ⟨herror, -⟩ := Prod.mk.inj hrun
    exact absurd herror (by simp)
  | succ depth ih =>
    refine CacheWorld.Yields.bind fun entries => ?_
    intro w found last hrun
    obtain ⟨lists, w', hlists, hpure⟩ := CacheWorld.attempt_bind_eq_ok.1 hrun
    obtain ⟨hfound, -⟩ := Prod.mk.inj hpure
    obtain rfl := Except.ok.inj hfound
    have hyields := @CacheWorld.Yields.mapM _ _ _
      (fun list => ∀ path ∈ list, IsSource config path) _ (fun entry => ?_) entries w lists w'
      hlists
    · intro path hpath
      obtain ⟨list, hlist, hmem⟩ := List.mem_flatten.1 hpath
      exact hyields list hlist path hmem
    · have hjoin := h.join ⟨entry.name⟩
      split
      · exact ih hjoin
      · refine .pure ?_
        intro path hpath
        obtain ⟨-, hmem⟩ := List.mem_ite_nil_right.1 hpath
        rwa [List.mem_singleton.1 hmem]

/-- The files of a project and its extra files are sources. -/
theorem isSource_of_discover {κ : Type} {w last : CacheWorld κ} {paths : List SourcePath}
    (h : w.attempt (discover config) = (.ok paths, last)) (hpath : path ∈ paths) :
    IsSource config path := by
  obtain ⟨found, between, hfound, hpure⟩ := CacheWorld.attempt_bind_eq_ok.1 h
  obtain ⟨hpaths, -⟩ := Prod.mk.inj hpure
  obtain rfl := Except.ok.inj hpaths
  rcases List.mem_append.1 hpath with hextra | hsource
  · obtain ⟨file, -, rfl⟩ := List.mem_map.1 hextra
    exact isSource_root_join config file
  · exact yields_sourcesBelow _ (isSource_root_join config ⟨"src"⟩) w found between hfound path
      (List.mem_mergeSort.1 hsource)

/-- Stores bytes for files, one after the other. -/
def storeAll {m : Type → Type} [Monad m] [FileAccess m] (config : ModuleConfig)
    (stores : List (SourcePath × Bytes)) : m (List (Except ScanError Unit)) :=
  stores.mapM fun s => (DiskCache.ofRoot config.root).store (cacheKey config s.1) s.2

/-- The files after any number of stores are those before, or hold what was stored under them. -/
theorem fileAt?_storeAll (config : ModuleConfig) (stores : List (SourcePath × Bytes))
    (tree : FileTree) :
    let last := ((storeAll config stores : StateM FileTree _).run tree).2
    last.workingDirectory = tree.workingDirectory ∧ ∀ other,
      last.fileAt? other = tree.fileAt? other ∨
        ∃ s ∈ stores, other = tree.placeOf (entryPath config s.1) ∧
          ∃ time, last.fileAt? other = some (s.2, time) := by
  induction stores generalizing tree with
  | nil => exact ⟨rfl, fun other => Or.inl rfl⟩
  | cons s stores ih =>
    obtain ⟨hworking, -, hstored⟩ :=
      DiskCache.fileAt?_store (DiskCache.ofRoot config.root) (cacheKey config s.1) s.2 tree
    unfold storeAll at ih ⊢
    rw [List.mapM_cons, run_bind]
    generalize ((DiskCache.ofRoot config.root).store (cacheKey config s.1) s.2 :
      StateM FileTree _).run tree = between at hworking hstored ⊢
    obtain ⟨hlater, hfiles⟩ := ih between.2
    rw [run_bind]
    refine ⟨hlater.trans hworking, fun other => ?_⟩
    rcases hfiles other with hsame | ⟨later, hlater, hplace, hnew⟩
    · rcases hstored other with hbefore | ⟨hplace, time, hnew⟩
      · exact Or.inl (hsame.trans hbefore)
      · exact Or.inr ⟨s, List.mem_cons_self, hplace, time, hsame.trans hnew⟩
    · refine Or.inr ⟨later, List.mem_cons_of_mem s hlater, ?_, hnew⟩
      rw [hplace, placeOf_congr hworking]

/-- A source whose key does not lead out of the cache. -/
structure Kept (config : ModuleConfig) (absolute : Bool) (path : SourcePath) : Prop
    extends Keyed config absolute path where
  stays : climbs 0 (keyNames config path) = false

/-- Once the cache was cleared, and whatever was stored since, a lookup finds nothing but what was
stored for the same file. -/
theorem Kept.stored_of_lookup {tree : FileTree} (h : Kept config absolute path)
    (hroot : tree.isDirectory (config.root.join ⟨"."⟩) = true)
    (hclear : (((DiskCache.ofRoot config.root).clear : StateM FileTree _).run tree).1 = .ok ())
    {stores : List (SourcePath × Bytes)} (hstores : ∀ s ∈ stores, Kept config absolute s.1)
    {source : Timestamp} {bytes : Bytes}
    (hlookup : (((DiskCache.ofRoot config.root).lookup (cacheKey config path) source :
      StateM FileTree _).run ((storeAll config stores : StateM FileTree _).run
        (((DiskCache.ofRoot config.root).clear : StateM FileTree _).run tree).2).2).1 =
          some bytes) :
    ∃ s ∈ stores, s.2 = bytes ∧ tree.placeOf s.1 = tree.placeOf path := by
  obtain ⟨hcleared, hempty⟩ := DiskCache.fileAt?_clear hroot hclear
  generalize (((DiskCache.ofRoot config.root).clear : StateM FileTree _).run tree).2 = cleared
    at hcleared hempty hlookup
  obtain ⟨hworking, hfiles⟩ := fileAt?_storeAll config stores cleared
  obtain ⟨time, hfile⟩ := DiskCache.fileAt?_of_lookup hlookup
  rw [placeOf_congr (hworking.trans hcleared)] at hfile
  rcases hfiles (tree.placeOf (entryPath config path)) with hsame | ⟨s, hs, hplace, stored, hnew⟩
  · have hnone := hempty ((entryNames config path).foldl stepComponent [])
    rw [← h.placeOf_entryPath h.stays, ← hsame] at hnone
    exact absurd (hfile.symm.trans hnone) (Option.some_ne_none _)
  · rw [placeOf_congr hcleared] at hplace
    obtain ⟨hbytes, -⟩ := Prod.mk.inj (Option.some.inj (hnew.symm.trans hfile))
    exact ⟨s, hs, hbytes, (hstores s hs).placeOf_eq_of_entryPath h.toKeyed (hstores s hs).stays
      h.stays hplace.symm⟩

/-- Two sources with keys of one kind have entries of their own, and the entry of a source whose key
does not climb is below the directory of the cache. So once the cache was cleared, nothing is found
for such a source but what was stored since for the same file. -/
theorem entries_apart (config : ModuleConfig) :
    (∀ absolute path path', Keyed config absolute path → Keyed config absolute path' →
      path.route ≠ path'.route →
        (entryPath config path).components ≠ (entryPath config path').components) ∧
    (∀ absolute path, Kept config absolute path →
      Below (DiskCache.ofRoot config.root).directory (entryPath config path)) ∧
    ∀ absolute (tree : FileTree) (stores : List (SourcePath × Bytes)) path (source : Timestamp),
      tree.isDirectory (config.root.join ⟨"."⟩) = true →
      let cache := DiskCache.ofRoot config.root
      let cleared := (cache.clear : StateM FileTree _).run tree
      let last := (storeAll config stores : StateM FileTree _).run cleared.2
      cleared.1 = .ok () → (∀ s ∈ stores, Kept config absolute s.1) → Kept config absolute path →
        ∀ bytes, ((cache.lookup (cacheKey config path) source : StateM FileTree _).run last.2).1 =
            some bytes →
          ∃ s ∈ stores, s.2 = bytes ∧ tree.placeOf s.1 = tree.placeOf path := by
  refine ⟨?_, ?_, ?_⟩
  · intro absolute path path' h h' hne hentry
    refine hne ?_
    rw [h.route_eq, h'.route_eq, h.keyNames_eq h' hentry]
  · intro absolute path h
    exact h.toKeyed.below h.stays
  · intro absolute tree stores path source hroot cache
    exact fun hclear hstores h bytes hlookup =>
      h.stored_of_lookup hroot hclear hstores hlookup

/-- Two files of a project: their entries differ, that of the second stays in the cache, and what a
lookup finds for it after clearing is what was stored for it. -/
theorem two_sources_apart :
    let config := ModuleConfig.standard ⟨"p"⟩
    let cache := DiskCache.ofRoot config.root
    let a := config.root.join ⟨"a.c"⟩
    let b := config.root.join ⟨"b.c"⟩
    let stores : List (SourcePath × Bytes) := [(a, [1]), (b, [2])]
    let tree : FileTree := ⟨.directory [("p", .directory [("build", .directory
      [(".parsecache", .directory [("c.c.scan", .file [3] ⟨0⟩)])])])], [], ⟨0⟩⟩
    (Kept config false a ∧ Kept config false b ∧
      tree.isDirectory (config.root.join ⟨"."⟩) = true ∧
      ((cache.clear : StateM FileTree _).run tree).1 = .ok () ∧
      ((cache.lookup (cacheKey config b) ⟨0⟩ : StateM FileTree _).run
        ((storeAll config stores : StateM FileTree _).run
          ((cache.clear : StateM FileTree _).run tree).2).2).1 = some [2]) ∧
    (entryPath config a).components ≠ (entryPath config b).components ∧
      Below cache.directory (entryPath config b) ∧
      ∃ s ∈ stores, s.2 = [2] ∧ tree.placeOf s.1 = tree.placeOf b := by
  intro config cache a b stores tree
  have ha : Kept config false a :=
    ⟨⟨isSource_root_join config _, by decide +kernel, by decide +kernel⟩, by decide +kernel⟩
  have hb : Kept config false b :=
    ⟨⟨isSource_root_join config _, by decide +kernel, by decide +kernel⟩, by decide +kernel⟩
  have hroutes : a.route ≠ b.route := by decide +kernel
  have hstores : ∀ s ∈ stores, Kept config false s.1 := by simp [stores, ha, hb]
  have hroot : tree.isDirectory (config.root.join ⟨"."⟩) = true := by decide +kernel
  have hclear : ((cache.clear : StateM FileTree _).run tree).1 = .ok () := by decide +kernel
  have hlookup : ((cache.lookup (cacheKey config b) ⟨0⟩ : StateM FileTree _).run
      ((storeAll config stores : StateM FileTree _).run
        ((cache.clear : StateM FileTree _).run tree).2).2).1 = some [2] := by decide +kernel
  obtain ⟨hne, hbelow, hfound⟩ := entries_apart config
  exact ⟨⟨ha, hb, hroot, hclear, hlookup⟩, hne false a b ha.toKeyed hb.toKeyed hroutes,
    hbelow false b hb, hfound false tree stores b ⟨0⟩ hroot hclear hstores hb _ hlookup⟩

/-- A file below the root and one below `/` share an entry, and two dots lead out of the
directory. -/
theorem shared_entry_and_outside_entry :
    let config := ModuleConfig.standard ⟨"proj"⟩
    let inside := config.root.join ⟨"a.c"⟩
    let absolute := config.root.join ⟨"/a.c"⟩
    let outside := config.root.join ⟨"../x.c"⟩
    IsSource config inside ∧ IsSource config absolute ∧ IsSource config outside ∧
      inside.route ≠ absolute.route ∧
      entryPath config inside = entryPath config absolute ∧
      ¬ Below (DiskCache.ofRoot config.root).directory (entryPath config outside) := by
  intro config inside absolute outside
  refine ⟨isSource_root_join _ _, isSource_root_join _ _, isSource_root_join _ _, by decide +kernel,
    by decide +kernel, ?_⟩
  rintro ⟨rest, -, hrest, hclimbs⟩
  have hentry : (entryPath config outside).components =
      (DiskCache.ofRoot config.root).directory.components ++ [.up, .name "x.c.scan"] := by
    decide +kernel
  rw [hentry] at hrest
  obtain rfl := List.append_cancel_left hrest
  exact absurd hclimbs (by decide)

end ProjectScan

end CBoundary
