import CBoundary.FileTree
import CBoundary.Proofs.PathParts

/-!
Where paths lead in a file tree. The names of a path say which place it leads to, if it leads
anywhere: what is in the tree only decides whether it does. So what can be read through a path is
what is at its place, and a change of the tree can be described by what it changes at each place.
Main statements: `placeOf_of_find` and `placeOf_of_locate` for paths, `fileAt?_write` and
`fileAt?_removeTree` for changes.
-/
namespace CBoundary.FileTree

namespace Node

/-- What is at a place below a node. -/
def get? : Place → Node → Option Node
  | [], node => some node
  | _ :: _, .file _ _ => none
  | name :: place, .directory entries => (entries.lookup name).bind (get? place)

/-- The content of a file and when it was last changed. -/
def file? : Node → Option (Bytes × Timestamp)
  | .file content time => some (content, time)
  | .directory _ => none

variable {root node : Node} {place rest : Place}

theorem get?_append (front back : Place) (node : Node) :
    node.get? (front ++ back) = (node.get? front).bind (get? back) := by
  induction front generalizing node with
  | nil => rfl
  | cons name front ih =>
    cases node with
    | file => rfl
    | directory entries =>
      cases hentry : entries.lookup name with
      | none => simp [get?, hentry]
      | some next => simpa [get?, hentry] using ih next

/-- Below a place where something is, there are directories only. -/
theorem isDirectory_of_get? {name : String} (h : (root.get? (place ++ [name])).isSome = true) :
    ∃ entries, root.get? place = some (.directory entries) := by
  rw [get?_append] at h
  cases hplace : root.get? place with
  | none => simp [hplace] at h
  | some node =>
    cases node with
    | file => simp [hplace, get?] at h
    | directory entries => exact ⟨entries, rfl⟩

theorem lookup_map_snd (f : String → Node → Node) (entries : List (String × Node))
    (name : String) :
    (entries.map fun (other, node) => (other, f other node)).lookup name =
      (entries.lookup name).map (f name) := by
  induction entries with
  | nil => rfl
  | cons entry entries ih =>
    obtain ⟨other, node⟩ := entry
    by_cases hname : name = other
    · subst hname
      simp
    · have hne : (name == other) = false := by simpa using hname
      simp only [List.map_cons, List.lookup_cons, hne, ih]

mutual

/-- The contents of the files at and below a node. -/
def contents : Node → List Bytes
  | .file content _ => [content]
  | .directory entries => contentsAmong entries

def contentsAmong : List (String × Node) → List Bytes
  | [] => []
  | (_, node) :: rest => contents node ++ contentsAmong rest

end

theorem contents_subset_of_lookup {entries : List (String × Node)} {name : String}
    (h : entries.lookup name = some node) : node.contents ⊆ contentsAmong entries := by
  induction entries with
  | nil => simp at h
  | cons entry entries ih =>
    obtain ⟨other, first⟩ := entry
    rw [contentsAmong]
    by_cases hname : name = other
    · subst hname
      obtain rfl : first = node := by simpa using h
      exact List.subset_append_left _ _
    · have hne : (name == other) = false := by simpa using hname
      rw [List.lookup_cons, hne] at h
      exact List.Subset.trans (ih h) (List.subset_append_right _ _)

/-- Wherever there is a file, its content is among these. -/
theorem mem_contents_of_file? {content : Bytes} {time : Timestamp}
    (h : (node.get? place).bind file? = some (content, time)) : content ∈ node.contents := by
  induction place generalizing node with
  | nil =>
    cases node with
    | file =>
      obtain ⟨rfl, -⟩ := Prod.mk.inj (Option.some.inj h)
      exact List.mem_singleton_self _
    | directory => simp [get?, file?] at h
  | cons name place ih =>
    cases node with
    | file => simp [get?] at h
    | directory entries =>
      cases hentry : entries.lookup name with
      | none => simp [get?, hentry] at h
      | some next => exact contents_subset_of_lookup hentry (ih (by simpa [get?, hentry] using h))

/-- At and below the place of a change is what the change makes. -/
theorem get?_modifyAt (f : Node → Node) (place rest : Place) (root : Node) :
    (root.modifyAt f place).get? (place ++ rest) = ((root.get? place).map f).bind (get? rest) := by
  induction place generalizing root with
  | nil => rfl
  | cons name place ih =>
    cases root with
    | file => rfl
    | directory entries =>
      have hlookup := lookup_map_snd
        (fun other node => if other == name then modifyAt f place node else node) entries name
      simp only [modifyAt, List.cons_append, get?, hlookup]
      cases hentry : entries.lookup name with
      | none => simp
      | some next => simpa using ih next

/-- Elsewhere, directories are directories still, and files are what they were. -/
theorem map_file?_modifyAt {f : Node → Node} {place other : Place} (h : ¬ place <+: other)
    (root : Node) :
    ((root.modifyAt f place).get? other).map file? = (root.get? other).map file? := by
  induction place generalizing root other with
  | nil => exact absurd List.nil_prefix h
  | cons name place ih =>
    cases root with
    | file => rfl
    | directory entries =>
      cases other with
      | nil => rfl
      | cons first other =>
        have hlookup := lookup_map_snd
          (fun other node => if other == name then modifyAt f place node else node) entries first
        simp only [modifyAt, get?, hlookup]
        cases hentry : entries.lookup first with
        | none => rfl
        | some next =>
          by_cases hname : first = name
          · subst hname
            have hrest : ¬ place <+: other := fun hpre =>
              h ((List.prefix_cons_inj first).2 hpre)
            simpa using ih hrest next
          · have hne : (first == name) = false := by simpa using hname
            simp [hne]

theorem lookup_filter_ne (entries : List (String × Node)) {name other : String}
    (h : other ≠ name) : (entries.filter (·.1 != name)).lookup other = entries.lookup other := by
  induction entries with
  | nil => rfl
  | cons entry entries ih =>
    obtain ⟨first, node⟩ := entry
    by_cases hfirst : first = name
    · subst hfirst
      have hne : (other == first) = false := by simpa using h
      simp only [List.lookup_cons, hne]
      simpa using ih
    · simp [hfirst, List.lookup_cons, ih]

theorem lookup_filter_self (entries : List (String × Node)) (name : String) :
    (entries.filter (·.1 != name)).lookup name = none := by
  refine List.lookup_eq_none_iff.2 fun entry hentry => ?_
  have hne : entry.1 ≠ name := by simpa using (List.mem_filter.1 hentry).2
  simpa using hne.symm

/-- What is below an entry that was set, and below the others. -/
theorem get?_setEntry (entries : List (String × Node)) (name other : String)
    (node? : Option Node) (rest : Place) :
    ((directory entries).setEntry name node?).get? (other :: rest) =
      (if other = name then node? else entries.lookup other).bind (get? rest) := by
  rw [setEntry, get?, List.lookup_append]
  by_cases hother : other = name
  · subst hother
    rw [lookup_filter_self, if_pos rfl]
    cases node? <;> simp
  · have hne : (other == name) = false := by simpa using hother
    rw [lookup_filter_ne entries hother, if_neg hother]
    cases node? <;> simp [List.lookup_cons, hne]

end Node

variable {t : FileTree} {place other : Place} {path : SourcePath}

/-- The file at a place, if there is one. -/
def fileAt? (t : FileTree) (place : Place) : Option (Bytes × Timestamp) :=
  (t.root.get? place).bind Node.file?

theorem fileAt?_congr {t' : FileTree}
    (h : (t'.root.get? place).map Node.file? = (t.root.get? place).map Node.file?) :
    t'.fileAt? place = t.fileAt? place := by
  have hfile := congrArg (Option.bind · id) h
  rwa [Option.bind_map, Option.bind_map] at hfile

/-- Is there a directory at the place? -/
def DirectoryAt (t : FileTree) (place : Place) : Prop :=
  ∃ entries, t.root.get? place = some (.directory entries)

theorem directoryAt_iff : t.DirectoryAt place ↔ (t.root.get? place).map Node.file? = some none := by
  unfold DirectoryAt
  rcases t.root.get? place with - | ⟨content, time⟩ | ⟨entries⟩ <;> simp [Node.file?]

theorem root_put (t : FileTree) (front : Place) (name : String) (node? : Option Node) :
    (t.put (front ++ [name]) node?).root = t.root.modifyAt (·.setEntry name node?) front := by
  simp [put]

section Put

variable {front : Place} {name : String} {entries : List (String × Node)}

/-- What a change of one place puts at and below it. -/
theorem fileAt?_put_append (hfront : t.root.get? front = some (.directory entries))
    (node? : Option Node) (rest : Place) :
    (t.put (front ++ [name]) node?).fileAt? (front ++ [name] ++ rest) =
      (node?.bind (Node.get? rest)).bind Node.file? := by
  rw [fileAt?, root_put, List.append_assoc, List.singleton_append, Node.get?_modifyAt, hfront,
    Option.map_some, Option.bind_some, Node.get?_setEntry, if_pos rfl]

/-- All else is a directory still, or the file that it was. -/
theorem map_file?_put_elsewhere (hfront : t.root.get? front = some (.directory entries))
    (node? : Option Node) (hother : ¬ front ++ [name] <+: other) :
    ((t.put (front ++ [name]) node?).root.get? other).map Node.file? =
      (t.root.get? other).map Node.file? := by
  rw [root_put]
  by_cases hbelow : front <+: other
  · obtain ⟨rest, rfl⟩ := hbelow
    rw [Node.get?_modifyAt, Node.get?_append, hfront, Option.map_some, Option.bind_some,
      Option.bind_some]
    cases rest with
    | nil => rfl
    | cons first rest =>
      have hfirst : first ≠ name := by
        rintro rfl
        exact hother ⟨rest, by simp⟩
      rw [Node.get?_setEntry, if_neg hfirst]
      rfl
  · exact Node.map_file?_modifyAt hbelow _

/-- All other files are as they were. -/
theorem fileAt?_put_elsewhere (hfront : t.root.get? front = some (.directory entries))
    (node? : Option Node) (hother : ¬ front ++ [name] <+: other) :
    (t.put (front ++ [name]) node?).fileAt? other = t.fileAt? other :=
  fileAt?_congr (map_file?_put_elsewhere hfront node? hother)

/-- No directory is lost where something is put that was none. -/
theorem DirectoryAt.put (hfront : t.root.get? front = some (.directory entries))
    (hnone : ¬ t.DirectoryAt (front ++ [name])) (node? : Option Node) (h : t.DirectoryAt other) :
    (t.put (front ++ [name]) node?).DirectoryAt other := by
  by_cases hbelow : front ++ [name] <+: other
  · obtain ⟨rest, rfl⟩ := hbelow
    obtain ⟨entries, hentries⟩ := h
    rw [Node.get?_append] at hentries
    cases hnode : t.root.get? (front ++ [name]) with
    | none => simp [hnode] at hentries
    | some node =>
      cases node with
      | file => cases rest <;> simp [hnode, Node.get?] at hentries
      | directory entries => exact absurd ⟨entries, hnode⟩ hnone
  · rwa [directoryAt_iff, map_file?_put_elsewhere hfront node? hbelow, ← directoryAt_iff]

end Put

/-- The place that a part of a path leads to. -/
def stepPart (place : Place) (part : String) : Place :=
  if part == "" || part == "." then place
  else if part == ".." then place.dropLast
  else place ++ [part]

/-- The place that a component of a path leads to. -/
def stepComponent (place : Place) : SourcePath.Component → Place
  | .root => []
  | .here => place
  | .up => place.dropLast
  | .name text => place ++ [text]

/-- The place that the components of a path lead to, if it can be followed. -/
def placeOf (t : FileTree) (path : SourcePath) : Place :=
  path.route.foldl stepComponent (t.workingDirectory.foldl stepPart [])

/-- Follows the parts of a path from place to place. -/
def walk (t : FileTree) (place : Place) : List String → Except IoError Place
  | [] => .ok place
  | part :: rest =>
      match t.root.get? place with
      | none => .error .missing
      | some (.file _ _) => .error .notDirectory
      | some (.directory _) =>
          if part == "" || part == "." then walk t place rest
          else if part == ".." then walk t place.dropLast rest
          else if nameLimit < part.utf8ByteSize then .error .nameTooLong
          else walk t (place ++ [part]) rest

/-- The way says of each of its places what is there. -/
def Trail.Right (root : Node) : Trail → Prop
  | [] => True
  | (name, node?) :: trail =>
      node? = root.get? (Trail.place ((name, node?) :: trail)) ∧ Trail.Right root trail

theorem Trail.Right.node?_eq {root : Node} {trail : Trail} (h : trail.Right root) :
    trail.node? root = root.get? trail.place := by
  cases trail with
  | nil => rfl
  | cons entry trail => exact h.1

theorem Trail.place_cons (name : String) (node? : Option Node) (trail : Trail) :
    Trail.place ((name, node?) :: trail) = trail.place ++ [name] := by
  simp [Trail.place]

theorem Trail.place_tail (trail : Trail) : Trail.place trail.tail = trail.place.dropLast := by
  cases trail with
  | nil => rfl
  | cons entry trail => simp [Trail.place]

theorem Trail.Right.tail {root : Node} {trail : Trail} (h : trail.Right root) :
    Trail.Right root trail.tail := by
  cases trail with
  | nil => trivial
  | cons entry trail => exact h.2

/-- Following a way is following its places. -/
theorem follow_eq {trail : Trail} (h : trail.Right t.root) (parts : List String) :
    (∃ last, t.follow trail parts = .ok last ∧ Trail.Right t.root last ∧
      t.walk trail.place parts = .ok last.place) ∨
    ∃ e, t.follow trail parts = .error e ∧ t.walk trail.place parts = .error e := by
  induction parts generalizing trail with
  | nil => exact Or.inl ⟨trail, rfl, h, rfl⟩
  | cons part parts ih =>
    rw [follow, walk, h.node?_eq]
    rcases hnode : t.root.get? trail.place with - | ⟨content, time⟩ | ⟨entries⟩
    · exact Or.inr ⟨_, rfl, rfl⟩
    · exact Or.inr ⟨_, rfl, rfl⟩
    · have hnext : Trail.Right t.root ((part, entries.lookup part) :: trail) := by
        refine ⟨?_, h⟩
        rw [Trail.place_cons, Node.get?_append, hnode]
        cases hentry : entries.lookup part <;> simp [Node.get?, hentry]
      have hnamed := ih hnext
      rw [Trail.place_cons] at hnamed
      have hup := ih h.tail
      rw [Trail.place_tail] at hup
      simp only
      split_ifs
      · exact ih h
      · exact hup
      · exact Or.inr ⟨_, rfl, rfl⟩
      · exact hnamed

theorem walk_append (t : FileTree) (place : Place) (front back : List String) :
    t.walk place (front ++ back) =
      (t.walk place front).bind fun between => t.walk between back := by
  induction front generalizing place with
  | nil => rfl
  | cons part front ih =>
    rw [List.cons_append, walk, walk]
    rcases t.root.get? place with - | ⟨content, time⟩ | ⟨entries⟩
    · rfl
    · rfl
    · simp only
      split_ifs
      · exact ih _
      · exact ih _
      · rfl
      · exact ih _

/-- Where a path leads to does not depend on the tree. -/
theorem walk_eq_ok {last : Place} {parts : List String} (h : t.walk place parts = .ok last) :
    last = parts.foldl stepPart place := by
  induction parts generalizing place with
  | nil => exact (Except.ok.inj h).symm
  | cons part parts ih =>
    rw [walk] at h
    rw [List.foldl_cons, stepPart]
    split at h
    · simp at h
    · simp at h
    · split_ifs at h ⊢
      · exact ih h
      · exact ih h
      · exact ih h

/-- A part that is followed by name. -/
def IsName (part : String) : Prop := part ≠ "" ∧ part ≠ "." ∧ part ≠ ".."

theorem walk_name {entries : List (String × Node)}
    (hplace : t.root.get? place = some (.directory entries)) {part : String} (hpart : IsName part)
    (rest : List String) :
    t.walk place (part :: rest) =
      if nameLimit < part.utf8ByteSize then .error .nameTooLong
      else t.walk (place ++ [part]) rest := by
  obtain ⟨hempty, hdot, hup⟩ := hpart
  rw [walk, hplace]
  simp [hempty, hdot, hup]

/-- If a way of names breaks off for want of a name, nothing is at its end. -/
theorem get?_of_walk_missing {names : List String} (hnames : ∀ part ∈ names, IsName part)
    (h : t.walk place names = .error .missing) : t.root.get? (place ++ names) = none := by
  induction names generalizing place with
  | nil => simp [walk] at h
  | cons part names ih =>
    rw [Node.get?_append]
    rcases hplace : t.root.get? place with - | ⟨content, time⟩ | ⟨entries⟩
    · rfl
    · simp [walk, hplace] at h
    · rw [walk_name hplace (hnames part List.mem_cons_self)] at h
      split at h
      · simp at h
      · have hrest := ih (fun other hother => hnames other (List.mem_cons_of_mem part hother)) h
        rwa [List.append_assoc, List.singleton_append, Node.get?_append, hplace] at hrest

/-- The place is the root, or there is a directory around it. -/
def Held (t : FileTree) (place : Place) : Prop :=
  ∀ front name, place = front ++ [name] → ∃ entries, t.root.get? front = some (.directory entries)

theorem held_nil (t : FileTree) : t.Held [] := fun front name h => by simp at h

theorem Held.walk {last : Place} {parts : List String} (h : t.walk place parts = .ok last)
    (hheld : t.Held place) : t.Held last := by
  induction parts generalizing place with
  | nil => exact Except.ok.inj h ▸ hheld
  | cons part parts ih =>
    rw [FileTree.walk] at h
    split at h
    · simp at h
    · simp at h
    · rename_i entries hplace
      have hup : t.Held place.dropLast := by
        intro front name heq
        have hne : place ≠ [] := by
          rintro rfl
          simp at heq
        have hsplit := List.dropLast_concat_getLast hne
        rw [heq] at hsplit
        rw [← hsplit] at hplace
        obtain ⟨between, hbetween⟩ := Node.isDirectory_of_get? (Option.isSome_of_eq_some hplace)
        exact Node.isDirectory_of_get? (Option.isSome_of_eq_some hbetween)
      have hdown : t.Held (place ++ [part]) := by
        intro front name heq
        obtain ⟨rfl, -⟩ := List.append_inj' heq rfl
        exact ⟨entries, hplace⟩
      split_ifs at h
      · exact ih h hheld
      · exact ih h hup
      · exact ih h hdown

theorem stepPart_ofList (place : Place) (part : List Char) :
    stepPart place (String.ofList part) =
      (SourcePath.componentOf? part).elim place (stepComponent place) := by
  have heq (text : String) : (String.ofList part == text) = (part == text.toList) := by
    rw [Bool.eq_iff_iff, beq_iff_eq, beq_iff_eq, ← String.toList_inj, String.toList_ofList]
  have hdot : ".".toList = ['.'] := rfl
  have hup : "..".toList = ['.', '.'] := rfl
  simp only [stepPart, SourcePath.componentOf?, heq, hdot, hup]
  cases part with
  | nil => rfl
  | cons c part =>
    have hempty : (c :: part == "".toList) = false := rfl
    simp only [hempty, Bool.false_or, List.isEmpty_cons]
    split_ifs <;> rfl

theorem foldl_stepPart (place : Place) (text : List Char) :
    ((SourcePath.splitAtSlashes text).map String.ofList).foldl stepPart place =
      (SourcePath.names text).foldl stepComponent place := by
  rw [SourcePath.names]
  induction SourcePath.splitAtSlashes text generalizing place with
  | nil => rfl
  | cons part parts ih =>
    rw [List.map_cons, List.foldl_cons, ih, stepPart_ofList, List.filterMap_cons]
    cases SourcePath.componentOf? part <;> rfl

theorem partsOf_eq_ok {parts : List String} (h : partsOf path = .ok parts) :
    parts = (SourcePath.splitAtSlashes path.text.toList).map String.ofList := by
  unfold partsOf at h
  simp only at h
  split_ifs at h
  exact (Except.ok.inj h).symm

theorem find_eq (t : FileTree) (path : SourcePath) :
    t.find path = (partsOf path).bind fun parts => (t.walk [] (t.origin path ++ parts)).bind
      fun place => match t.root.get? place with
        | some node => .ok (place, node)
        | none => .error .missing := by
  unfold find
  cases hparts : partsOf path with
  | error e => rfl
  | ok parts =>
    have hstart : Trail.Right t.root [] := trivial
    rcases follow_eq hstart (t.origin path ++ parts) with
      ⟨last, hfollow, hright, hwalk⟩ | ⟨e, hfollow, hwalk⟩
    · have hwalk : t.walk [] (t.origin path ++ parts) = .ok last.place := hwalk
      cases hnode : t.root.get? last.place with
      | none | some =>
        simp only [bind, Except.bind, pure, Except.pure, hfollow, hwalk, hright.node?_eq, hnode]
    · have hwalk : t.walk [] (t.origin path ++ parts) = .error e := hwalk
      simp only [bind, Except.bind, hfollow, hwalk]

/-- Slashes at the end of a path lead nowhere. -/
theorem foldl_withoutEnd (place : Place) (parts : List String) :
    (withoutEnd parts).foldl stepPart place = parts.foldl stepPart place := by
  have hsplit : withoutEnd parts ++ (parts.reverse.takeWhile (· == "")).reverse = parts := by
    rw [withoutEnd, ← List.reverse_append, List.takeWhile_append_dropWhile, List.reverse_reverse]
  have hstay (place : Place) {ends : List String} (h : ∀ part ∈ ends, part = "") :
      ends.foldl stepPart place = place := by
    induction ends with
    | nil => rfl
    | cons part ends ih =>
      obtain rfl := h part List.mem_cons_self
      exact ih fun part hpart => h part (List.mem_cons_of_mem _ hpart)
  have hends : ∀ part ∈ (parts.reverse.takeWhile (· == "")).reverse, part = "" := by
    intro part hpart
    simpa using List.mem_takeWhile_imp (List.mem_reverse.1 hpart)
  have hfold := congrArg (List.foldl stepPart place) hsplit
  rwa [List.foldl_append, hstay _ hends] at hfold

/-- The parts of a path, from where it starts. -/
def wayTo (t : FileTree) (path : SourcePath) : List String :=
  t.origin path ++ (SourcePath.splitAtSlashes path.text.toList).map String.ofList

theorem foldl_wayTo (t : FileTree) (path : SourcePath) :
    (t.wayTo path).foldl stepPart [] = t.placeOf path := by
  rw [wayTo, List.foldl_append, foldl_stepPart, placeOf, SourcePath.route, origin]
  cases path.isAbsolute <;> simp [stepComponent]

theorem walk_of_find {node : Node} (h : t.find path = .ok (place, node)) :
    t.walk [] (t.wayTo path) = .ok place ∧ t.root.get? place = some node := by
  rw [find_eq] at h
  cases hparts : partsOf path with
  | error e => simp [hparts, Except.bind] at h
  | ok parts =>
    rw [wayTo, ← partsOf_eq_ok hparts]
    cases hwalk : t.walk [] (t.origin path ++ parts) with
    | error e => simp [hparts, hwalk, Except.bind] at h
    | ok last =>
      cases hnode : t.root.get? last with
      | none => simp [hparts, hwalk, hnode, Except.bind] at h
      | some found =>
        obtain ⟨rfl, rfl⟩ : last = place ∧ found = node := by
          simpa [hparts, hwalk, hnode, Except.bind] using h
        exact ⟨rfl, hnode⟩

/-- If a directory is reached through a dot, the parts in front of the dot lead somewhere. -/
theorem exists_walk_of_dot {parts : List String} (hway : t.wayTo path = parts ++ ["."])
    (h : t.isDirectory path = true) : ∃ base, t.walk [] parts = .ok base := by
  cases hfind : t.find path with
  | error e => simp [isDirectory, hfind] at h
  | ok found =>
    obtain ⟨hwalk, -⟩ := walk_of_find hfind
    rw [hway, walk_append] at hwalk
    cases hbase : t.walk [] parts with
    | error e => simp [hbase, Except.bind] at hwalk
    | ok base => exact ⟨base, rfl⟩

/-- Why a path that is not empty leads to nothing. -/
theorem walk_of_find_missing (hne : path.text.toList ≠ []) (h : t.find path = .error .missing) :
    t.walk [] (t.wayTo path) = .error .missing ∨
      ∃ place, t.walk [] (t.wayTo path) = .ok place ∧ t.root.get? place = none := by
  rw [find_eq] at h
  cases hparts : partsOf path with
  | error e =>
    rw [hparts] at h
    obtain rfl : e = .missing := by simpa [Except.bind] using h
    unfold partsOf at hparts
    simp only [List.isEmpty_iff, hne, if_false] at hparts
    split_ifs at hparts <;> simp at hparts
  | ok parts =>
    rw [wayTo, ← partsOf_eq_ok hparts]
    cases hwalk : t.walk [] (t.origin path ++ parts) with
    | error e =>
      obtain rfl : e = .missing := by simpa [hparts, hwalk, Except.bind] using h
      exact Or.inl rfl
    | ok last =>
      cases hnode : t.root.get? last with
      | none => exact Or.inr ⟨last, rfl, hnode⟩
      | some found => simp [hparts, hwalk, hnode, Except.bind] at h

/-- A path that can be followed leads to its place. -/
theorem placeOf_of_find {node : Node} (h : t.find path = .ok (place, node)) :
    place = t.placeOf path ∧ t.root.get? place = some node := by
  obtain ⟨hwalk, hnode⟩ := walk_of_find h
  exact ⟨(walk_eq_ok hwalk).trans (foldl_wayTo t path), hnode⟩

/-- What is made, written or removed is at the place of its path, with a directory around it. -/
theorem placeOf_of_locate {node? : Option Node} {last : Option String}
    (h : t.locate path = .ok (place, node?, last)) :
    place = t.placeOf path ∧ t.root.get? place = node? ∧ t.Held place := by
  unfold locate at h
  cases hparts : partsOf path with
  | error e => simp [hparts, bind, Except.bind] at h
  | ok parts =>
    have hstart : Trail.Right t.root [] := trivial
    rcases follow_eq hstart (t.origin path ++ withoutEnd parts) with
      ⟨trail, hfollow, hright, hwalk⟩ | ⟨e, hfollow, hwalk⟩
    · have hwalk : t.walk [] (t.origin path ++ withoutEnd parts) = .ok trail.place := hwalk
      have hplace := walk_eq_ok hwalk
      rw [List.foldl_append, foldl_withoutEnd, ← List.foldl_append, partsOf_eq_ok hparts, ← wayTo,
        foldl_wayTo] at hplace
      obtain ⟨rfl, rfl, -⟩ : trail.place = place ∧ trail.node? t.root = node? ∧ _ := by
        simpa [hparts, hfollow, bind, Except.bind, pure, Except.pure] using h
      exact ⟨hplace, hright.node?_eq.symm, (held_nil t).walk hwalk⟩
    · simp [hparts, hfollow, bind, Except.bind] at h

theorem fileAt?_of_read {content : Bytes} (h : t.read path = .ok content) :
    ∃ time, t.fileAt? (t.placeOf path) = some (content, time) := by
  unfold read at h
  cases hfind : t.find path with
  | error e => simp [hfind, bind, Except.bind] at h
  | ok found =>
    obtain ⟨place, node⟩ := found
    obtain ⟨rfl, hnode⟩ := placeOf_of_find hfind
    cases node with
    | directory entries => simp [hfind, bind, Except.bind] at h
    | file held time =>
      obtain rfl : held = content := by
        simpa [hfind, bind, Except.bind, pure, Except.pure] using h
      exact ⟨time, by rw [fileAt?, hnode]; rfl⟩

theorem placeOf_congr {t' : FileTree} (h : t'.workingDirectory = t.workingDirectory)
    (path : SourcePath) : t'.placeOf path = t.placeOf path := by
  rw [placeOf, placeOf, h]

theorem workingDirectory_put (t : FileTree) (place : Place) (node? : Option Node) :
    (t.put place node?).workingDirectory = t.workingDirectory ∧
      (t.put place node?).now = t.now := by
  unfold put
  split <;> exact ⟨rfl, rfl⟩

/-- The trees differ at most in that the second one has more directories. -/
structure SameFiles (t t' : FileTree) : Prop where
  workingDirectory : t'.workingDirectory = t.workingDirectory
  now : t'.now = t.now
  directories (place : Place) : t.DirectoryAt place → t'.DirectoryAt place
  files (place : Place) : t'.fileAt? place = t.fileAt? place

theorem SameFiles.refl (t : FileTree) : SameFiles t t := ⟨rfl, rfl, fun _ h => h, fun _ => rfl⟩

theorem SameFiles.trans {t t' t'' : FileTree} (h : SameFiles t t') (h' : SameFiles t' t'') :
    SameFiles t t'' :=
  ⟨h'.workingDirectory.trans h.workingDirectory, h'.now.trans h.now,
    fun place hplace => h'.directories place (h.directories place hplace),
    fun place => (h'.files place).trans (h.files place)⟩

/-- A place is the root or has a name. -/
theorem exists_concat_of_ne_nil (hplace : place ≠ []) : ∃ front name, place = front ++ [name] :=
  ⟨_, _, (List.dropLast_concat_getLast hplace).symm⟩

theorem sameFiles_makeDirectory {t' : FileTree} (h : t.makeDirectory path = .ok t') :
    SameFiles t t' := by
  unfold makeDirectory at h
  cases hlocate : t.locate path with
  | error e => simp [hlocate, bind, Except.bind] at h
  | ok found =>
    obtain ⟨place, node?, last⟩ := found
    cases node? with
    | some node => simp [hlocate, bind, Except.bind] at h
    | none =>
      obtain ⟨-, hnone, hheld⟩ := placeOf_of_locate hlocate
      obtain rfl : t.put place (some (.directory [])) = t' := by
        simpa [hlocate, bind, Except.bind, pure, Except.pure] using h
      have hne : place ≠ [] := by
        rintro rfl
        simp [Node.get?] at hnone
      obtain ⟨front, name, rfl⟩ := exists_concat_of_ne_nil hne
      obtain ⟨entries, hfront⟩ := hheld front name rfl
      obtain ⟨hworking, hnow⟩ := workingDirectory_put t (front ++ [name]) (some (.directory []))
      have hfresh : ¬ t.DirectoryAt (front ++ [name]) := by
        rintro ⟨entries, hentries⟩
        simp [hnone] at hentries
      refine ⟨hworking, hnow, fun other hother => hother.put hfront hfresh _, fun other => ?_⟩
      by_cases hother : front ++ [name] <+: other
      · obtain ⟨rest, rfl⟩ := hother
        rw [fileAt?_put_append hfront, fileAt?, Node.get?_append, hnone]
        cases rest <;> rfl
      · exact fileAt?_put_elsewhere hfront _ hother

/-- A file is written where there is no directory. -/
theorem exists_put_of_write {t' : FileTree} {content : Bytes} (h : t.write path content = .ok t') :
    t.Held (t.placeOf path) ∧ ¬ t.DirectoryAt (t.placeOf path) ∧
      t' = t.put (t.placeOf path) (some (.file content t.now)) := by
  unfold write at h
  cases hlocate : t.locate path with
  | error e => simp [hlocate, bind, Except.bind] at h
  | ok found =>
    obtain ⟨place, node?, last⟩ := found
    obtain ⟨rfl, hnode, hheld⟩ := placeOf_of_locate hlocate
    simp only [hlocate, bind, Except.bind] at h
    split at h
    · simp at h
    · rename_i hfile
      refine ⟨hheld, ?_, (Except.ok.inj h).symm⟩
      rintro ⟨entries, hentries⟩
      obtain rfl := hnode.symm.trans hentries
      simp [Node.isDirectory] at hfile

/-- A file is written at the place of its path. All other files are as they were, and no directory
is lost. -/
theorem fileAt?_write {t' : FileTree} {content : Bytes} (h : t.write path content = .ok t') :
    t'.workingDirectory = t.workingDirectory ∧ t'.now = t.now ∧
      (∀ other, t.DirectoryAt other → t'.DirectoryAt other) ∧ ∀ other,
        t'.fileAt? other = t.fileAt? other ∨
          (other = t.placeOf path ∧ t'.fileAt? other = some (content, t.now)) := by
  obtain ⟨hheld, hnone, rfl⟩ := exists_put_of_write h
  obtain ⟨hworking, hnow⟩ :=
    workingDirectory_put t (t.placeOf path) (some (.file content t.now))
  refine ⟨hworking, hnow, ?_⟩
  generalize t.placeOf path = place at hheld hnone ⊢
  by_cases hne : place = []
  · subst hne
    exact ⟨fun _ hother => hother, fun _ => Or.inl rfl⟩
  · obtain ⟨front, name, rfl⟩ := exists_concat_of_ne_nil hne
    obtain ⟨entries, hfront⟩ := hheld front name rfl
    refine ⟨fun other hother => hother.put hfront hnone _, fun other => ?_⟩
    by_cases hother : front ++ [name] <+: other
    · obtain ⟨rest, rfl⟩ := hother
      rw [fileAt?_put_append hfront]
      cases rest with
      | nil => exact Or.inr ⟨List.append_nil _, rfl⟩
      | cons first rest =>
        -- nothing is below a file, or below what is not there
        refine Or.inl ?_
        rw [fileAt?, Node.get?_append]
        rcases hnode : t.root.get? (front ++ [name]) with - | ⟨held, time⟩ | ⟨entries⟩
        · rfl
        · rfl
        · exact absurd ⟨entries, hnode⟩ hnone
    · exact Or.inl (fileAt?_put_elsewhere hfront _ hother)

/-- A way that can be followed can be followed as long as its directories are there. -/
theorem walk_of_directories {t' : FileTree} {last : Place} {parts : List String}
    (h : ∀ place, t.DirectoryAt place → t'.DirectoryAt place)
    (hwalk : t.walk place parts = .ok last) : t'.walk place parts = .ok last := by
  induction parts generalizing place with
  | nil => exact hwalk
  | cons part parts ih =>
    rw [walk] at hwalk
    split at hwalk
    · simp at hwalk
    · simp at hwalk
    · rename_i entries hplace
      obtain ⟨entries', hplace'⟩ := h place ⟨entries, hplace⟩
      rw [walk, hplace']
      simp only
      split_ifs at hwalk ⊢
      · exact ih hwalk
      · exact ih hwalk
      · exact ih hwalk

/-- What could be read is read again, as long as the file is what it was and no directory was
lost. -/
theorem read_of_fileAt? {t' : FileTree} {content : Bytes}
    (hworking : t'.workingDirectory = t.workingDirectory)
    (hdirectories : ∀ place, t.DirectoryAt place → t'.DirectoryAt place)
    (hfile : t'.fileAt? (t.placeOf path) = t.fileAt? (t.placeOf path))
    (h : t.read path = .ok content) : t'.read path = .ok content := by
  obtain ⟨time, hcontent⟩ := fileAt?_of_read h
  unfold read at h ⊢
  cases hfind : t.find path with
  | error e => simp [hfind, bind, Except.bind] at h
  | ok found =>
    obtain ⟨place, node⟩ := found
    obtain ⟨hwalk, hnode⟩ := walk_of_find hfind
    obtain ⟨rfl, -⟩ := placeOf_of_find hfind
    rw [hcontent, fileAt?] at hfile
    obtain ⟨node', hnode', hfile'⟩ := Option.bind_eq_some_iff.1 hfile
    have hfind' : t'.find path = .ok (t.placeOf path, node') := by
      rw [find_eq] at hfind ⊢
      cases hparts : partsOf path with
      | error e => simp [hparts, Except.bind] at hfind
      | ok parts =>
        have horigin : t'.origin path = t.origin path := by rw [origin, origin, hworking]
        rw [wayTo, ← partsOf_eq_ok hparts, ← horigin] at hwalk
        simp [Except.bind, walk_of_directories hdirectories hwalk, hnode']
    cases node' with
    | directory entries => simp [Node.file?] at hfile'
    | file held time' =>
      obtain ⟨rfl, -⟩ := Prod.mk.inj (Option.some.inj hfile')
      simp [hfind', bind, Except.bind, pure, Except.pure]

/-- The files of a tree are those of another one, or some of them. -/
structure Loses (t t' : FileTree) : Prop where
  workingDirectory : t'.workingDirectory = t.workingDirectory
  files (place : Place) : t'.fileAt? place = t.fileAt? place ∨ t'.fileAt? place = none

theorem Loses.refl (t : FileTree) : Loses t t := ⟨rfl, fun _ => Or.inl rfl⟩

theorem Loses.trans {t t' t'' : FileTree} (h : Loses t t') (h' : Loses t' t'') : Loses t t'' := by
  refine ⟨h'.workingDirectory.trans h.workingDirectory, fun place => ?_⟩
  rcases h'.files place with hlater | hlater
  · exact (h.files place).imp hlater.trans hlater.trans
  · exact Or.inr hlater

/-- No file comes into being when a directory is removed. -/
theorem loses_removeDirectory {t' : FileTree} (h : t.removeDirectory path = .ok t') :
    Loses t t' := by
  unfold removeDirectory at h
  cases hlocate : t.locate path with
  | error e => simp [hlocate, bind, Except.bind] at h
  | ok found =>
    obtain ⟨place, node?, last⟩ := found
    obtain ⟨-, -, hheld⟩ := placeOf_of_locate hlocate
    -- there is just one way to succeed
    obtain rfl : t.put place none = t' := by
      simp only [hlocate, bind, Except.bind] at h
      split at h <;> simp_all [pure, Except.pure]
    refine ⟨(workingDirectory_put t place none).1, fun other => ?_⟩
    by_cases hne : place = []
    · subst hne
      exact Or.inl rfl
    · obtain ⟨front, name, rfl⟩ := exists_concat_of_ne_nil hne
      obtain ⟨entries, hfront⟩ := hheld front name rfl
      by_cases hother : front ++ [name] <+: other
      · obtain ⟨rest, rfl⟩ := hother
        refine Or.inr ?_
        rw [fileAt?_put_append hfront]
        rfl
      · exact Or.inl (fileAt?_put_elsewhere hfront none hother)

/-- Nothing is left at or below a place that is emptied. -/
theorem fileAt?_emptied (t : FileTree) (place rest : Place) :
    (t.emptied place).fileAt? (place ++ rest) = none := by
  rw [fileAt?, emptied, Node.get?_modifyAt]
  cases t.root.get? place with
  | none => rfl
  | some node => cases rest <;> rfl

theorem loses_emptied (t : FileTree) (place : Place) : Loses t (t.emptied place) := by
  refine ⟨rfl, fun other => ?_⟩
  by_cases hbelow : place <+: other
  · obtain ⟨rest, rfl⟩ := hbelow
    exact Or.inr (fileAt?_emptied t place rest)
  · exact Or.inl (fileAt?_congr (Node.map_file?_modifyAt hbelow _))

theorem run_pure {α : Type} (value : α) (t : FileTree) :
    (pure value : StateM FileTree α).run t = (value, t) := rfl

theorem run_bind {α β : Type} (program : StateM FileTree α) (next : α → StateM FileTree β)
    (t : FileTree) :
    (program >>= next).run t = (next (program.run t).1).run (program.run t).2 := rfl

theorem run_change (step : FileTree → Except IoError FileTree) (t : FileTree) :
    (change step).run t = match step t with
      | .ok t' => (.ok (), t')
      | .error e => (.error e, t) := by
  have hget : (get : StateM FileTree FileTree).run t = (t, t) := rfl
  unfold change
  rw [run_bind, hget]
  cases step t <;> rfl

/-- Where a directory is found, nothing is left below its place when it is removed. -/
theorem fileAt?_removeTree {entries : List (String × Node)}
    (h : t.find path = .ok (place, .directory entries)) :
    let last := ((removeTree path).run t).2
    Loses t last ∧ ∀ rest, last.fileAt? (place ++ rest) = none := by
  have hempty := fileAt?_emptied t place
  have hget : (get : StateM FileTree FileTree).run t = (t, t) := rfl
  have hmodify : (modify (·.emptied place) : StateM FileTree PUnit).run t =
      ((), t.emptied place) := rfl
  unfold removeTree
  simp only [run_bind, hget, h, hmodify, run_change]
  cases hremoved : (t.emptied place).removeDirectory path with
  | ok last =>
    have hloses := loses_removeDirectory hremoved
    refine ⟨(loses_emptied t place).trans hloses, fun rest => ?_⟩
    exact (hloses.files (place ++ rest)).elim (fun hsame => hsame.trans (hempty rest)) id
  | error e =>
    cases e
    all_goals exact ⟨loses_emptied t place, hempty⟩

/-- Where no directory is found, removing it fails and changes nothing. -/
theorem run_removeTree_of_not_directory
    (h : ∀ place entries, t.find path ≠ .ok (place, .directory entries)) :
    (removeTree path).run t = (.error (match t.find path with
      | .error e => e
      | .ok _ => .notDirectory), t) := by
  have hget : (get : StateM FileTree FileTree).run t = (t, t) := rfl
  unfold removeTree
  rw [run_bind, hget]
  cases hfind : t.find path with
  | error e => rfl
  | ok found =>
    obtain ⟨place, node⟩ := found
    cases node with
    | file content time => rfl
    | directory entries => exact absurd hfind (h place entries)

/-- The program makes directories at most. -/
def OnlyMakes {α : Type} (program : StateM FileTree α) : Prop :=
  ∀ t : FileTree, SameFiles t (program.run t).2

namespace OnlyMakes

variable {α β : Type}

theorem pure (value : α) : OnlyMakes (Pure.pure value) := SameFiles.refl

theorem bind {program : StateM FileTree α} {next : α → StateM FileTree β} (h : OnlyMakes program)
    (hnext : ∀ value, OnlyMakes (next value)) : OnlyMakes (program >>= next) := fun t =>
  (h t).trans (hnext (program.run t).1 (program.run t).2)

theorem makeDirectory (path : SourcePath) :
    OnlyMakes (FileAccess.makeDirectory path : StateM FileTree (Except IoError Unit)) := by
  intro t
  have hrun : (FileAccess.makeDirectory path : StateM FileTree (Except IoError Unit)).run t =
      (change (·.makeDirectory path)).run t := rfl
  rw [hrun, run_change]
  cases h : t.makeDirectory path with
  | ok t' => exact sameFiles_makeDirectory h
  | error e => exact .refl t

theorem ensureDirectory (path : SourcePath) :
    OnlyMakes (FileAccess.ensureDirectory path : StateM FileTree (Except IoError Unit)) := by
  refine (makeDirectory path).bind fun made => ?_
  cases made with
  | ok => exact .pure _
  | error e =>
    have hasked : OnlyMakes (FileAccess.isDirectory path : StateM FileTree Bool) := SameFiles.refl
    exact hasked.bind fun there => .pure _

theorem ensureDirectories (count : Nat) (path : SourcePath) :
    OnlyMakes
      (FileAccess.ensureDirectories count path : StateM FileTree (Except IoError Unit)) := by
  induction count generalizing path with
  | zero => exact .pure _
  | succ count ih =>
    refine (ensureDirectory path).bind fun made => ?_
    split
    · refine (ih path.parent).bind fun made => ?_
      cases made with
      | ok => exact ensureDirectory path
      | error e => exact .pure _
    · exact .pure _

theorem makeDirectories (path : SourcePath) :
    OnlyMakes (FileAccess.makeDirectories path : StateM FileTree (Except IoError Unit)) :=
  ensureDirectories _ path

end OnlyMakes

end CBoundary.FileTree
