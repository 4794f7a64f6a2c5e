import CBoundary.SourcePath
import Mathlib.Data.List.TakeWhile

/-!
Components of paths that are put together and taken apart. A text falls into parts at its slashes,
and the parts that count make up a route, to which a dot at the start of a path adds nothing.
Joining two paths joins their routes, and what is left of a path behind another is the rest of its
route: the texts in between may be cut at slashes and dots that do not count. Main statements:
`route_join` and `route_stripStart?`.
-/
namespace CBoundary.SourcePath

/-- The components that the parts of a text stand for. -/
def names (text : List Char) : List Component := (splitAtSlashes text).filterMap componentOf?

/-- The components of a path but for a dot at its start. -/
def route (p : SourcePath) : List Component :=
  (if p.isAbsolute then [.root] else []) ++ names p.text.toList

theorem splitAtSlashes_ne_nil (text : List Char) : splitAtSlashes text ≠ [] := by
  cases text with
  | nil => exact List.cons_ne_nil _ _
  | cons c rest =>
    rw [splitAtSlashes]
    split
    · exact List.cons_ne_nil _ _
    · split <;> exact List.cons_ne_nil _ _

theorem splitAtSlashes_cons {c : Char} (hc : c ≠ '/') {text part : List Char}
    {parts : List (List Char)} (h : splitAtSlashes text = part :: parts) :
    splitAtSlashes (c :: text) = (c :: part) :: parts := by
  rw [splitAtSlashes, if_neg hc, h]

theorem splitAtSlashes_append (front back : List Char) :
    splitAtSlashes (front ++ '/' :: back) = splitAtSlashes front ++ splitAtSlashes back := by
  induction front with
  | nil => rfl
  | cons c front ih =>
    by_cases hc : c = '/'
    · subst hc
      exact congrArg (List.cons []) ih
    · obtain ⟨part, parts, hparts⟩ := List.exists_cons_of_ne_nil (splitAtSlashes_ne_nil front)
      rw [hparts] at ih
      rw [List.cons_append, splitAtSlashes_cons hc ih, splitAtSlashes_cons hc hparts]
      rfl

theorem splitAtSlashes_of_not_mem {part : List Char} (h : '/' ∉ part) :
    splitAtSlashes part = [part] := by
  induction part with
  | nil => rfl
  | cons c part ih =>
    have hc : c ≠ '/' := fun hc => h (hc ▸ List.mem_cons_self)
    exact splitAtSlashes_cons hc (ih fun hpart => h (List.mem_cons_of_mem c hpart))

/-- A text is its first part, or the first part, a slash and more. -/
theorem takeWhile_behindPart (text : List Char) :
    ('/' ∉ text ∧ text.takeWhile (· != '/') = text ∧ behindPart text = []) ∨
      text = text.takeWhile (· != '/') ++ '/' :: behindPart text := by
  by_cases hslash : '/' ∈ text
  · right
    have hsplit := List.takeWhile_append_dropWhile (p := (· != '/')) (l := text)
    have hhead := List.head?_dropWhile_not (· != '/') text
    cases hdrop : text.dropWhile (· != '/') with
    | nil =>
      have hall := List.dropWhile_eq_nil_iff.1 hdrop '/' hslash
      simp at hall
    | cons c rest =>
      have hc : c = '/' := by simpa [hdrop] using hhead
      rw [behindPart, hdrop, List.drop_one, List.tail_cons]
      rw [hdrop, hc] at hsplit
      exact hsplit.symm
  · left
    have hall : ∀ c ∈ text, (c != '/') = true := fun c hc => by
      simpa using ne_of_mem_of_not_mem hc hslash
    refine ⟨hslash, List.takeWhile_eq_self_iff.2 hall, ?_⟩
    rw [behindPart, List.dropWhile_eq_nil_iff.2 hall, List.drop_nil]

@[simp] theorem names_nil : names [] = [] := rfl

theorem names_append (front back : List Char) :
    names (front ++ '/' :: back) = names front ++ names back := by
  rw [names, splitAtSlashes_append, List.filterMap_append, names, names]

@[simp] theorem names_slash (text : List Char) : names ('/' :: text) = names text :=
  names_append [] text

theorem names_of_not_mem {part : List Char} (h : '/' ∉ part) :
    names part = (componentOf? part).toList := by
  rw [names, splitAtSlashes_of_not_mem h]
  cases hpart : componentOf? part <;> simp [hpart]

/-- A dot in front of a slash or of nothing does not count. -/
theorem names_dot {text : List Char} (h : text = [] ∨ text.head? = some '/') :
    names ('.' :: text) = names text := by
  cases text with
  | nil => rfl
  | cons c text =>
    obtain rfl : c = '/' := by simpa using h
    exact names_append ['.'] text

theorem names_eq (text : List Char) :
    names text = (componentOf? (text.takeWhile (· != '/'))).toList ++ names (behindPart text) := by
  rcases takeWhile_behindPart text with ⟨hslash, hpart, hbehind⟩ | htext
  · rw [hpart, hbehind, names_of_not_mem hslash, names_nil, List.append_nil]
  · have hslash : '/' ∉ text.takeWhile (· != '/') := by
      intro hmem
      simpa using List.mem_takeWhile_imp hmem
    have hnames := congrArg names htext
    rwa [names_append, names_of_not_mem hslash] at hnames

theorem ne_of_mem_names {text : List Char} {c : Component} (hc : c ∈ names text) :
    c ≠ .root ∧ c ≠ .here := by
  obtain ⟨part, -, hpart⟩ := List.mem_filterMap.1 hc
  unfold componentOf? at hpart
  split at hpart
  · simp at hpart
  · split at hpart <;> obtain rfl := Option.some.inj hpart <;> simp

/-- Components taken off the front of a text. -/
theorem names_dropComponents (count : Nat) (text : List Char) :
    names (dropComponents count text) = (names text).drop count := by
  fun_induction dropComponents count text with
  | case1 text => simp
  | case2 count => simp
  | case3 count c rest hpart ih =>
    obtain ⟨first, hfirst⟩ := Option.isSome_iff_exists.1 hpart
    rw [ih, names_eq (c :: rest), hfirst]
    simp
  | case4 count c rest hpart ih =>
    have hnone : componentOf? ((c :: rest).takeWhile (· != '/')) = none := by simpa using hpart
    rw [ih, names_eq (c :: rest), hnone]
    simp

theorem names_trimLeft (text : List Char) : names (trimLeft text) = names text := by
  fun_induction trimLeft text with
  | case1 rest ih => rw [ih, names_slash]
  | case2 => rfl
  | case3 rest ih => rw [ih, names_dot (Or.inr rfl), names_slash]
  | case4 text => rfl

theorem head?_trimLeft (text : List Char) : (trimLeft text).head? ≠ some '/' := by
  fun_induction trimLeft text with
  | case1 rest ih => exact ih
  | case2 => simp
  | case3 rest ih => exact ih
  | case4 text hslash =>
    intro hhead
    obtain ⟨rest, rfl⟩ := List.head?_eq_some_iff.1 hhead
    exact hslash rest rfl

theorem names_reverse_go (reversed : List Char) :
    names (trimRight.go reversed).reverse = names reversed.reverse := by
  fun_induction trimRight.go reversed with
  | case1 rest ih => rw [ih, List.reverse_cons, names_append, names_nil, List.append_nil]
  | case2 => rfl
  | case3 rest ih =>
    have hdot : names ['.'] = [] := rfl
    rw [ih, List.reverse_cons, names_append, names_nil, List.append_nil, List.reverse_cons,
      List.reverse_cons, List.append_assoc, List.singleton_append, names_append, hdot,
      List.append_nil]
  | case4 reversed => rfl

theorem go_suffix (reversed : List Char) : trimRight.go reversed <:+ reversed := by
  fun_induction trimRight.go reversed with
  | case1 rest ih => exact ih.trans (List.suffix_cons '/' rest)
  | case2 => exact List.nil_suffix
  | case3 rest ih => exact ih.trans (List.suffix_cons '.' _)
  | case4 reversed => exact List.suffix_rfl

theorem trimRight_prefix (least : Nat) (text : List Char) : trimRight least text <+: text := by
  have hback : (trimRight.go (text.drop least).reverse).reverse <+: text.drop least := by
    simpa using List.reverse_prefix.2 (go_suffix (text.drop least).reverse)
  have hboth := (List.prefix_append_right_inj (text.take least)).2 hback
  rwa [List.take_append_drop] at hboth

theorem names_trimRight_zero (text : List Char) : names (trimRight 0 text) = names text := by
  rw [trimRight, List.take_zero, List.nil_append, List.drop_zero, names_reverse_go,
    List.reverse_reverse]

variable {p q start rest : SourcePath}

theorem isAbsolute_iff : p.isAbsolute = true ↔ ∃ text, p.text.toList = '/' :: text := by
  rw [isAbsolute, beq_iff_eq, List.head?_eq_some_iff]

/-- A text whose first part is a dot starts with that dot, and a slash is behind it. -/
theorem exists_of_head?_dot {text : List Char}
    (h : (splitAtSlashes text).head? = some ['.']) :
    ∃ rest, text = '.' :: rest ∧ (rest = [] ∨ rest.head? = some '/') := by
  cases text with
  | nil => simp [splitAtSlashes] at h
  | cons c rest =>
    have hc : c ≠ '/' := by
      rintro rfl
      simp [splitAtSlashes] at h
    obtain ⟨part, parts, hparts⟩ := List.exists_cons_of_ne_nil (splitAtSlashes_ne_nil rest)
    rw [splitAtSlashes_cons hc hparts] at h
    obtain ⟨rfl, rfl⟩ : c = '.' ∧ part = [] := by simpa using h
    refine ⟨rest, rfl, ?_⟩
    cases rest with
    | nil => exact Or.inl rfl
    | cons d rest =>
      refine Or.inr (congrArg some ?_)
      by_contra hd
      obtain ⟨part, parts', hparts'⟩ :=
        List.exists_cons_of_ne_nil (splitAtSlashes_ne_nil rest)
      rw [splitAtSlashes_cons hd hparts'] at hparts
      simp at hparts

/-- How the components of a path start says how its text does. -/
theorem components_cases (p : SourcePath) :
    (∃ text, p.text.toList = '/' :: text ∧ p.components = .root :: names text) ∨
      (p.isAbsolute = false ∧ ∃ text, p.text.toList = '.' :: text ∧
        (text = [] ∨ text.head? = some '/') ∧ p.components = .here :: names text) ∨
      (p.isAbsolute = false ∧ p.components = names p.text.toList) := by
  cases hroot : p.isAbsolute with
  | true =>
    obtain ⟨text, htext⟩ := isAbsolute_iff.1 hroot
    have hcomponents : p.components = .root :: names p.text.toList := by
      simp [components, hroot, names]
    rw [htext, names_slash] at hcomponents
    exact Or.inl ⟨text, htext, hcomponents⟩
  | false =>
    by_cases hdot : (splitAtSlashes p.text.toList).head? = some ['.']
    · have hcomponents : p.components = .here :: names p.text.toList := by
        simp [components, hroot, hdot, names]
      obtain ⟨text, htext, hbehind⟩ := exists_of_head?_dot hdot
      rw [htext, names_dot hbehind] at hcomponents
      exact Or.inr (Or.inl ⟨rfl, text, htext, hbehind, hcomponents⟩)
    · refine Or.inr (Or.inr ⟨rfl, ?_⟩)
      simp [components, hroot, hdot, names]

theorem route_eq_components (p : SourcePath) : p.route = p.components.filter (· != .here) := by
  have hnames (text : List Char) : (names text).filter (· != .here) = names text :=
    List.filter_eq_self.2 fun c hc => by simpa using (ne_of_mem_names hc).2
  rcases components_cases p with ⟨text, htext, h⟩ | ⟨hroot, text, htext, hdot, h⟩ | ⟨hroot, h⟩
  · rw [h, route, isAbsolute_iff.2 ⟨text, htext⟩, htext, names_slash]
    simp [hnames]
  · rw [h, route, hroot, htext, names_dot hdot]
    simp [hnames]
  · rw [h, route, hroot, hnames]
    rfl

theorem route_of_relative (h : p.isAbsolute = false) : p.route = names p.text.toList := by
  rw [route, h]
  rfl

/-- Texts are joined with the slash in between that is needed. -/
theorem text_join (p : SourcePath) :
    ∃ front, (∀ q : SourcePath, q.isAbsolute = false →
        (p.join q).text.toList = front ++ q.text.toList) ∧
      ((front = [] ∧ p.text.toList = []) ∨ ∃ a, front = a ++ ['/'] ∧
        ((p.text.toList = a ∧ a ≠ []) ∨ p.text.toList = a ++ ['/'])) := by
  cases hlast : p.text.toList.getLast? with
  | none =>
    have hempty := List.getLast?_eq_none_iff.1 hlast
    exact ⟨[], fun q hq => by simp [join, hq, hempty], Or.inl ⟨rfl, hempty⟩⟩
  | some c =>
    obtain ⟨a, ha⟩ := List.getLast?_eq_some_iff.1 hlast
    by_cases hc : c = '/'
    · subst hc
      exact ⟨a ++ ['/'], fun q hq => by simp [join, hq, ha], Or.inr ⟨a, rfl, Or.inr ha⟩⟩
    · have hne : p.text.toList ≠ [] := by simp [ha]
      exact ⟨p.text.toList ++ ['/'], fun q hq => by simp [join, hq, hlast],
        Or.inr ⟨_, rfl, Or.inl ⟨rfl, hne⟩⟩⟩

theorem isAbsolute_join (hq : q.isAbsolute = false) : (p.join q).isAbsolute = p.isAbsolute := by
  obtain ⟨front, htext, ⟨rfl, hp⟩ | ⟨a, rfl, hp⟩⟩ := text_join p
  all_goals have htext := htext q hq
  · rw [isAbsolute, htext, isAbsolute, hp]
    exact hq
  · rw [isAbsolute, htext, isAbsolute]
    rcases hp with ⟨hp, hne⟩ | hp
    · obtain ⟨c, a, rfl⟩ := List.exists_cons_of_ne_nil hne
      rw [hp]
      rfl
    · rw [hp]
      cases a <;> rfl

/-- What is joined to a path has its parts behind those of the path. -/
theorem exists_parts_join (p : SourcePath) :
    ∃ front lead, (∀ q : SourcePath, q.isAbsolute = false →
        (p.join q).text.toList = front ++ q.text.toList) ∧
      ∀ text, splitAtSlashes (front ++ text) = lead ++ splitAtSlashes text := by
  obtain ⟨front, htext, ⟨rfl, -⟩ | ⟨a, rfl, -⟩⟩ := text_join p
  · exact ⟨[], [], htext, fun _ => rfl⟩
  · refine ⟨a ++ ['/'], splitAtSlashes a, htext, fun text => ?_⟩
    rw [List.append_assoc, List.singleton_append, splitAtSlashes_append]

theorem names_join (hq : q.isAbsolute = false) :
    names (p.join q).text.toList = names p.text.toList ++ names q.text.toList := by
  obtain ⟨front, htext, ⟨rfl, hp⟩ | ⟨a, rfl, hp⟩⟩ := text_join p
  all_goals have htext := htext q hq
  · rw [htext, hp]
    rfl
  · rw [htext, List.append_assoc, List.singleton_append, names_append]
    rcases hp with ⟨hp, -⟩ | hp
    · rw [hp]
    · rw [hp, names_append, names_nil, List.append_nil]

/-- The route of joined paths. -/
theorem route_join (hq : q.isAbsolute = false) : (p.join q).route = p.route ++ q.route := by
  rw [route_of_relative hq, route, route, isAbsolute_join hq, names_join hq, List.append_assoc]

/-- The components of joined paths. The second loses a dot at its start. -/
theorem components_join (hp : p.text.toList ≠ []) (hq : q.isAbsolute = false) :
    (p.join q).components = p.components ++ names q.text.toList := by
  obtain ⟨front, htext, ⟨rfl, hempty⟩ | ⟨a, rfl, hp⟩⟩ := text_join p
  · exact absurd hempty hp
  · -- both paths have the same first part
    obtain ⟨part, parts, hparts⟩ := List.exists_cons_of_ne_nil (splitAtSlashes_ne_nil a)
    have hhead : (splitAtSlashes (p.join q).text.toList).head? =
        (splitAtSlashes p.text.toList).head? := by
      rw [htext q hq, List.append_assoc, List.singleton_append, splitAtSlashes_append, hparts]
      rcases hp with ⟨hp, -⟩ | hp
      · rw [hp, hparts]
        rfl
      · rw [hp, splitAtSlashes_append, hparts]
        rfl
    have hnames := names_join (p := p) hq
    simp only [names] at hnames
    simp only [components, hhead, isAbsolute_join hq, hnames, ← List.append_assoc, names]

/-- A path that is joined to another starts with it. -/
theorem components_prefix_join (hq : q.isAbsolute = false) :
    p.components <+: (p.join q).components := by
  by_cases hp : p.text.toList = []
  · have hnone : p.components = [] := by
      simp [components, isAbsolute, hp, splitAtSlashes, componentOf?]
    rw [hnone]
    exact List.nil_prefix
  · rw [components_join hp hq]
    exact List.prefix_append _ _

theorem startsWith_iff : p.startsWith start = true ↔ start.components <+: p.components :=
  List.isPrefixOf_iff_prefix

theorem isAbsolute_trimRight (least : Nat) {text : List Char} (h : text.head? ≠ some '/') :
    (SourcePath.mk (String.ofList (trimRight least text))).isAbsolute = false := by
  rw [isAbsolute, beq_eq_false_iff_ne, String.toList_ofList]
  intro hhead
  obtain ⟨more, hmore⟩ := List.head?_eq_some_iff.1 hhead
  obtain ⟨back, hback⟩ := trimRight_prefix least text
  rw [hmore] at hback
  rw [← hback] at h
  exact h rfl

/-- A text cut behind some of its components is a relative path of the others. -/
theorem route_dropComponents (count : Nat) (text : List Char) :
    let rest : SourcePath := ⟨String.ofList (trimRight 0 (trimLeft (dropComponents count text)))⟩
    rest.isAbsolute = false ∧ rest.route = (names text).drop count := by
  intro rest
  have hrelative := isAbsolute_trimRight 0 (head?_trimLeft (dropComponents count text))
  refine ⟨hrelative, ?_⟩
  rw [route_of_relative hrelative, String.toList_ofList, names_trimRight_zero, names_trimLeft,
    names_dropComponents]

theorem trimRight_one (c : Char) (text : List Char) :
    trimRight 1 (c :: text) = c :: trimRight 0 text := by
  simp [trimRight]

/-- Nothing is lost if a path is only cut at its end. -/
theorem trimRight_leadLength (p : SourcePath) :
    let kept := trimRight p.leadLength p.text.toList
    (kept.head? = some '/' ↔ p.text.toList.head? = some '/') ∧
      names kept = names p.text.toList := by
  intro kept
  unfold kept leadLength
  split
  · rename_i text htext
    rw [htext, trimRight_one, names_slash, names_slash, names_trimRight_zero]
    simp
  · rename_i htext
    rw [htext, trimRight_one]
    simp [trimRight, trimRight.go]
  · rename_i text htext
    rw [htext, trimRight_one]
    have hdot : trimRight 0 ('/' :: text) = [] ∨ (trimRight 0 ('/' :: text)).head? = some '/' := by
      obtain ⟨back, hback⟩ := trimRight_prefix 0 ('/' :: text)
      rcases hkept : trimRight 0 ('/' :: text) with - | ⟨c, kept⟩
      · exact Or.inl rfl
      · rw [hkept] at hback
        exact Or.inr (congrArg some (List.cons_eq_cons.1 hback).1)
    rw [names_dot hdot, names_dot (Or.inr rfl), names_trimRight_zero]
    simp
  · rename_i hslash _ _
    have hhead : p.text.toList.head? ≠ some '/' := by
      intro hhead
      obtain ⟨text, htext⟩ := List.head?_eq_some_iff.1 hhead
      exact hslash text htext
    have hrelative := isAbsolute_trimRight 0 hhead
    rw [isAbsolute, beq_eq_false_iff_ne, String.toList_ofList] at hrelative
    exact ⟨iff_of_false hrelative hhead, names_trimRight_zero _⟩

/-- A path whose first component is the root has its names behind a slash. -/
theorem components_of_root {more : List Component} (h : p.components = .root :: more) :
    p.components = [.root] ++ names (p.text.toList.drop 1) := by
  rcases components_cases p with ⟨text, htext, hp⟩ | ⟨-, text, -, -, hp⟩ | ⟨-, hp⟩
  · rw [hp, htext]
    rfl
  · simp [hp] at h
  · have hmem : Component.root ∈ names p.text.toList := by
      rw [← hp, h]
      exact List.mem_cons_self
    exact absurd rfl (ne_of_mem_names hmem).1

/-- A path whose first component is a dot has its names behind that dot. -/
theorem components_of_here {more : List Component} (h : p.components = .here :: more) :
    p.components = [.here] ++ names (p.text.toList.drop 1) := by
  rcases components_cases p with ⟨text, -, hp⟩ | ⟨-, text, htext, -, hp⟩ | ⟨-, hp⟩
  · simp [hp] at h
  · rw [hp, htext]
    rfl
  · have hmem : Component.here ∈ names p.text.toList := by
      rw [← hp, h]
      exact List.mem_cons_self
    exact absurd rfl (ne_of_mem_names hmem).2

/-- All components of any other path are names. -/
theorem components_of_name {c : Component} {more : List Component} (h : p.components = c :: more)
    (hroot : c ≠ .root) (hhere : c ≠ .here) : p.components = names p.text.toList := by
  rcases components_cases p with ⟨text, -, hp⟩ | ⟨-, text, -, -, hp⟩ | ⟨-, hp⟩
  · rw [hp] at h
    exact absurd (List.cons_eq_cons.1 h).1.symm hroot
  · rw [hp] at h
    exact absurd (List.cons_eq_cons.1 h).1.symm hhere
  · exact hp

/-- What is behind a start that has components. The first of them may be kept out of the text. -/
theorem route_behind (hfront : start.components <+: p.components) (lead : List Component)
    {first : List Component} {text : List Char} (hstart : start.components = lead ++ first)
    (hp : p.components = lead ++ names text) :
    let rest : SourcePath :=
      ⟨String.ofList (trimRight 0 (trimLeft (dropComponents first.length text)))⟩
    p.route = start.route ++ rest.route ∧ rest.isAbsolute = false := by
  intro rest
  obtain ⟨more, hmore⟩ := hfront
  obtain ⟨hrelative, hroute⟩ := route_dropComponents first.length text
  have hnames : names text = first ++ more := by
    rw [hstart, hp, List.append_assoc] at hmore
    exact (List.append_cancel_left hmore).symm
  rw [hnames, List.drop_left] at hroute
  have hnone : more.filter (· != .here) = more :=
    List.filter_eq_self.2 fun c hc => by
      simpa using (ne_of_mem_names (hnames ▸ List.mem_append_right first hc)).2
  refine ⟨?_, hrelative⟩
  rw [route_eq_components, route_eq_components start, hroute, ← hmore, List.filter_append, hnone]

/-- What is behind a start without components is the path without slashes at its end. -/
theorem route_trimRight_leadLength (p : SourcePath) :
    (SourcePath.mk (String.ofList (trimRight p.leadLength p.text.toList))).route = p.route := by
  obtain ⟨hhead, hnames⟩ := trimRight_leadLength p
  have habsolute : (SourcePath.mk (String.ofList
      (trimRight p.leadLength p.text.toList))).isAbsolute = p.isAbsolute := by
    rw [isAbsolute, isAbsolute, String.toList_ofList, Bool.eq_iff_iff, beq_iff_eq, beq_iff_eq]
    exact hhead
  rw [route, route, habsolute, String.toList_ofList, hnames]

/-- What is behind the start of a path is the rest of its route. It is absolute only if there was
nothing to take off. -/
theorem route_stripStart? (h : p.stripStart? start = some rest) :
    p.route = start.route ++ rest.route ∧
      (rest.isAbsolute = true → start.components = []) := by
  unfold stripStart? at h
  split at h
  · rename_i hstarts
    have hfront := startsWith_iff.1 hstarts
    obtain ⟨more, hmore⟩ := startsWith_iff.1 hstarts
    obtain rfl := Option.some.inj h
    have hrelative {rest : SourcePath}
        (hbehind : p.route = start.route ++ rest.route ∧ rest.isAbsolute = false) :
        p.route = start.route ++ rest.route ∧ (rest.isAbsolute = true → start.components = []) :=
      ⟨hbehind.1, fun habsolute => absurd habsolute (Bool.eq_false_iff.1 hbehind.2)⟩
    split
    · rename_i hnone
      refine ⟨?_, fun _ => hnone⟩
      rw [route_trimRight_leadLength, route_eq_components start, hnone]
      rfl
    · rename_i first hroot
      rw [hroot] at hmore
      exact hrelative (route_behind hfront [.root] hroot (components_of_root hmore.symm))
    · rename_i first hhere
      rw [hhere] at hmore
      exact hrelative (route_behind hfront [.here] hhere (components_of_here hmore.symm))
    · rename_i hnone hroot hhere
      obtain ⟨c, first, hstart⟩ := List.exists_cons_of_ne_nil hnone
      rw [hstart] at hmore
      refine hrelative (route_behind hfront [] rfl (components_of_name hmore.symm ?_ ?_))
      · rintro rfl
        exact hroot first hstart
      · rintro rfl
        exact hhere first hstart
  · simp at h

end CBoundary.SourcePath
