import CBoundary.Proofs.ReportOrigin

/-!
The order in which reports are printed, against the order of the places they are about. A report is
located at a place of a file, or at a definition that another one disagrees with. The location of a
place is read back as path, line and column, so places of a file are sorted by their numbers. That
of a definition has more behind it and is sorted as a text: it comes after all places of its file,
and among others its digits count and not its numbers. Main statement:
`Sink.sort_in_source_order`.
-/
namespace CBoundary

namespace DecimalNumeral

theorem valueFrom_eq {text : List Char} (h : ∀ c ∈ text, c.isDigit = true) (value : Nat) :
    valueFrom value text = some (Nat.ofDigitChars 10 text value) := by
  induction text generalizing value with
  | nil => rfl
  | cons c text ih =>
    rw [valueFrom, if_pos (h c List.mem_cons_self), ih fun d hd => h d (List.mem_cons_of_mem c hd)]
    rfl

/-- A number below the bound is read back from its digits. -/
theorem read?_toDigits {bound n : Nat} (h : n < bound) :
    read? bound (Nat.toDigits 10 n) = some n := by
  have hdigits : ∀ c ∈ Nat.toDigits 10 n, c.isDigit = true := fun c hc =>
    Nat.isDigit_of_mem_toDigits (by decide) (by decide) hc
  have hplus : ∀ rest, Nat.toDigits 10 n ≠ '+' :: rest := by
    intro rest heq
    have hplus := hdigits '+' (heq ▸ List.mem_cons_self)
    exact absurd hplus (by decide)
  have hvalue := valueFrom_eq hdigits 0
  rw [Nat.ofDigitChars_toDigits (by decide) (by decide)] at hvalue
  unfold read?
  split
  · rename_i rest heq
    exact absurd heq (hplus rest)
  · simp [hvalue, h]

theorem digitChar_lt {m n : Nat} (h : m < n) (hn : n < 10) : m.digitChar < n.digitChar := by
  have hall : ∀ n < 10, ∀ m < n, m.digitChar < n.digitChar := by decide
  exact hall n hn m h

/-- Of two numbers with as many digits, the smaller one comes first in a text, whatever is behind
them. -/
theorem toDigits_append_lt {m n : Nat} (h : m < n)
    (hwidth : (Nat.toDigits 10 m).length = (Nat.toDigits 10 n).length) (xs ys : List Char) :
    Nat.toDigits 10 m ++ xs < Nat.toDigits 10 n ++ ys := by
  induction n using Nat.strongRecOn generalizing m xs ys with
  | ind n ih =>
    have hten : (1 : Nat) < 10 := by decide
    by_cases hn : n < 10
    · rw [Nat.toDigits_of_lt_base hn, Nat.toDigits_of_lt_base (by omega)]
      exact List.cons_lt_cons_iff.2 (Or.inl (digitChar_lt h hn))
    · rw [Nat.toDigits_of_base_le hten (by omega : 10 ≤ n)] at hwidth ⊢
      by_cases hm : m < 10
      · -- one digit, and more than one
        rw [Nat.toDigits_of_lt_base hm] at hwidth
        simp at hwidth
      · rw [Nat.toDigits_of_base_le hten (by omega : 10 ≤ m)] at hwidth ⊢
        have hwidth : (Nat.toDigits 10 (m / 10)).length = (Nat.toDigits 10 (n / 10)).length := by
          simpa using hwidth
        rw [List.append_assoc, List.append_assoc]
        by_cases hfront : m / 10 < n / 10
        · exact ih (n / 10) (by omega) hfront hwidth _ _
        · -- all digits but the last are the same
          have hfront : m / 10 = n / 10 := by omega
          rw [hfront]
          refine List.append_left_lt (List.cons_lt_cons_iff.2 (Or.inl ?_))
          exact digitChar_lt (by omega) (Nat.mod_lt n (by decide))

end DecimalNumeral

/-- The line and the column that the location of an offset names. -/
def Scope.position (s : Scope) (offset : Nat) : Nat × Nat :=
  s.file.lineColumn (if s.file.length < offset then s.nested.getLast?.getD 0 else offset)

theorem Scope.toList_location (s : Scope) (offset : Nat) :
    (s.location offset).toList = s.file.path.toList ++ ':' ::
      (Nat.toDigits 10 (s.position offset).1 ++ ':' :: Nat.toDigits 10 (s.position offset).2) := by
  have hlocation : s.location offset =
      s.file.path ++ ":" ++ toString (s.position offset).1 ++ ":" ++
        toString (s.position offset).2 := rfl
  simp [hlocation, Nat.toString_eq_repr]

theorem Definition.toList_conflictLocation (d : Definition) :
    ∃ rest, d.conflictLocation.toList = d.location.toList ++ ' ' :: (rest ++ [':']) := by
  have hlocation : d.conflictLocation =
      d.location ++ (" " ++ (d.kind.label ++ " " ++
        (if d.module == "" then "" else s!"[{d.module}] ") ++ "'" ++ d.name ++ "'") ++ ":") := by
    simp only [conflictLocation, String.append_assoc]
    rfl
  refine ⟨(d.kind.label ++ " " ++
    (if d.module == "" then "" else s!"[{d.module}] ") ++ "'" ++ d.name ++ "'").toList, ?_⟩
  rw [hlocation]
  simp

namespace Report

namespace SortKey

theorem splitLast?_append {front back : List Char} (h : ':' ∉ back) :
    splitLast? (front ++ ':' :: back) = some (front, back) := by
  have hback : ∀ c ∈ back.reverse, (c != ':') = true := by
    intro c hc
    simpa using ne_of_mem_of_not_mem (List.mem_reverse.1 hc) h
  have hreverse : (front ++ ':' :: back).reverse = back.reverse ++ ':' :: front.reverse := by simp
  unfold splitLast?
  rw [hreverse, List.dropWhile_append_of_pos hback, List.takeWhile_append_of_pos hback]
  simp

theorem colon_not_mem_toDigits (n : Nat) : ':' ∉ Nat.toDigits 10 n := by
  intro hcolon
  have hdigit := Nat.isDigit_of_mem_toDigits (by decide) (by decide) hcolon
  exact absurd hdigit (by decide)

/-- What is sorted by its numbers: they have to fit in 32 bits. -/
def Fits (position : Nat × Nat) : Prop := position.1 < bound ∧ position.2 < bound

/-- The location of a place is read back, colons in the path or not. -/
theorem ofLocation_location {s : Scope} {offset : Nat} (h : Fits (s.position offset)) :
    ofLocation (s.location offset) =
      ⟨s.file.path, (s.position offset).1, (s.position offset).2⟩ := by
  unfold ofLocation
  rw [s.toList_location, ← List.cons_append, ← List.append_assoc,
    splitLast?_append (colon_not_mem_toDigits _)]
  simp [splitLast?_append (colon_not_mem_toDigits _), DecimalNumeral.read?_toDigits h.1,
    DecimalNumeral.read?_toDigits h.2]

/-- A location with a colon at its end has no column. -/
theorem ofLocation_of_colon {location : String} {front : List Char}
    (h : location.toList = front ++ [':']) : ofLocation location = ⟨location, 0, 0⟩ := by
  unfold ofLocation
  rw [h, splitLast?_append List.not_mem_nil]
  cases splitLast? front <;> simp [DecimalNumeral.read?]

theorem ofLocation_conflictLocation (d : Definition) :
    ofLocation d.conflictLocation = ⟨d.conflictLocation, 0, 0⟩ := by
  obtain ⟨rest, hrest⟩ := d.toList_conflictLocation
  have hcolon : d.conflictLocation.toList = (d.location.toList ++ ' ' :: rest) ++ [':'] := by
    rw [hrest, List.append_assoc, List.cons_append]
  exact ofLocation_of_colon hcolon

variable {a b : SortKey}

theorem compare_of_path (h : a.path < b.path) : compare a b = .lt := by
  have hpath : compare a.path b.path = .lt := if_pos h
  change (compare a.path b.path).then _ = _
  rw [hpath]
  rfl

theorem compare_of_position (hpath : a.path = b.path)
    (h : a.line < b.line ∨ a.line = b.line ∧ a.column < b.column) : compare a b = .lt := by
  change (compare a.path b.path).then ((compare a.line b.line).then (compare a.column b.column)) = _
  rw [hpath, Std.ReflOrd.compare_self]
  rcases h with hline | ⟨hline, hcolumn⟩
  · rw [Std.compare_eq_lt.2 hline]
    rfl
  · rw [hline, Std.ReflOrd.compare_self, Std.compare_eq_lt.2 hcolumn]
    rfl

end SortKey

/-- What the location of a report is made from. -/
inductive Site where
  /-- A place in a file. -/
  | place (scope : Scope) (offset : Nat)
  /-- A definition that another one disagrees with. -/
  | conflict (d : Definition)

namespace Site

def location : Site → String
  | place scope offset => scope.location offset
  | conflict d => d.conflictLocation

def path : Site → String
  | place scope _ => scope.file.path
  | conflict d => d.scope.file.path

/-- Line and column. -/
def position : Site → Nat × Nat
  | place scope offset => scope.position offset
  | conflict d => d.scope.position d.offset

/-- Both are in one file, and the numbers of the first are smaller. -/
structure Before (a b : Site) : Prop where
  path : a.path = b.path
  position : a.position.1 < b.position.1 ∨
    a.position.1 = b.position.1 ∧ a.position.2 < b.position.2

/-- Two numbers with as many digits. -/
def SameWidth (m n : Nat) : Prop := (Nat.toDigits 10 m).length = (Nat.toDigits 10 n).length

/-- Sites whose texts go by their numbers: those of places fit in 32 bits, those of two conflicts
have as many digits up to where they differ, and a place is not behind a conflict. -/
def Comparable : Site → Site → Prop
  | a@(place _ _), b@(place _ _) => SortKey.Fits a.position ∧ SortKey.Fits b.position
  | a@(place _ _), conflict _ => SortKey.Fits a.position
  | conflict _, place _ _ => False
  | a@(conflict _), b@(conflict _) => SameWidth a.position.1 b.position.1 ∧
      (a.position.1 = b.position.1 → SameWidth a.position.2 b.position.2)

variable {a b : Site}

theorem path_lt_conflictLocation (d : Definition) :
    d.scope.file.path < d.conflictLocation := by
  obtain ⟨rest, hrest⟩ := d.toList_conflictLocation
  rw [String.lt_iff, hrest, Definition.location, Scope.toList_location, List.append_assoc,
    List.cons_append]
  nth_rewrite 1 [← List.append_nil d.scope.file.path.toList]
  exact List.append_left_lt (List.nil_lt_cons ':' _)

theorem conflictLocation_lt {d e : Definition} (h : (conflict d).Before (conflict e))
    (hwidth : (conflict d).Comparable (conflict e)) :
    d.conflictLocation < e.conflictLocation := by
  obtain ⟨rest, hrest⟩ := d.toList_conflictLocation
  obtain ⟨rest', hrest'⟩ := e.toList_conflictLocation
  obtain ⟨hpath, hposition⟩ := h
  have hpath : d.scope.file.path = e.scope.file.path := hpath
  rw [String.lt_iff, hrest, hrest', Definition.location, Definition.location,
    Scope.toList_location, Scope.toList_location, hpath]
  simp only [List.append_assoc, List.cons_append]
  refine List.append_left_lt (List.cons_lt_cons_iff.2 (Or.inr ⟨rfl, ?_⟩))
  rcases hposition with hline | ⟨hline, hcolumn⟩
  · exact DecimalNumeral.toDigits_append_lt hline hwidth.1 _ _
  · have hline' : (d.scope.position d.offset).1 = (e.scope.position e.offset).1 := hline
    rw [hline']
    refine List.append_left_lt (List.cons_lt_cons_iff.2 (Or.inr ⟨rfl, ?_⟩))
    exact DecimalNumeral.toDigits_append_lt hcolumn (hwidth.2 hline) _ _

/-- Comparable sites of one file have keys in the order of their numbers. -/
theorem Before.compare_eq (h : a.Before b) (hcomparable : a.Comparable b) :
    compare (SortKey.ofLocation a.location) (SortKey.ofLocation b.location) = .lt := by
  cases a with
  | place s offset =>
    cases b with
    | place t offset' =>
      rw [location, location, SortKey.ofLocation_location hcomparable.1,
        SortKey.ofLocation_location hcomparable.2]
      exact SortKey.compare_of_position h.path h.position
    | conflict d =>
      rw [location, location, SortKey.ofLocation_location hcomparable,
        SortKey.ofLocation_conflictLocation]
      have hpath : s.file.path = d.scope.file.path := h.path
      exact SortKey.compare_of_path (hpath ▸ path_lt_conflictLocation d)
  | conflict d =>
    cases b with
    | place t offset => exact hcomparable.elim
    | conflict e =>
      rw [location, location, SortKey.ofLocation_conflictLocation,
        SortKey.ofLocation_conflictLocation]
      exact SortKey.compare_of_path (conflictLocation_lt h hcomparable)

end Site

/-- The first record of the report is located at the site. -/
def LocatedAt (r : Report) (a : Site) : Prop := r.head?.bind Warning.location = some a.location

theorem LocatedAt.sortKey? {r : Report} {a : Site} (h : r.LocatedAt a) :
    r.sortKey? = some (SortKey.ofLocation a.location) := by
  rw [Report.sortKey?, h, Option.map_some]

/-- Reports with keys in order come in that order. -/
theorem index_lt_of_compare {reports : List Report} {i j : Nat}
    (hi : i < (sort reports).length) (hj : j < (sort reports).length)
    (h : compare (sort reports)[i].sortKey? (sort reports)[j].sortKey? = .lt) : i < j := by
  by_contra hnot
  have hback : (compare (sort reports)[j].sortKey? (sort reports)[i].sortKey?).isLE = true := by
    rcases Nat.eq_or_lt_of_not_lt hnot with rfl | hlt
    · rw [Std.ReflOrd.compare_self]
      rfl
    · have hpair := List.pairwise_iff_getElem.1 (sort_pairwise reports) j i hj hi hlt
      rwa [sortsBefore_eq] at hpair
  rw [Std.OrientedOrd.eq_swap, h] at hback
  exact absurd hback (by decide)

/-- Reports that come in the opposite order are turned around. -/
theorem sort_eq_reverse {reports : List Report}
    (h : reports.Pairwise fun r s => r.sortsBefore s = false) : sort reports = reports.reverse := by
  have hsame : SameByKey reports reports.reverse := by
    induction reports with
    | nil => exact .refl []
    | cons r reports ih =>
      obtain ⟨hfirst, hrest⟩ := List.pairwise_cons.1 h
      have hkeys : ∀ s ∈ reports, s.sortKey? ≠ r.sortKey? := by
        intro s hs hkey
        have hboth := sortsBefore_of_eq hkey.symm
        rw [hfirst s hs] at hboth
        exact Bool.false_ne_true hboth
      rw [List.reverse_cons]
      exact (SameByKey.move hkeys).trans ((ih hrest).append (.refl [r]))
  refine SameByKey.eq_of_pairwise (sort_pairwise reports) ?_ ((sort_sameByKey reports).trans hsame)
  refine List.pairwise_reverse.2 (h.imp ?_)
  intro r s hrs
  simpa [hrs] using sortsBefore_total r s

end Report

namespace Sink

open Report

/-- What a sink gives out in order are its reports, and of two that are located in one file the one
with the smaller numbers comes first, whatever else the locations have behind them, as long as the
two are comparable. -/
theorem sort_in_source_order (s : Sink) :
    s.sorted = (sort s.reports).flatten ∧ (sort s.reports).Perm s.reports ∧
      ∀ i j (hi : i < (sort s.reports).length) (hj : j < (sort s.reports).length) (a b : Site),
        (sort s.reports)[i].LocatedAt a → (sort s.reports)[j].LocatedAt b →
          a.Before b → a.Comparable b → i < j := by
  refine ⟨rfl, List.mergeSort_perm s.reports sortsBefore, ?_⟩
  intro i j hi hj a b ha hb hbefore hcomparable
  refine index_lt_of_compare hi hj ?_
  rw [ha.sortKey?, hb.sortKey?]
  exact hbefore.compare_eq hcomparable

/-- Lines 9 and 10 of a file with a colon in its path, and a conflict on line 11, come in from the
last to the first. -/
theorem three_reports_in_source_order :
    let scope : Scope := ⟨FileInfo.ofText "a:1.c" "" 0 "\n\n\n\n\n\n\n\n\n\n", []⟩
    let line (n : Nat) := Report.warning (Categories.only .io) (some (scope.location n)) ""
    let d := Definition.ofSighting "f" scope 10 ⟨none, ""⟩ (.function default)
    let conflict := Definition.conflictReport .detailsMismatch "details" d d []
    let s := (empty .everything).emitAll [conflict, line 9, line 8]
    sort s.reports = [line 8, line 9, conflict] ∧
      (Site.place scope 8).Before (.place scope 9) ∧
      (Site.place scope 8).Comparable (.place scope 9) ∧ 0 < 1 ∧
      (Site.place scope 9).Before (.conflict d) ∧
      (Site.place scope 9).Comparable (.conflict d) ∧ 1 < 2 := by
  intro scope line d conflict s
  have hs : s.reports = [conflict, line 9, line 8] := by decide +kernel
  have hsort : sort s.reports = [line 8, line 9, conflict] := by
    rw [hs]
    exact sort_eq_reverse (by decide +kernel)
  obtain ⟨-, -, horder⟩ := s.sort_in_source_order
  rw [hsort] at horder
  have hlines : (Site.place scope 8).Before (.place scope 9) := ⟨rfl, by decide +kernel⟩
  have hconflict : (Site.place scope 9).Before (.conflict d) := ⟨rfl, by decide +kernel⟩
  have hfits : SortKey.Fits (scope.position 8) ∧ SortKey.Fits (scope.position 9) := by
    unfold SortKey.Fits
    decide +kernel
  have hfirst := horder 0 1 (by decide) (by decide) (.place scope 8) (.place scope 9) rfl rfl
    hlines hfits
  have hsecond := horder 1 2 (by decide) (by decide) (.place scope 9) (.conflict d) rfl rfl
    hconflict hfits.2
  exact ⟨hsort, hlines, hfits, hfirst, hconflict, hfits.2, hsecond⟩

/-- Conflicts on lines 9 and 10 and a place on line 11 come in in this order and are turned
around. -/
theorem conflicts_out_of_source_order :
    let scope : Scope := ⟨FileInfo.ofText "a.c" "" 0 "\n\n\n\n\n\n\n\n\n\n", []⟩
    let line (n : Nat) := Report.warning (Categories.only .io) (some (scope.location n)) ""
    let d (n : Nat) := Definition.ofSighting "f" scope n ⟨none, ""⟩ (.function default)
    let conflict (n : Nat) := Definition.conflictReport .detailsMismatch "details" (d n) (d n) []
    let s := (empty .everything).emitAll [conflict 8, conflict 9, line 10]
    sort s.reports = [line 10, conflict 9, conflict 8] ∧
      (conflict 8).LocatedAt (.conflict (d 8)) ∧ (conflict 9).LocatedAt (.conflict (d 9)) ∧
      (line 10).LocatedAt (.place scope 10) ∧
      (Site.conflict (d 8)).Before (.conflict (d 9)) ∧
      (Site.conflict (d 9)).Before (.place scope 10) := by
  intro scope line d conflict s
  have hs : s.reports = [conflict 8, conflict 9, line 10] := by decide +kernel
  refine ⟨?_, rfl, rfl, rfl, ⟨rfl, by decide +kernel⟩, ⟨rfl, by decide +kernel⟩⟩
  rw [hs]
  exact sort_eq_reverse (by decide +kernel)

end Sink

end CBoundary
