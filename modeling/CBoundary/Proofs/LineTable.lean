import CBoundary.Scope
import Mathlib.Data.List.Induction
import Mathlib.Data.List.TakeWhile

/-!
The table of line starts against the text it was made from. A line starts at the front of the text
and behind each newline, so the entries up to an offset are those of the text in front of it: there
is one more of them than newlines, and the last is as far back as the column says. The table is
ascending, so halving finds the same entry as going through it from the front. Main statement:
`lineColumn_ofText`.
-/
namespace CBoundary.TextPosition

/-- The number of entries of an ascending table that are not past an offset, found by halving. The
entries below `low` are not past it, those from `high` on are. -/
def bisect (table : List Nat) (offset low high : Nat) : Nat :=
  if low < high then
    if table[(low + high) / 2]?.any (· ≤ offset) then
      bisect table offset ((low + high) / 2 + 1) high
    else bisect table offset low ((low + high) / 2)
  else low
termination_by high - low

theorem startsFrom_append (offset : Nat) (front back : List UInt8) :
    startsFrom offset (front ++ back) =
      startsFrom offset front ++ startsFrom (offset + front.length) back := by
  induction front generalizing offset with
  | nil => rfl
  | cons byte front ih =>
    have hoffset : offset + (front.length + 1) = offset + 1 + front.length := by omega
    simp only [List.cons_append, startsFrom, List.length_cons, ih, hoffset]
    split <;> rfl

theorem length_startsFrom (offset : Nat) (bytes : List UInt8) :
    (startsFrom offset bytes).length = bytes.count newline := by
  induction bytes generalizing offset with
  | nil => rfl
  | cons byte bytes ih =>
    rw [startsFrom, List.count_cons]
    split <;> simp_all

theorem bounds_of_mem_startsFrom {offset start : Nat} {bytes : List UInt8}
    (h : start ∈ startsFrom offset bytes) : offset < start ∧ start ≤ offset + bytes.length := by
  induction bytes generalizing offset with
  | nil => cases h
  | cons byte bytes ih =>
    rw [startsFrom] at h
    split at h
    · rcases List.mem_cons.1 h with rfl | h
      · simp
      · have := ih h
        simp only [List.length_cons]
        omega
    · have := ih h
      simp only [List.length_cons]
      omega

theorem pairwise_startsFrom (offset : Nat) (bytes : List UInt8) :
    (startsFrom offset bytes).Pairwise (· < ·) := by
  induction bytes generalizing offset with
  | nil => exact List.Pairwise.nil
  | cons byte bytes ih =>
    rw [startsFrom]
    split
    · exact List.pairwise_cons.2 ⟨fun _ h => (bounds_of_mem_startsFrom h).1, ih _⟩
    · exact ih _

/-- The lines of a text start in ascending order. -/
theorem pairwise_lineStarts (text : String) : (lineStarts text).Pairwise (· < ·) :=
  List.pairwise_cons.2 ⟨fun _ h => (bounds_of_mem_startsFrom h).1, pairwise_startsFrom _ _⟩

/-- The entries up to an offset are those of the bytes in front of it. -/
theorem takeWhile_lineStarts (text : String) (offset : Nat) :
    (lineStarts text).takeWhile (· ≤ offset) =
      0 :: startsFrom 0 ((utf8 text.toList).take offset) := by
  have hfront : ∀ start ∈ startsFrom 0 ((utf8 text.toList).take offset), start ≤ offset := by
    intro start hstart
    have := (bounds_of_mem_startsFrom hstart).2
    have := List.length_take_le offset (utf8 text.toList)
    omega
  have hbehind : (startsFrom (0 + ((utf8 text.toList).take offset).length)
      ((utf8 text.toList).drop offset)).takeWhile (· ≤ offset) = [] := by
    cases hrest : startsFrom (0 + ((utf8 text.toList).take offset).length)
        ((utf8 text.toList).drop offset) with
    | nil => rfl
    | cons start rest =>
      have hstart := bounds_of_mem_startsFrom (hrest ▸ List.mem_cons_self)
      rw [List.length_take, List.length_drop] at hstart
      exact List.takeWhile_cons_of_neg (by simp only [decide_eq_true_eq]; omega)
  rw [lineStarts, List.takeWhile_cons_of_pos (by simp)]
  conv => lhs; rw [← List.take_append_drop offset (utf8 text.toList), startsFrom_append]
  rw [List.takeWhile_append_of_pos (by simpa using hfront), hbehind, List.append_nil]

/-- The last line starts behind the last newline. -/
theorem exists_getLast?_startsFrom (bytes : List UInt8) :
    ∃ start, (0 :: startsFrom 0 bytes).getLast? = some start ∧
      start + (bytes.reverse.takeWhile (· != newline)).length = bytes.length := by
  induction bytes using List.reverseRecOn with
  | nil => exact ⟨0, rfl, rfl⟩
  | append_singleton bytes byte ih =>
    obtain ⟨start, hstart, hlength⟩ := ih
    rw [startsFrom_append, List.reverse_append, List.length_append, ← List.cons_append]
    by_cases hbyte : byte = newline
    · refine ⟨bytes.length + 1, ?_, by simp [hbyte]⟩
      rw [startsFrom, if_pos hbyte, startsFrom, Nat.zero_add, List.getLast?_concat]
    · refine ⟨start, by simpa [hbyte, startsFrom] using hstart, ?_⟩
      simp [hbyte, ← hlength, Nat.add_assoc]

/-- In an ascending table the entries that are not past an offset are the first ones. -/
theorem getElem_le_iff {table : List Nat} (htable : table.Pairwise (· < ·)) (offset : Nat) {i : Nat}
    (hi : i < table.length) :
    table[i] ≤ offset ↔ i < (table.takeWhile (· ≤ offset)).length := by
  induction table generalizing i with
  | nil => cases hi
  | cons entry table ih =>
    obtain ⟨hentry, htable⟩ := List.pairwise_cons.1 htable
    by_cases hpast : entry ≤ offset
    · rw [List.takeWhile_cons_of_pos (by simpa using hpast)]
      cases i with
      | zero => simpa using hpast
      | succ i => simpa using ih htable (by simpa using hi)
    · rw [List.takeWhile_cons_of_neg (by simpa using hpast)]
      cases i with
      | zero => simpa using hpast
      | succ i =>
        have := hentry _ (List.getElem_mem (by simpa using hi : i < table.length))
        simp only [List.getElem_cons_succ, List.length_nil, Nat.not_lt_zero, iff_false]
        omega

theorem bisect_eq {table : List Nat} (htable : table.Pairwise (· < ·)) {offset low high : Nat}
    (hlow : low ≤ (table.takeWhile (· ≤ offset)).length)
    (hhigh : (table.takeWhile (· ≤ offset)).length ≤ high) (hlength : high ≤ table.length) :
    bisect table offset low high = (table.takeWhile (· ≤ offset)).length := by
  fun_induction bisect table offset low high with
  | case1 low high hlt hentry ih =>
    have hmiddle : (low + high) / 2 < table.length := by omega
    rw [List.getElem?_eq_getElem hmiddle, Option.any_some, decide_eq_true_eq,
      getElem_le_iff htable] at hentry
    exact ih hentry hhigh hlength
  | case2 low high hlt hentry ih =>
    have hmiddle : (low + high) / 2 < table.length := by omega
    rw [List.getElem?_eq_getElem hmiddle, Option.any_some, decide_eq_true_eq,
      getElem_le_iff htable] at hentry
    exact ih hlow (by omega) (by omega)
  | case3 low high hlt => omega

/-- The entry in front of an offset is as far back as the column says. -/
theorem exists_lineStart {text : String} {offset : Nat} (h : offset ≤ byteLength text.toList) :
    ∃ start, (lineStarts text)[lineOf text offset - 1]? = some start ∧
      start + (columnOf text offset - 1) = offset := by
  obtain ⟨start, hstart, hlength⟩ := exists_getLast?_startsFrom ((utf8 text.toList).take offset)
  rw [List.length_take, length_utf8, Nat.min_eq_left h] at hlength
  refine ⟨start, ?_, hlength⟩
  obtain ⟨behind, hbehind⟩ := List.takeWhile_prefix (l := lineStarts text) (· ≤ offset)
  rw [takeWhile_lineStarts] at hbehind
  rw [List.getLast?_eq_getElem?, List.length_cons, length_startsFrom] at hstart
  rw [← hbehind, List.getElem?_append_left (by simp [lineOf, length_startsFrom])]
  exact hstart

/-- The line and the column that a file looks up in its table are those that are counted in the
text. The table gives the same line when it is searched by halving, and the offset is as far behind
the start of its line as the column says. -/
theorem lineColumn_ofText (path module : String) (priority : Nat) (text : String) (offset : Nat)
    (h : offset ≤ byteLength text.toList) :
    (FileInfo.ofText path module priority text).lineColumn offset =
        (lineOf text offset, columnOf text offset) ∧
      bisect (lineStarts text) offset 0 (lineStarts text).length = lineOf text offset ∧
      ∃ start, (lineStarts text)[lineOf text offset - 1]? = some start ∧
        start + columnOf text offset - 1 = offset := by
  obtain ⟨start, hstart, hoffset⟩ := exists_lineStart h
  have hline : ((lineStarts text).takeWhile (· ≤ offset)).length = lineOf text offset := by
    rw [takeWhile_lineStarts, List.length_cons, length_startsFrom, lineOf]
  have hcolumn : 1 ≤ columnOf text offset := Nat.succ_pos _
  refine ⟨?_, ?_, start, hstart, by omega⟩
  · have hpos : 1 ≤ lineOf text offset := Nat.succ_pos _
    simp only [FileInfo.lineColumn, FileInfo.ofText, hline, hstart, Option.getD_some, Prod.mk.injEq]
    omega
  · have hlength := (List.takeWhile_prefix (l := lineStarts text) (· ≤ offset)).length_le
    rw [bisect_eq (pairwise_lineStarts text) (Nat.zero_le _) hlength le_rfl, hline]

/-- In a text with an empty line and without a newline at its end: the offset behind its last
character is in the last line. -/
theorem lineColumn_at_end :
    7 ≤ byteLength "ab\n\né!".toList ∧
      (FileInfo.ofText "a.c" "m" 0 "ab\n\né!").lineColumn 7 = (3, 4) ∧
      bisect (lineStarts "ab\n\né!") 7 0 3 = 3 ∧
      ∃ start, (lineStarts "ab\n\né!")[2]? = some start ∧ start + 4 - 1 = 7 := by
  have hlength : 7 ≤ byteLength "ab\n\né!".toList := by decide
  have hline : lineOf "ab\n\né!" 7 = 3 := by decide
  have hcolumn : columnOf "ab\n\né!" 7 = 4 := by decide
  have hplace := lineColumn_ofText "a.c" "m" 0 "ab\n\né!" 7 hlength
  rw [hline, hcolumn] at hplace
  exact ⟨hlength, hplace⟩

end CBoundary.TextPosition
