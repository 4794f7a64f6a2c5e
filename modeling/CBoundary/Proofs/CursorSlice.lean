import CBoundary.Proofs.CursorScan
import Mathlib.Tactic.SplitIfs

/-!
Slices of a text at a cursor. Offsets that are inside a character, outside the text or in the wrong
order delimit nothing; what is read there is left open. `stray` may be the empty text, which is what
a cursor reads, or nothing at all, which ends the reading without a result. From a place between
characters no slice is a stray one, also in a scan that is given up. Main statement:
`groupLength_eq`.
-/
namespace CBoundary.CursorSlice

open ByteExtent CharacterClass CursorScan Lexeme TextPosition

section

variable (stray : Option (List Char))

/-- The characters between two offsets, or what is read where the offsets delimit none. -/
def slice (text : List Char) (start stop : Nat) : Option (List Char) :=
  (slice? text start stop).or stray

def rest (c : Cursor) : Option (List Char) := slice stray c.text.toList c.position c.size

def since (c : Cursor) (start : Nat) : Option (List Char) :=
  slice stray c.text.toList start c.position

def advanceChar (c : Cursor) : Option Cursor :=
  (rest stray c).map fun ahead => c.advance ((ahead.head?.map Char.utf8Size).getD 1)

def skipWord (c : Cursor) : Option Cursor :=
  (rest stray c).map fun ahead => c.advance (byteLength (ahead.takeWhile isWordChar))

def skipBlockComment? (c : Cursor) : Option (Option Cursor) :=
  (rest stray c).map fun ahead => (Extent.pair 0x2a 0x2f (utf8 ahead)).map c.advance

def operator? (c : Cursor) : Option (Option (TokenKind × Cursor)) :=
  (rest stray c).map fun ahead =>
    (operators.find? (·.isPrefixOf ahead)).map fun op => (.punctuation, c.advance (byteLength op))

def word? (c : Cursor) : Option (Option (TokenKind × Cursor)) :=
  (skipWord stray c).map fun behind =>
    if c.position < behind.position then some (.word, behind) else none

def operatorOrWord? (c : Cursor) : Option (Option (TokenKind × Cursor)) := do
  match ← operator? stray c with
  | some found => some (some found)
  | none => word? stray c

/-- The lexeme at the cursor, if it is no bracket group, and the cursor behind it. -/
def atom? (mode : Mode) (c : Cursor) : Option (Option (TokenKind × Cursor)) :=
  if peekChar c 0 = '/' ∧ peekChar c 1 = '/' then some (some (.lineComment, c.skipLine))
  else if peekChar c 0 = '/' ∧ peekChar c 1 = '*' then do
    match ← skipBlockComment? stray (c.advance 2) with
    | some behind => some (some (.blockComment, behind))
    | none => operator? stray c
  else if peekChar c 0 = '"' then
    some (((c.advance 1).skipQuoted? (byteOf '"')).map fun behind => (.stringLiteral, behind))
  else if peekChar c 0 = '\'' then
    some (((c.advance 1).skipQuoted? (byteOf '\'')).map fun behind => (.charLiteral, behind))
  else if peekChar c 0 = '\n' then some (some (.newline, c.advance 1))
  else if isBlank (peekChar c 0) then some (some (.blanks, c.skipBlanks))
  else if peekChar c 0 = '\\' then do
    let ahead ← rest stray c
    if byteLength ahead < 2 then some none
    else
      let behind ← advanceChar stray (c.advance 1)
      some (some (.lineContinuation, behind))
  else if peekChar c 0 = '#' ∧ mode = .source then some (some (.directive, c.skipLine))
  else operatorOrWord? stray c

end

end CBoundary.CursorSlice

namespace CBoundary.Cursor

open CursorScan
open Lexeme (Mode)

variable (stray : Option (List Char))

/-- Reads on until every bracket of `closers` is closed, innermost first, and answers where that
is, if it comes to it. -/
def closeGroupsOr (mode : Mode) (closers : List Char) (c : Cursor) : Option (Option Cursor) :=
  match closers with
  | [] => some (some c)
  | closer :: outer =>
      if c.atEnd then some none
      else
        match Delim.ofOpener? (peekChar c 0) with
        | some delim => c.advance 1 |>.closeGroupsOr mode (delim.closer :: closer :: outer)
        | none =>
            if Delim.isCloser (peekChar c 0) then
              if peekChar c 0 = closer then c.advance 1 |>.closeGroupsOr mode outer else some none
            else do
              match ← CursorSlice.atom? stray mode c with
              | none => some none
              | some (_, behind) => behind |>.closeGroupsOr mode (closer :: outer)
partial_fixpoint

end CBoundary.Cursor

namespace CBoundary.CursorSlice

open ByteExtent CharacterClass CursorScan Lexeme TextPosition

section

variable (stray : Option (List Char))

/-- Bytes that may start a word: ASCII letters and digits, the underscore, and all bytes outside
ASCII. -/
def isWordStart (x : Char) : Bool := x.isAlphanum || x == '_' || 0x80 ≤ x.toNat

/-- A reading gives a value and ends between characters, in front of `behind`. -/
def ReadsTo {α : Type} (result : Option (α × Cursor)) (value : α) (behind : List Char) : Prop :=
  ∃ place taken, result = some (value, place) ∧ place.At taken behind

/-- The text between a cursor and a place further on, and that place. -/
def copyTo (c place : Cursor) : Option (List Char × Cursor) :=
  (since stray place c.position).map fun copied => (copied, place)

/-- Length in bytes of the balanced group at the start of a text, if there is one. -/
def groupLength (mode : Mode) (text : List Char) : Option (Option Nat) :=
  let c := Cursor.ofText (String.ofList text)
  match Delim.ofOpener? (peekChar c 0) with
  | none => some none
  | some delim =>
      ((c.advance 1).closeGroupsOr stray mode [delim.closer]).map fun closed =>
        closed.map Cursor.position

end

section

variable {stray : Option (List Char)} {mode : Mode} {c : Cursor} {before ahead others : List Char}
  {d : Char}

theorem slice_of_eq_some {text part : List Char} {start stop : Nat}
    (h : slice? text start stop = some part) : slice stray text start stop = some part := by
  rw [slice, h, Option.some_or]

/-- Where there is nothing to be read for a stray slice, only texts that stand there are read. -/
theorem slice_none_eq_some_iff {text part : List Char} {start stop : Nat} :
    slice none text start stop = some part ↔ TextSlice.StandsAt text start stop part := by
  rw [slice, Option.or_none, TextSlice.slice?_eq_some_iff]

theorem rest_at (h : c.At before ahead) : rest stray c = some ahead :=
  slice_of_eq_some h.slice?_rest

theorem at_ofChars (text : List Char) : (Cursor.ofText (String.ofList text)).At [] text := by
  simpa using Cursor.at_ofText (String.ofList text)

theorem advance_two {e : Char} (h : c.At before (d :: e :: others)) (hd : IsAscii d)
    (he : IsAscii e) : c.advance 2 = c.past 2 := by
  rw [h.past_eq]
  simp [utf8Size_ascii hd, utf8Size_ascii he]

theorem advance_between (taken : List Char) {behind : List Char}
    (h : c.At before (taken ++ behind)) :
    (c.advance (byteLength taken)).At (before ++ taken) behind := by
  have hplace := h.past taken.length
  rwa [h.past_eq, List.take_left, List.drop_left] at hplace

theorem position_eq_sub (h : c.At before ahead) :
    c.position = byteLength (before ++ ahead) - byteLength ahead := by
  rw [byteLength_append, Nat.add_sub_cancel, h.position]

theorem byteLength_closed (inside : List Char) :
    byteLength ('(' :: inside ++ [')']) = byteLength ('(' :: inside) + 1 := by
  rw [byteLength_append]
  rfl

/-- The inside of a list in parentheses is sliced out. -/
theorem slice?_inside (inside behind : List Char) :
    slice? ('(' :: inside ++ [')'] ++ behind) 1 (byteLength ('(' :: inside)) = some inside := by
  rw [TextSlice.slice?_eq_some_iff]
  exact ⟨['('], ')' :: behind, by simp, rfl, byteLength_cons '(' inside⟩

/-- The text between two places is a slice. -/
theorem slice?_between {place : Cursor} {taken behind : List Char}
    (h : c.At before (taken ++ behind)) (hplace : place.At (before ++ taken) behind) :
    slice? (before ++ taken ++ behind) c.position place.position = some taken := by
  rw [TextSlice.slice?_eq_some_iff]
  exact ⟨before, behind, rfl, h.position, by rw [hplace.position, byteLength_append]⟩

theorem since_between {place : Cursor} {taken behind : List Char}
    (h : c.At before (taken ++ behind)) (hplace : place.At (before ++ taken) behind) :
    since stray place c.position = some taken := by
  apply slice_of_eq_some
  rw [hplace.text]
  exact slice?_between h hplace

theorem ahead_eq {place : Cursor} {taken behind : List Char} (h : c.At before ahead)
    (hplace : place.At (before ++ taken) behind) (htext : place.text = c.text) :
    ahead = taken ++ behind := by
  have hwhole := hplace.text
  rw [htext, h.text, List.append_assoc] at hwhole
  exact List.append_cancel_left hwhole

theorem copyTo_past (h : c.At before ahead) (n : Nat) :
    copyTo stray c (c.past n) = some (ahead.take n, c.past n) := by
  have hahead := h
  rw [← List.take_append_drop n ahead] at hahead
  rw [copyTo, since_between hahead (h.past n), Option.map_some]

theorem readsTo_copyTo (h : c.At before ahead) (n : Nat) :
    ReadsTo (copyTo stray c (c.past n)) (ahead.take n) (ahead.drop n) :=
  ⟨_, _, copyTo_past h n, h.past n⟩

theorem advanceChar_at (h : c.At before (d :: others)) : advanceChar stray c = some (c.past 1) := by
  rw [advanceChar, rest_at h, h.past_eq]
  simp

theorem skipWord_at (h : c.At before ahead) :
    skipWord stray c = some (c.past (ahead.takeWhile isWordChar).length) := by
  rw [skipWord, rest_at h, h.past_eq, Cursor.take_length_takeWhile, Option.map_some]

theorem past_takeWhile (h : c.At before ahead) (p : Char → Bool) :
    (c.past (ahead.takeWhile p).length).At (before ++ ahead.takeWhile p) (ahead.dropWhile p) := by
  rw [← List.takeWhile_append_dropWhile (p := p) (l := ahead)] at h
  have hplace := h.past (ahead.takeWhile p).length
  rwa [List.take_left, List.drop_left] at hplace

theorem skipBlanks_between (h : c.At before ahead) :
    c.skipBlanks.At (before ++ ahead.takeWhile isBlank) (ahead.dropWhile isBlank) := by
  rw [h.skipBlanks]
  exact past_takeWhile h isBlank

/-- A word is skipped, with nothing to skip where no word is. -/
theorem exists_skipWord (stray : Option (List Char)) (h : c.At before ahead) :
    ∃ place, skipWord stray c = some place ∧
      place.At (before ++ ahead.takeWhile isWordChar) (ahead.dropWhile isWordChar) :=
  ⟨_, skipWord_at h, past_takeWhile h isWordChar⟩

theorem position_eq_iff {place : Cursor} {taken behind : List Char} (h : c.At before ahead)
    (hplace : place.At (before ++ taken) behind) : place.position = c.position ↔ taken = [] := by
  rw [hplace.position, h.position, byteLength_append]
  cases taken with
  | nil => simp
  | cons d taken =>
    have hpos := d.utf8Size_pos
    rw [byteLength_cons]
    simp only [List.cons_ne_nil, iff_false]
    omega

theorem position_lt_iff {place : Cursor} {taken behind : List Char} (h : c.At before ahead)
    (hplace : place.At (before ++ taken) behind) : c.position < place.position ↔ taken ≠ [] := by
  rw [ne_eq, ← position_eq_iff h hplace, hplace.position, h.position,
    byteLength_append]
  omega

theorem skipBlockComment?_at (h : c.At before ahead) :
    skipBlockComment? stray c = some c.skipBlockComment? := by
  rw [skipBlockComment?, rest_at h, Cursor.skipBlockComment?, h.restChars, Option.map_some]

theorem operator?_at (h : c.At before ahead) :
    operator? stray c = some (CursorScan.operator? c) := by
  rw [operator?, rest_at h, CursorScan.operator?, h.restChars, Option.map_some]

theorem word?_at (h : c.At before ahead) : word? stray c = some (CursorScan.word? c) := by
  rw [word?, skipWord_at h, CursorScan.word?, h.skipWord, Option.map_some]

theorem operatorOrWord?_at (h : c.At before ahead) :
    operatorOrWord? stray c = some ((CursorScan.operator? c).or (CursorScan.word? c)) := by
  rw [operatorOrWord?, operator?_at h, word?_at h]
  cases CursorScan.operator? c <;> rfl

theorem isWordStart_peekChar (h : c.At before (d :: others)) :
    isWordStart (peekChar c 0) = isWordStart d := by
  apply apply_peekChar h (z := true)
  intro x hx
  have hhigh : 0x80 ≤ x.toNat := Nat.le_of_not_lt hx
  simp [isWordStart, hhigh]

theorem isAlphanumeric_ascii (h : IsAscii d) : isAlphanumeric d = d.isAlphanum := by
  have hlow : d.val < 0x80 := UInt32.lt_iff_toNat_lt.2 (by exact h)
  exact if_pos hlow

/-- Within ASCII the bytes that may start a word are the word characters. -/
theorem isWordStart_ascii (h : IsAscii d) : isWordStart d = isWordChar d := by
  have hlow : ¬ 0x80 ≤ d.toNat := Nat.not_le_of_lt h
  rw [isWordStart, isWordChar, isAlphanumeric_ascii h, decide_eq_false hlow, Bool.or_false,
    Bool.or_comm]

theorem isWordStart_of_isWordChar (h : isWordChar d = true) : isWordStart d = true := by
  by_cases hd : IsAscii d
  · rw [isWordStart_ascii hd, h]
  · have hhigh : 0x80 ≤ d.toNat := Nat.le_of_not_lt hd
    simp [isWordStart, hhigh]

/-- A literal is skipped as far as it goes, or over its quote if it is not closed. -/
theorem skipQuoted?_quote (h : c.At before (d :: others)) (hd : d = '"' ∨ d = '\'') :
    ((c.advance 1).skipQuoted? (c.peek 0)).getD (c.advance 1) =
      c.past (1 + (Extent.quoted d '\\' others).getD 0) := by
  have hmark : Cursor.IsMark d := by rcases hd with rfl | rfl <;> decide
  have hpeek : c.peek 0 = byteOf d := by
    rw [h.peek_zero, Cursor.headByte_eq_iff hmark]
    rfl
  rw [hpeek, skipQuoted?_behind h hmark.2 hmark.2]
  cases Extent.quoted d '\\' others with
  | none => exact h.advance_one hmark.2
  | some n => rw [Option.map_some, Option.getD_some, Option.getD_some, Nat.add_comm]

theorem peekChar_quote (h : c.At before (d :: others)) :
    (peekChar c 0 = '"' ∨ peekChar c 0 = '\'') ↔ (d = '"' ∨ d = '\'') := by
  rw [peekChar_zero h (by decide), peekChar_zero h (by decide)]

/-- A mark is seen at a cursor exactly if it is there. -/
theorem peekChar_eq_iff (h : c.At before ahead) {a : Char} (ha : Cursor.IsMark a) :
    peekChar c 0 = a ↔ ahead.head? = some a := by
  cases ahead with
  | nil =>
    have hend : peekChar c 0 = Char.ofNat 0 := by
      rw [peekChar, h.peek_zero]
      rfl
    rw [hend]
    constructor
    · rintro rfl
      exact absurd ha.1 (by decide)
    · intro hnone
      simp at hnone
  | cons d others =>
    rw [peekChar_zero h ha.2, List.head?_cons, Option.some.injEq]

/-- The characters at a cursor whose first two bytes open a block comment. -/
theorem eq_of_peekChar_comment (h : c.At before (d :: others))
    (hopen : peekChar c 0 = '/' ∧ peekChar c 1 = '*') :
    ∃ body, d :: others = '/' :: '*' :: body := by
  obtain rfl : d = '/' := by
    rw [← peekChar_zero h (by decide)]
    exact hopen.1
  obtain ⟨body, rfl⟩ := List.head?_eq_some_iff.1
    ((peekChar_one h isMark_slash.2 isMark_star).1 hopen.2)
  exact ⟨body, rfl⟩

/-- The lexeme on trial takes no stray slice: the rest is looked at where the lexeme starts, behind
the opening of a comment, and behind a backslash. -/
theorem atom?_at (h : c.At before (d :: others)) :
    atom? stray mode c = some (CursorScan.atom? mode c) := by
  unfold atom? CursorScan.atom?
  split_ifs with _ hcomment _ _ _ _ hescape hshort
  · rfl
  · obtain ⟨body, hbody⟩ := eq_of_peekChar_comment h hcomment
    rw [hbody] at h
    have htwo : c.advance 2 = c.past 2 := advance_two h (by decide) (by decide)
    rw [operator?_at h, htwo, skipBlockComment?_at (h.past 2)]
    cases (c.past 2).skipBlockComment? <;> rfl
  · rfl
  · rfl
  · rfl
  · rfl
  · rw [h.restChars] at hshort
    rw [rest_at h]
    exact if_pos hshort
  · rw [peekChar_zero h (by decide)] at hescape
    subst hescape
    rw [h.restChars] at hshort
    cases others with
    | nil => exact absurd (by decide) hshort
    | cons next tail =>
      have hbehind := h.past 1
      rw [rest_at h, h.advance_one (by decide), advanceChar_at hbehind, hbehind.advanceChar]
      exact if_neg hshort
  · rfl
  · exact operatorOrWord?_at h

/-- Neither does the reading of a group, up to its end or to where it fails. -/
theorem closeGroupsOr_at (h : c.At before ahead) (closers : List Char) :
    c.closeGroupsOr stray mode closers = c.closeGroups mode closers := by
  -- every round leaves fewer characters, so both loops come to the same end or fail together
  induction hn : ahead.length using Nat.strongRecOn generalizing c before ahead closers with
  | ind n ih =>
    cases closers with
    | nil => rw [Cursor.closeGroupsOr, Cursor.closeGroups]
    | cons closer outer =>
      rw [Cursor.closeGroupsOr, Cursor.closeGroups, h.atEnd]
      cases ahead with
      | nil => rfl
      | cons d others =>
        have hlt : others.length < n := by simp [← hn]
        simp only [List.isEmpty_cons, Bool.false_eq_true, if_false]
        cases hopen : Delim.ofOpener? (peekChar c 0) with
        | some delim =>
          rw [ofOpener?_peekChar h] at hopen
          have hbehind := h.past 1
          rw [← h.advance_one (isAscii_of_ofOpener? hopen)] at hbehind
          exact ih _ hlt hbehind _ rfl
        | none =>
          split_ifs with hclose hmatch
          · rw [isCloser_peekChar h] at hclose
            have hbehind := h.past 1
            rw [← h.advance_one (isAscii_of_isCloser hclose)] at hbehind
            exact ih _ hlt hbehind _ rfl
          · rfl
          · rw [atom?_at h, CursorScan.atom?_at h]
            cases hatom : Lexeme.atom? mode d others with
            | none => rfl
            | some found =>
              obtain ⟨kind, count⟩ := found
              have hbounds := atom?_bounds hatom
              have hshorter : ((d :: others).drop count).length < n := by
                rw [List.length_drop, hn]
                simp only [List.length_cons] at hn
                omega
              exact ih _ hshorter (h.past count) _ rfl

end

/-- No slice is a stray one when a balanced group is measured, also where there is none, and its
length is that over characters. -/
theorem groupLength_eq (stray : Option (List Char)) (mode : Mode) (text : List Char) :
    groupLength stray mode text =
      some ((groupLength? mode text).map fun n => byteLength (text.take n)) := by
  have hplace := at_ofChars text
  unfold groupLength
  cases text with
  | nil => rfl
  | cons d others =>
    simp only [ofOpener?_peekChar hplace, groupLength?]
    cases hopen : Delim.ofOpener? d with
    | none => rfl
    | some delim =>
      have hbehind := hplace.past 1
      rw [← hplace.advance_one (isAscii_of_ofOpener? hopen)] at hbehind
      simp only [closeGroupsOr_at hbehind, closeGroups_opener hplace hopen, Option.map_some,
        Option.map_map, Option.bind_some]
      congr 2
      funext n
      rw [Function.comp_apply, (hplace.past n).position, List.nil_append]

end CBoundary.CursorSlice
