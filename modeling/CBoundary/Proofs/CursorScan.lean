import CBoundary.Proofs.CursorPlace
import CBoundary.Proofs.TokenCoverage

/-!
Reading tokens with a cursor, byte by byte. A scan goes ahead of the token on trial, by bytes,
past escapes that may end inside a character, and is given up where a group is not closed or a
literal has no end. What keeps it right is that every lexeme starts and ends between characters.
Main statement: scanning returns and gives the tokens of the text, which partition it.
-/
namespace CBoundary.CursorScan

open ByteExtent CharacterClass Cursor Lexeme TextPosition

/-- The byte some places ahead, read as the character of that code. -/
def peekChar (c : Cursor) (distance : Nat) : Char := Char.ofNat (c.peek distance).toNat

def operator? (c : Cursor) : Option (TokenKind × Cursor) :=
  (operators.find? (·.isPrefixOf c.restChars)).map fun op =>
    (.punctuation, c.advance (byteLength op))

def word? (c : Cursor) : Option (TokenKind × Cursor) :=
  if c.position < c.skipWord.position then some (.word, c.skipWord) else none

/-- The lexeme at the cursor, if it is no bracket group, and the cursor behind it. -/
def atom? (mode : Mode) (c : Cursor) : Option (TokenKind × Cursor) :=
  if peekChar c 0 = '/' ∧ peekChar c 1 = '/' then some (.lineComment, c.skipLine)
  else if peekChar c 0 = '/' ∧ peekChar c 1 = '*' then
    match (c.advance 2).skipBlockComment? with
    | some behind => some (.blockComment, behind)
    | none => operator? c
  else if peekChar c 0 = '"' then
    ((c.advance 1).skipQuoted? (byteOf '"')).map fun behind => (.stringLiteral, behind)
  else if peekChar c 0 = '\'' then
    ((c.advance 1).skipQuoted? (byteOf '\'')).map fun behind => (.charLiteral, behind)
  else if peekChar c 0 = '\n' then some (.newline, c.advance 1)
  else if isBlank (peekChar c 0) then some (.blanks, c.skipBlanks)
  else if peekChar c 0 = '\\' then
    if byteLength c.restChars < 2 then none
    else some (.lineContinuation, (c.advance 1).advanceChar)
  else if peekChar c 0 = '#' ∧ mode = .source then some (.directive, c.skipLine)
  else (operator? c).or (word? c)

end CBoundary.CursorScan

namespace CBoundary.Cursor

open CursorScan
open Lexeme (Mode)

/-- Reads on until every bracket of `closers` is closed, innermost first, and answers where that
is, if it comes to it. There is no answer at all unless the loop ends. -/
def closeGroups (mode : Mode) (closers : List Char) (c : Cursor) : Option (Option Cursor) :=
  match closers with
  | [] => some (some c)
  | closer :: outer =>
      if c.atEnd then some none
      else
        match Delim.ofOpener? (peekChar c 0) with
        | some delim => c.advance 1 |>.closeGroups mode (delim.closer :: closer :: outer)
        | none =>
            if Delim.isCloser (peekChar c 0) then
              if peekChar c 0 = closer then c.advance 1 |>.closeGroups mode outer else some none
            else
              match atom? mode c with
              | none => some none
              | some (_, behind) => behind |>.closeGroups mode (closer :: outer)
partial_fixpoint

/-- The lexeme at the cursor and the cursor behind it: a whole bracket group, another lexeme, or
one unknown character. -/
def first (mode : Mode) (c : Cursor) : Option (TokenKind × Cursor) :=
  match Delim.ofOpener? (peekChar c 0) with
  | some delim =>
      ((c.advance 1).closeGroups mode [delim.closer]).map fun closed =>
        (closed.map fun behind => (.group delim, behind)).getD (.unknown, c.advanceChar)
  | none => some ((atom? mode c).getD (.unknown, c.advanceChar))

/-- The tokens from the cursor on, if the loop ends. -/
def tokens (mode : Mode) (base index : Nat) (c : Cursor) : Option (List Token) :=
  if c.atEnd then some []
  else do
    let (kind, behind) ← c.first mode
    let others ← behind |>.tokens mode base (index + 1)
    some (⟨index, ⟨base + c.position, base + behind.position⟩, kind, behind.since c.position⟩ ::
      others)
partial_fixpoint

end CBoundary.Cursor

namespace CBoundary.CursorScan

open ByteExtent CharacterClass Cursor Lexeme TextPosition

/-- The tokens of a text that starts at byte `base` of its file. -/
def scan (mode : Mode) (base : Nat) (text : String) : Option (List Token) :=
  (Cursor.ofText text).tokens mode base 0

section

variable {mode : Mode} {c : Cursor} {before rest others : List Char} {d : Char}

/-- What holds of no character outside ASCII holds of the byte at a cursor exactly if it holds of
the character there. -/
theorem apply_peekChar (h : c.At before (d :: others)) {β : Type} {f : Char → β} {z : β}
    (hf : ∀ x, ¬ IsAscii x → f x = z) : f (peekChar c 0) = f d := by
  have hmem := headByte_cons d others
  rw [peekChar, h.peek_zero]
  by_cases hd : IsAscii d
  · rw [encode_ascii hd, List.mem_singleton] at hmem
    rw [hmem, ofNat_byteOf hd]
  · have hhigh := le_of_mem_encode hd hmem
    have hbyte : ¬ IsAscii (Char.ofNat (headByte (d :: others)).toNat) := by
      rw [IsAscii, toNat_ofNat_byte]
      omega
    rw [hf _ hbyte, hf d hd]

theorem peekChar_zero (h : c.At before (d :: others)) {a : Char} (ha : IsAscii a) :
    (peekChar c 0 = a) = (d = a) := by
  apply apply_peekChar h (f := (· = a)) (z := False)
  intro x hx
  exact eq_false fun hxa => hx (hxa ▸ ha)

theorem peekChar_one (h : c.At before (d :: others)) (hd : IsAscii d) {a : Char} (ha : IsMark a) :
    peekChar c 1 = a ↔ others.head? = some a := by
  rw [← headByte_eq_iff ha, peekChar, h.peek_one hd]
  constructor
  · intro hchar
    rw [← hchar, byteOf, toNat_ofNat_byte, UInt8.ofNat_toNat]
  · intro hbyte
    rw [hbyte, ofNat_byteOf ha.2]

theorem isBlank_peekChar (h : c.At before (d :: others)) : isBlank (peekChar c 0) = isBlank d :=
  apply_peekChar h fun _ hx => Bool.eq_false_iff.2 fun hblank => hx (isAscii_of_isBlank hblank)

theorem ofOpener?_peekChar (h : c.At before (d :: others)) :
    Delim.ofOpener? (peekChar c 0) = Delim.ofOpener? d := by
  apply apply_peekChar h (z := none)
  intro x hx
  unfold Delim.ofOpener?
  split
  · exact absurd (by decide) hx
  · exact absurd (by decide) hx
  · exact absurd (by decide) hx
  · rfl

theorem isCloser_peekChar (h : c.At before (d :: others)) :
    Delim.isCloser (peekChar c 0) = Delim.isCloser d := by
  apply apply_peekChar h (z := false)
  intro x hx
  apply Bool.eq_false_iff.2
  intro hcloser
  simp only [Delim.isCloser, Bool.or_eq_true, beq_iff_eq] at hcloser
  rcases hcloser with (rfl | rfl) | rfl <;> exact hx (by decide)

theorem operator?_at (h : c.At before rest) :
    operator? c = (Lexeme.operator? rest).map fun found => (found.1, c.past found.2) := by
  unfold operator? Lexeme.operator?
  rw [h.restChars]
  cases hop : operators.find? (·.isPrefixOf rest) with
  | none => rfl
  | some op =>
    have hprefix : op <+: rest := List.isPrefixOf_iff_prefix.1
      (List.find?_some (p := fun op : List Char => op.isPrefixOf rest) hop)
    simp only [Option.map_some]
    rw [h.past_eq, ← List.prefix_iff_eq_take.1 hprefix]

theorem word?_at (h : c.At before rest) :
    word? c = (Lexeme.word? rest).map fun found => (found.1, c.past found.2) := by
  have hlength := congrArg byteLength (take_length_takeWhile isWordChar rest)
  unfold word? Lexeme.word?
  rw [h.skipWord, h.past_eq, Cursor.advance]
  cases hn : (rest.takeWhile isWordChar).length with
  | zero => simp
  | succ n =>
    have hne : rest.takeWhile isWordChar ≠ [] := by
      intro hnil
      rw [hnil] at hn
      simp at hn
    have hpos := TextSlice.byteLength_pos hne
    rw [hn] at hlength
    rw [if_pos (by simp only; omega), Option.map_some, h.past_eq]
    rfl

theorem operatorOrWord?_at (h : c.At before rest) :
    (operator? c).or (word? c) =
      (Lexeme.operatorOrWord? rest).map fun found => (found.1, c.past found.2) := by
  rw [operator?_at h, word?_at h, Lexeme.operatorOrWord?]
  cases Lexeme.operator? rest <;> rfl

/-- A literal behind its opening quote. -/
theorem skipQuoted?_behind (h : c.At before (d :: others)) (hd : IsAscii d) {quote : Char}
    (hquote : IsAscii quote) :
    (c.advance 1).skipQuoted? (byteOf quote) =
      (Extent.quoted quote '\\' others).map fun n => c.past (n + 1) := by
  rw [h.advance_one hd, (h.past 1).skipQuoted? hquote]
  congr 1
  funext n
  rw [h.past_past, Nat.add_comm]

/-- A block comment behind its opening. -/
theorem skipBlockComment?_behind {body : List Char} (h : c.At before ('/' :: '*' :: body)) :
    (c.advance 2).skipBlockComment? =
      (Extent.pair '*' '/' body).map fun n => c.past (n + 2) := by
  have htwo : c.advance 2 = c.past 2 := by
    rw [h.past_eq]
    rfl
  rw [htwo, (h.past 2).skipBlockComment?]
  congr 1
  funext n
  rw [h.past_past, Nat.add_comm]

theorem isMark_slash : IsMark '/' := by decide

theorem isMark_star : IsMark '*' := by decide

/-- Two characters that open no comment do not look like it byte by byte. -/
theorem not_opening (h : c.At before (d :: others)) {a : Char} (ha : IsMark a)
    (hnone : ∀ tail, d = '/' → others = a :: tail → False) :
    ¬ (d = '/' ∧ peekChar c 1 = a) := by
  rintro ⟨rfl, hpeek⟩
  have hhead := (peekChar_one h isMark_slash.2 ha).1 hpeek
  obtain ⟨tail, htail⟩ := List.head?_eq_some_iff.1 hhead
  exact hnone tail rfl htail

/-- The lexeme at a cursor is the lexeme at the start of the characters there. -/
theorem atom?_at (h : c.At before (d :: others)) :
    atom? mode c =
      (Lexeme.atom? mode d others).map fun found => (found.1, c.past found.2) := by
  have hchar : ∀ a : Char, IsAscii a → ((peekChar c 0 = a) = (d = a)) :=
    fun a ha => peekChar_zero h ha
  unfold atom?
  rw [isBlank_peekChar h]
  simp only [hchar '/' (by decide), hchar '"' (by decide), hchar '\'' (by decide),
    hchar '\n' (by decide), hchar '\\' (by decide), hchar '#' (by decide)]
  fun_cases Lexeme.atom? mode d others with
  | case1 tail =>
    have hslash := (peekChar_one h isMark_slash.2 isMark_slash).2 rfl
    rw [if_pos ⟨rfl, hslash⟩, h.skipLine, line_cons (by decide) (by decide)]
    rfl
  | case2 body n hpair =>
    have hslash := peekChar_one h isMark_slash.2 isMark_slash
    have hstar := (peekChar_one h isMark_slash.2 isMark_star).2 rfl
    rw [if_neg fun hc => absurd (hslash.1 hc.2) (by simp), if_pos ⟨rfl, hstar⟩,
      skipBlockComment?_behind h, hpair]
    rfl
  | case3 body hpair =>
    have hslash := peekChar_one h isMark_slash.2 isMark_slash
    have hstar := (peekChar_one h isMark_slash.2 isMark_star).2 rfl
    rw [if_neg fun hc => absurd (hslash.1 hc.2) (by simp), if_pos ⟨rfl, hstar⟩,
      skipBlockComment?_behind h, hpair]
    exact operator?_at h
  | case4 others =>
    simp only [Char.reduceEq, false_and, if_false, if_true]
    rw [skipQuoted?_behind h (by decide) (by decide), Option.map_map, Option.map_map]
    rfl
  | case5 others =>
    simp only [Char.reduceEq, false_and, if_false, if_true]
    rw [skipQuoted?_behind h (by decide) (by decide), Option.map_map, Option.map_map]
    rfl
  | case6 others =>
    simp only [Char.reduceEq, false_and, if_false, if_true]
    rw [h.advance_one (by decide)]
    rfl
  | case7 =>
    have hblank : isBlank '\\' = false := by decide
    have hshort : byteLength c.restChars < 2 := by
      rw [h.restChars]
      decide
    simp only [Char.reduceEq, false_and, if_false, if_true, hblank, Bool.false_eq_true, hshort]
    rfl
  | case8 next tail =>
    have hblank : isBlank '\\' = false := by decide
    have hlong : ¬ byteLength c.restChars < 2 := by
      have hescape : ('\\' : Char).utf8Size = 1 := rfl
      have hpos := next.utf8Size_pos
      rw [h.restChars, byteLength_cons, byteLength_cons]
      omega
    simp only [Char.reduceEq, false_and, if_false, if_true, hblank, Bool.false_eq_true, hlong]
    rw [h.advance_one (by decide), (h.past 1).advanceChar, h.past_past]
    rfl
  | case9 others hmode =>
    have hblank : isBlank '#' = false := by decide
    simp only [Char.reduceEq, false_and, if_false, if_true, hblank, Bool.false_eq_true, hmode,
      and_self]
    rw [h.skipLine, line_cons (by decide) (by decide)]
    rfl
  | case10 others hmode =>
    have hblank : isBlank '#' = false := by decide
    simp only [Char.reduceEq, false_and, if_false, hblank, Bool.false_eq_true, hmode, and_false]
    exact operatorOrWord?_at h
  | case11 others d hblank hdouble hsingle hnewline hdirective hline hblock hescape hescaped =>
    rw [if_neg (not_opening h isMark_slash hline),
      if_neg (not_opening h isMark_star hblock), if_neg hdouble, if_neg hsingle,
      if_neg hnewline, if_pos hblank, if_pos hblank, h.skipBlanks,
      List.takeWhile_cons_of_pos hblank, List.length_cons, Nat.add_comm]
    rfl
  | case12 others d hblank hdouble hsingle hnewline hdirective hline hblock hescape hescaped =>
    have hnoescape : ¬ d = '\\' := by
      intro hd
      cases others with
      | nil => exact hescape hd rfl
      | cons next tail => exact hescaped next tail hd rfl
    rw [if_neg (not_opening h isMark_slash hline),
      if_neg (not_opening h isMark_star hblock), if_neg hdouble, if_neg hsingle,
      if_neg hnewline, if_neg hblank, if_neg hblank, if_neg hnoescape,
      if_neg fun hc => hdirective hc.1]
    exact operatorOrWord?_at h

/-- A place found from further on is the same place. -/
theorem map_past_behind (h : c.At before rest) {seen count : Nat} {found : Option Nat}
    (hbound : ∀ n, found = some n → seen + count ≤ n) :
    (found.map fun n => (c.past count).past (n - (seen + count))) =
      found.map fun n => c.past (n - seen) := by
  cases found with
  | none => rfl
  | some n =>
    have hle := hbound n rfl
    rw [Option.map_some, Option.map_some, h.past_past,
      show count + (n - (seen + count)) = n - seen by omega]

theorem isAscii_of_ofOpener? {delim : Delim} (h : Delim.ofOpener? d = some delim) : IsAscii d := by
  unfold Delim.ofOpener? at h
  split at h
  · decide
  · decide
  · decide
  · simp at h

theorem isAscii_of_isCloser (h : Delim.isCloser d = true) : IsAscii d := by
  simp only [Delim.isCloser, Bool.or_eq_true, beq_iff_eq] at h
  rcases h with (rfl | rfl) | rfl <;> decide

/-- Closing brackets by bytes ends, and it fails exactly if it does over characters. -/
theorem closeGroups_at (h : c.At before rest) (closers : List Char) (seen : Nat) :
    c.closeGroups mode closers =
      some ((Lexeme.closeGroups mode closers seen rest).map fun n => c.past (n - seen)) := by
  fun_induction Lexeme.closeGroups mode closers seen rest generalizing c before with
  | case1 seen text =>
    rw [Cursor.closeGroups, Option.map_some, Nat.sub_self, h.past_eq]
    rfl
  | case2 closer outer seen =>
    rw [Cursor.closeGroups, h.atEnd]
    rfl
  | case3 seen closer outer d rest delim hopen ih =>
    have hbound : ∀ n, Lexeme.closeGroups mode (delim.closer :: closer :: outer) (seen + 1) rest =
        some n → seen + 1 ≤ n := by
      intro n hn
      exact Nat.le_trans (Nat.le_add_right _ _) (closeGroups_bounds hn).1
    rw [Cursor.closeGroups, h.atEnd, ofOpener?_peekChar h, hopen, ← map_past_behind h hbound,
      h.advance_one (isAscii_of_ofOpener? hopen)]
    exact ih (h.past 1)
  | case4 seen outer d rest hopen hclose ih =>
    have hascii := isAscii_of_isCloser hclose
    have hbound : ∀ n, Lexeme.closeGroups mode outer (seen + 1) rest = some n → seen + 1 ≤ n := by
      intro n hn
      exact Nat.le_trans (Nat.le_add_right _ _) (closeGroups_bounds hn).1
    have hpeek : peekChar c 0 = d := by rw [peekChar_zero h hascii]
    rw [Cursor.closeGroups, h.atEnd, hpeek, hopen, ← map_past_behind h hbound, h.advance_one hascii]
    simp only [List.isEmpty_cons, Bool.false_eq_true, if_false, hclose, if_true]
    exact ih (h.past 1)
  | case5 seen closer outer d rest hopen hclose hne =>
    have hpeek : peekChar c 0 = d := by rw [peekChar_zero h (isAscii_of_isCloser hclose)]
    rw [Cursor.closeGroups, h.atEnd, hpeek, hopen]
    simp only [List.isEmpty_cons, Bool.false_eq_true, if_false, hclose, if_true, hne]
    rfl
  | case6 seen closer outer d rest hopen hclose hatom =>
    rw [Cursor.closeGroups, h.atEnd, ofOpener?_peekChar h, hopen, isCloser_peekChar h, atom?_at h,
      hatom]
    simp only [List.isEmpty_cons, Bool.false_eq_true, if_false, hclose]
    rfl
  | case7 seen closer outer d rest hopen hclose kind count hatom ih =>
    have hbound : ∀ n, Lexeme.closeGroups mode (closer :: outer) (seen + count)
        ((d :: rest).drop count) = some n → seen + count ≤ n := by
      intro n hn
      exact Nat.le_trans (Nat.le_add_right _ _) (closeGroups_bounds hn).1
    rw [Cursor.closeGroups, h.atEnd, ofOpener?_peekChar h, hopen, isCloser_peekChar h, atom?_at h,
      hatom, ← map_past_behind h hbound]
    simp only [List.isEmpty_cons, Bool.false_eq_true, if_false, hclose]
    exact ih (h.past count)

/-- Behind an opening bracket, the group is closed where it is over characters. -/
theorem closeGroups_opener (h : c.At before (d :: others)) {delim : Delim}
    (hopen : Delim.ofOpener? d = some delim) :
    (c.advance 1).closeGroups mode [delim.closer] =
      some ((group? mode delim others).map c.past) := by
  have hbound : ∀ n, group? mode delim others = some n → 0 + 1 ≤ n := by
    intro n hn
    have hle := group?_bounds hn
    omega
  rw [h.advance_one (isAscii_of_ofOpener? hopen), closeGroups_at (h.past 1) [delim.closer] 1]
  exact congrArg some (map_past_behind h hbound)

theorem first_at (h : c.At before (d :: others)) :
    c.first mode =
      some ((Lexeme.first mode d others).1, c.past (Lexeme.first mode d others).2) := by
  unfold Cursor.first Lexeme.first
  rw [ofOpener?_peekChar h, h.advanceChar]
  cases hopen : Delim.ofOpener? d with
  | none =>
    simp only [atom?_at h]
    cases Lexeme.atom? mode d others <;> rfl
  | some delim =>
    simp only [closeGroups_opener h hopen, Option.map_some]
    cases group? mode delim others <;> rfl

/-- Reading with a cursor ends and gives the tokens of the characters ahead. -/
theorem tokens_at (base index : Nat) (h : c.At before rest) :
    c.tokens mode base index =
      some (TokenStream.ofChars mode index (base + byteLength before) rest) := by
  induction hn : rest.length using Nat.strongRecOn generalizing c before rest index with
  | ind n ih =>
    rw [tokens, h.atEnd]
    cases rest with
    | nil =>
      rw [TokenStream.ofChars_nil]
      rfl
    | cons d others =>
      have hbounds := Lexeme.first_bounds mode d others
      have hlt : ((d :: others).drop (Lexeme.first mode d others).2).length < n := by
        rw [← hn, List.length_drop, List.length_cons]
        omega
      have hbehind := h.past (Lexeme.first mode d others).2
      have hothers := ih _ hlt (index + 1) hbehind rfl
      rw [byteLength_append, ← Nat.add_assoc] at hothers
      have hposition := hbehind.position
      rw [byteLength_append] at hposition
      simp only [List.isEmpty_cons, Bool.false_eq_true, if_false, first_at h,
        Option.bind_eq_bind, Option.bind_some, hothers]
      rw [TokenStream.ofChars_cons, h.since_past, h.position, hposition, Nat.add_assoc]

end

/-- Reading a text with a cursor ends and gives its tokens, and these partition it. -/
theorem scan_partition (mode : Mode) (base : Nat) (text : String) :
    scan mode base text = some (TokenStream.ofText mode base text) ∧
      TokenCoverage.Partition base text (TokenStream.ofText mode base text) :=
  ⟨tokens_at base 0 (at_ofText text), TokenCoverage.ofText_partition mode base text⟩

end CBoundary.CursorScan
