import CBoundary.Cursor
import CBoundary.Proofs.ByteExtent

/-!
Cursors that stand between characters. From such a place every skip of a cursor, which counts
bytes, goes exactly as far as the element over characters goes, and so it ends between
characters again. A skip that fails over characters fails over bytes.
-/
namespace CBoundary.Cursor

open ByteExtent CharacterClass TextPosition TextSlice

/-- The cursor stands between what is before it and the rest. -/
structure At (c : Cursor) (before rest : List Char) : Prop where
  text : c.text.toList = before ++ rest
  position : c.position = byteLength before

/-- The cursor some characters further on. -/
def past (c : Cursor) (n : Nat) : Cursor := c.advance (byteLength (c.restChars.take n))

variable {c : Cursor} {before rest others : List Char} {d : Char}

theorem at_ofText (text : String) : (ofText text).At [] text.toList := ⟨rfl, rfl⟩

theorem At.ahead (h : c.At before rest) : c.ahead = utf8 rest := by
  rw [Cursor.ahead, bytes, h.text, utf8_append, h.position, ← length_utf8, List.drop_left]

theorem At.size (h : c.At before rest) : c.size = byteLength before + byteLength rest := by
  rw [Cursor.size, h.text, byteLength_append]

theorem At.atEnd (h : c.At before rest) : c.atEnd = rest.isEmpty := by
  rw [Cursor.atEnd, h.size, h.position]
  cases rest with
  | nil => simp
  | cons d rest =>
    have hpos := d.utf8Size_pos
    rw [List.isEmpty_cons, byteLength_cons]
    apply decide_eq_false
    omega

/-- The text from the position on is a slice. -/
theorem At.slice?_rest (h : c.At before rest) :
    slice? c.text.toList c.position c.size = some rest := by
  rw [slice?_eq_some_iff]
  exact ⟨before, [], by rw [h.text, List.append_nil], h.position, h.size⟩

theorem At.restChars (h : c.At before rest) : c.restChars = rest := by
  rw [Cursor.restChars, h.slice?_rest, Option.getD_some]

theorem At.past_eq (h : c.At before rest) (n : Nat) :
    c.past n = c.advance (byteLength (rest.take n)) := by
  rw [Cursor.past, h.restChars]

theorem At.past (h : c.At before rest) (n : Nat) :
    (c.past n).At (before ++ rest.take n) (rest.drop n) := by
  rw [h.past_eq]
  refine ⟨?_, ?_⟩
  · rw [List.append_assoc, List.take_append_drop]
    exact h.text
  · rw [byteLength_append, ← h.position]
    rfl

theorem At.past_past (h : c.At before rest) (m n : Nat) : (c.past m).past n = c.past (m + n) := by
  rw [(h.past m).past_eq, h.past_eq, h.past_eq, List.take_add, byteLength_append, advance,
    advance, advance, Nat.add_assoc]

/-- The text that a cursor has moved over. -/
theorem At.since_past (h : c.At before rest) (n : Nat) :
    (c.past n).since c.position = String.ofList (rest.take n) := by
  have hslice : slice? c.text.toList c.position (c.position + byteLength (rest.take n)) =
      some (rest.take n) := by
    rw [slice?_eq_some_iff]
    refine ⟨before, rest.drop n, ?_, h.position, by rw [h.position]⟩
    rw [List.append_assoc, List.take_append_drop]
    exact h.text
  rw [h.past_eq, Cursor.since, Cursor.advance, hslice, Option.getD_some]

theorem At.advanceChar (h : c.At before (d :: others)) : c.advanceChar = c.past 1 := by
  rw [Cursor.advanceChar, Cursor.char?, Cursor.past, h.restChars]
  simp

theorem At.advance_one (h : c.At before (d :: others)) (hd : IsAscii d) :
    c.advance 1 = c.past 1 := by
  rw [h.past_eq]
  simp [utf8Size_ascii hd]

/-- The first byte of a text, or zero. -/
def headByte (text : List Char) : UInt8 := (utf8 text).headD 0

theorem At.peek_zero (h : c.At before rest) : c.peek 0 = headByte rest := by
  rw [Cursor.peek, h.ahead]
  rfl

theorem At.peek_one (h : c.At before (d :: others)) (hd : IsAscii d) :
    c.peek 1 = headByte others := by
  rw [Cursor.peek, h.ahead, utf8_cons, encode_ascii hd]
  rfl

theorem headByte_cons (d : Char) (others : List Char) :
    headByte (d :: others) ∈ String.utf8EncodeChar d := by
  obtain ⟨first, more, hbytes, -⟩ := encode_eq_cons d
  rw [headByte, utf8_cons, hbytes]
  exact List.mem_cons_self

/-- An ASCII character whose byte cannot be mistaken for the zero behind the text. -/
def IsMark (a : Char) : Prop := 0 < a.toNat ∧ IsAscii a

instance (a : Char) : Decidable (IsMark a) := inferInstanceAs (Decidable (_ ∧ _))

theorem byteOf_ne_zero {a : Char} (ha : IsMark a) : byteOf a ≠ 0 := by
  intro hzero
  have hcode := congrArg UInt8.toNat hzero
  rw [toNat_byteOf ha.2] at hcode
  exact Nat.ne_of_gt ha.1 hcode

/-- The first byte of a text is that of a mark if the first character is the mark. -/
theorem headByte_eq_iff {text : List Char} {a : Char} (ha : IsMark a) :
    headByte text = byteOf a ↔ text.head? = some a := by
  cases text with
  | nil => simp [headByte, Ne.symm (byteOf_ne_zero ha)]
  | cons d others =>
    have hmem := headByte_cons d others
    rw [List.head?_cons, Option.some.injEq]
    constructor
    · intro hfirst
      rw [hfirst] at hmem
      exact (byteOf_mem_encode ha.2).1 hmem
    · rintro rfl
      rw [encode_ascii ha.2] at hmem
      exact List.mem_singleton.1 hmem

theorem isAscii_escape : IsAscii '\\' := by decide

theorem At.skipLine (h : c.At before rest) :
    c.skipLine = c.past (Extent.line '\n' '\\' rest) := by
  have hnewline : IsAscii '\n' := by decide
  have hmin : min c.position c.size = c.position := by
    rw [h.size, h.position]
    omega
  rw [Cursor.skipLine, hmin, h.ahead, h.past_eq, Cursor.advance,
    ← line_utf8 hnewline isAscii_escape rest]
  rfl

theorem At.skipQuoted? (h : c.At before rest) {quote : Char} (hquote : IsAscii quote) :
    c.skipQuoted? (byteOf quote) = (Extent.quoted quote '\\' rest).map c.past := by
  have hbytes := quoted_utf8 hquote isAscii_escape rest
  rw [← h.ahead] at hbytes
  rw [← h.restChars] at hbytes ⊢
  calc
    _ = (Extent.quoted (byteOf quote) (byteOf '\\') c.ahead).map c.advance := rfl
    _ = _ := by rw [hbytes, Option.map_map]; rfl

theorem At.skipBlockComment? (h : c.At before rest) :
    c.skipBlockComment? = (Extent.pair '*' '/' rest).map c.past := by
  have hstar : IsAscii '*' := by decide
  have hslash : IsAscii '/' := by decide
  have hbytes := pair_utf8 hstar hslash rest
  rw [← h.restChars] at hbytes ⊢
  calc
    _ = (Extent.pair (byteOf '*') (byteOf '/') (utf8 c.restChars)).map c.advance := rfl
    _ = _ := by rw [hbytes, Option.map_map]; rfl

theorem take_length_takeWhile (p : Char → Bool) (text : List Char) :
    text.take (text.takeWhile p).length = text.takeWhile p :=
  (List.prefix_iff_eq_take.1 (List.takeWhile_prefix p)).symm

theorem At.skipWord (h : c.At before rest) :
    c.skipWord = c.past (rest.takeWhile isWordChar).length := by
  rw [Cursor.skipWord, h.restChars, h.past_eq, take_length_takeWhile]

/-- A byte, read as the character of that code. -/
theorem toNat_ofNat_byte (b : UInt8) : (Char.ofNat b.toNat).toNat = b.toNat := by
  have hlt : b.toNat < 0x100 := b.toNat_lt
  have hvalid : b.toNat.isValidChar := Or.inl (by omega)
  rw [Char.ofNat, dif_pos hvalid]
  rfl

theorem ofNat_byteOf {a : Char} (ha : IsAscii a) : Char.ofNat (byteOf a).toNat = a := by
  rw [toNat_byteOf ha, Char.ofNat_toNat]

theorem isAscii_of_isBlank {a : Char} (h : isBlank a = true) : IsAscii a := by
  simp only [isBlank, Bool.or_eq_true, beq_iff_eq] at h
  rcases h with (((rfl | rfl) | rfl) | rfl) | rfl <;> decide

/-- A byte of a character is that of a blank exactly if the character is a blank. -/
theorem isBlankByte_of_mem_encode {b : UInt8} (hb : b ∈ String.utf8EncodeChar d) :
    isBlankByte b = isBlank d := by
  by_cases hd : IsAscii d
  · rw [encode_ascii hd, List.mem_singleton] at hb
    rw [hb, isBlankByte, ofNat_byteOf hd]
  · have hhigh := le_of_mem_encode hd hb
    have hbyte : ¬ isBlankByte b = true := by
      intro hblank
      have hascii : (Char.ofNat b.toNat).toNat < 0x80 := isAscii_of_isBlank hblank
      rw [toNat_ofNat_byte] at hascii
      omega
    have hchar : ¬ isBlank d = true := fun hblank => hd (isAscii_of_isBlank hblank)
    rw [Bool.eq_false_iff.2 hbyte, Bool.eq_false_iff.2 hchar]

theorem length_takeWhile_isBlankByte (text : List Char) :
    ((utf8 text).takeWhile isBlankByte).length = byteLength (text.takeWhile isBlank) := by
  induction text with
  | nil => rfl
  | cons d text ih =>
    by_cases hd : isBlank d = true
    · have hascii := isAscii_of_isBlank hd
      have hbyte : isBlankByte (byteOf d) = true := by
        rw [isBlankByte, ofNat_byteOf hascii, hd]
      rw [utf8_cons, encode_ascii hascii, List.singleton_append,
        List.takeWhile_cons_of_pos hbyte, List.takeWhile_cons_of_pos hd, List.length_cons,
        byteLength_cons, utf8Size_ascii hascii, ih, Nat.add_comm]
    · obtain ⟨first, more, hbytes, -⟩ := encode_eq_cons d
      have hfirst : ¬ isBlankByte first = true := by
        rw [isBlankByte_of_mem_encode (d := d) (by rw [hbytes]; exact List.mem_cons_self)]
        exact hd
      rw [utf8_cons, hbytes, List.cons_append, List.takeWhile_cons_of_neg hfirst,
        List.takeWhile_cons_of_neg hd]
      rfl

theorem At.skipBlanks (h : c.At before rest) :
    c.skipBlanks = c.past (rest.takeWhile isBlank).length := by
  rw [Cursor.skipBlanks, Cursor.skipWhile, h.ahead, length_takeWhile_isBlankByte, h.past_eq,
    take_length_takeWhile]

end CBoundary.Cursor
