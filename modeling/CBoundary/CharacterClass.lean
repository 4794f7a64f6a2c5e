import CBoundary.AlphanumericRanges

/-!
Character classes of C source text. Three of them matter to the scanner: the blanks that may
stand inside a line, the characters that make up a word, and the ASCII digits. The fourth,
Unicode white space, decides what trimming removes.
-/
namespace CBoundary.CharacterClass

/-- Space, tab, carriage return, vertical tab or form feed: white space that ends no line. -/
def isBlank (c : Char) : Bool :=
  c == ' ' || c == '\t' || c == '\r' || c == '\x0b' || c == '\x0c'

/-- ASCII letters and digits, and every character outside ASCII that Unicode counts as
alphabetic or numeric. -/
def isAlphanumeric (c : Char) : Bool :=
  if c.val < 0x80 then c.isAlphanum else AlphanumericRanges.contains c.toNat

/-- The characters of identifiers, keywords and numbers. -/
def isWordChar (c : Char) : Bool :=
  c == '_' || isAlphanumeric c

/-- The White_Space property of Unicode. -/
def isWhitespace (c : Char) : Bool :=
  let n := c.toNat
  (9 ≤ n && n ≤ 13) || n == 0x20 || n == 0x85 || n == 0xa0 || n == 0x1680 ||
    (0x2000 ≤ n && n ≤ 0x200a) || n == 0x2028 || n == 0x2029 || n == 0x202f ||
    n == 0x205f || n == 0x3000

/-- The text without its leading white space. -/
def trimStart (text : List Char) : List Char :=
  text.dropWhile isWhitespace

/-- The text without its trailing white space. -/
def trimEnd (text : List Char) : List Char :=
  (text.reverse.dropWhile isWhitespace).reverse

/-- The text without white space at either end. -/
def trim (text : List Char) : List Char :=
  trimEnd (trimStart text)

/-- A blank is white space of one byte that is no newline, so blanks never end a line. -/
theorem isWhitespace_of_isBlank {c : Char} (h : isBlank c = true) : isWhitespace c = true := by
  simp only [isBlank, Bool.or_eq_true, beq_iff_eq] at h
  rcases h with (((rfl | rfl) | rfl) | rfl) | rfl <;> rfl

theorem trimEnd_prefix (text : List Char) : trimEnd text <+: text := by
  have h := List.dropWhile_suffix (l := text.reverse) isWhitespace
  simpa [trimEnd] using List.reverse_prefix.2 h

end CBoundary.CharacterClass
