import CBoundary.Extent
import CBoundary.CharacterClass
import CBoundary.TextPosition

/-!
A position in a text, counted in bytes. A cursor may stand inside a character or past the end
of its text. There it sees no character and the rest of the text reads as empty, while the
bytes are still there to be scanned. Cursors are values, so a scan that fails is undone by
going on with the cursor from before it.
-/
namespace CBoundary

/-- A text and a byte position in it. -/
structure Cursor where
  text : String
  position : Nat
deriving DecidableEq, Repr, Inhabited

namespace Cursor

open CharacterClass TextPosition

/-- The cursor at the start of a text. -/
def ofText (text : String) : Cursor := ⟨text, 0⟩

def bytes (c : Cursor) : List UInt8 := utf8 c.text.toList

/-- Length of the text in bytes. -/
def size (c : Cursor) : Nat := byteLength c.text.toList

/-- The bytes from the position on. -/
def ahead (c : Cursor) : List UInt8 := c.bytes.drop c.position

/-- The byte `distance` places ahead, or zero past the end. -/
def peek (c : Cursor) (distance : Nat) : UInt8 := (c.ahead.drop distance).headD 0

/-- Has every byte been passed? -/
def atEnd (c : Cursor) : Bool := c.size ≤ c.position

/-- The characters from the position on; none if it stands inside a character. -/
def restChars (c : Cursor) : List Char := (slice? c.text.toList c.position c.size).getD []

/-- The text from the position on. -/
def rest (c : Cursor) : String := String.ofList c.restChars

/-- The character at the position. -/
def char? (c : Cursor) : Option Char := c.restChars.head?

/-- The text from byte `start` up to the position; empty unless both stand between
characters, in this order. -/
def since (c : Cursor) (start : Nat) : String :=
  String.ofList ((slice? c.text.toList start c.position).getD [])

def startsWith (c : Cursor) (start : String) : Bool := start.toList.isPrefixOf c.restChars

/-- Moves on by `count` bytes, past the end if need be. -/
def advance (c : Cursor) (count : Nat) : Cursor := { c with position := c.position + count }

/-- Moves on by one character, or by one byte where there is none. -/
def advanceChar (c : Cursor) : Cursor :=
  c.advance ((c.char?.map Char.utf8Size).getD 1)

/-- Moves on while the bytes satisfy `p`. -/
def skipWhile (c : Cursor) (p : UInt8 → Bool) : Cursor :=
  c.advance (c.ahead.takeWhile p).length

/-- The bytes of the blanks. -/
def isBlankByte (byte : UInt8) : Bool := isBlank (Char.ofNat byte.toNat)

/-- Moves on over blanks. -/
def skipBlanks (c : Cursor) : Cursor := c.skipWhile isBlankByte

/-- Moves on over word characters. -/
def skipWord (c : Cursor) : Cursor :=
  c.advance (byteLength (c.restChars.takeWhile isWordChar))

/-- Moves to just past the next newline that no backslash escapes, or to the end. -/
def skipLine (c : Cursor) : Cursor :=
  { c with position := min c.position c.size + Extent.line newline 0x5c c.ahead }

/-- Moves past the end of a block comment whose opening has been passed, if it is closed. -/
def skipBlockComment? (c : Cursor) : Option Cursor :=
  (Extent.pair 0x2a 0x2f (utf8 c.restChars)).map c.advance

/-- Moves past the closing `quote` of a literal whose opening quote has been passed, if it is
closed. -/
def skipQuoted? (c : Cursor) (quote : UInt8) : Option Cursor :=
  (Extent.quoted quote 0x5c c.ahead).map c.advance

end Cursor

end CBoundary
