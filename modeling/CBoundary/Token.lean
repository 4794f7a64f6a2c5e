import CBoundary.CharacterClass

/-!
Tokens of C text. A token knows the byte range it occupies in the file it was read from, so
positions survive when the inside of a bracket group is read again on its own. A bracket
group is a single token that spans both brackets and everything between them. Two sightings
of a declaration are compared by the texts of their tokens, never by position.
-/
namespace CBoundary

/-- A byte range of a file; `stop` is the offset after its last byte. -/
structure Span where
  start : Nat
  stop : Nat
deriving DecidableEq, Repr, Inhabited

namespace Span

/-- The empty range at the start of a file, used for tokens that come from no file. -/
def nowhere : Span := ⟨0, 0⟩

/-- Number of bytes in the range. -/
def length (s : Span) : Nat := s.stop - s.start

def isEmpty (s : Span) : Bool := s.start == s.stop

/-- The smallest range that covers both. -/
def merge (s t : Span) : Span := ⟨min s.start t.start, max s.stop t.stop⟩

def render (s : Span) : String := s!"{s.start}..{s.stop}"

end Span

/-- The three kinds of brackets. -/
inductive Delim where
  | paren
  | bracket
  | brace
deriving DecidableEq, Repr, Inhabited

namespace Delim

/-- The kind of bracket that a character opens. -/
def ofOpener? : Char → Option Delim
  | '(' => some .paren
  | '[' => some .bracket
  | '\x7b' => some .brace
  | _ => none

/-- The character that opens the bracket. -/
def opener : Delim → Char
  | .paren => '('
  | .bracket => '['
  | .brace => '\x7b'

/-- The character that closes the bracket. -/
def closer : Delim → Char
  | .paren => ')'
  | .bracket => ']'
  | .brace => '\x7d'

/-- Does the character close a bracket of any kind? -/
def isCloser (c : Char) : Bool := c == ')' || c == ']' || c == '\x7d'

theorem ofOpener?_opener (d : Delim) : ofOpener? d.opener = some d := by
  cases d <;> rfl

end Delim

/-- Lexical category of a token. -/
inductive TokenKind where
  | lineComment
  | blockComment
  | stringLiteral
  | charLiteral
  /-- A balanced bracket group, read as a whole. -/
  | group (delim : Delim)
  | newline
  /-- A run of blanks. -/
  | blanks
  /-- A backslash and the character it escapes. -/
  | lineContinuation
  /-- A line that starts with a number sign. -/
  | directive
  /-- An operator or a separator. -/
  | punctuation
  /-- An identifier, a keyword or a number. -/
  | word
  /-- A character that starts nothing else. -/
  | unknown
deriving DecidableEq, Repr, Inhabited

namespace TokenKind

/-- Blanks, newlines and line continuations. -/
def isSpace : TokenKind → Bool
  | .blanks | .newline | .lineContinuation => true
  | _ => false

def isComment : TokenKind → Bool
  | .lineComment | .blockComment => true
  | _ => false

/-- Space and comments. -/
def isTrivia (kind : TokenKind) : Bool := kind.isSpace || kind.isComment

end TokenKind

/-- One token: its position in the stream it was read from, its byte range in the file, its
category and its text. -/
structure Token where
  index : Nat
  span : Span
  kind : TokenKind
  text : String
deriving DecidableEq, Repr, Inhabited

namespace Token

/-- The characters of a token. -/
def chars (t : Token) : List Char := t.text.toList

/-- Tokens agree when their texts do, wherever they stand. -/
def agrees (t u : Token) : Bool := t.text == u.text

/-- Is the token the operator or separator `p`? -/
def isPunct (t : Token) (p : String) : Bool := t.kind == .punctuation && t.text == p

/-- Is the token the word `w`? -/
def isWord (t : Token) (w : String) : Bool := t.kind == .word && t.text == w

/-- A word that does not start with a digit. -/
def isIdent (t : Token) : Bool :=
  t.kind == .word && !(t.chars.head?.any Char.isDigit)

def isGroup (t : Token) (d : Delim) : Bool := t.kind == .group d

/-- A comma or a semicolon. -/
def isSeparator (t : Token) : Bool := t.isPunct "," || t.isPunct ";"

/-- Code tokens carry syntax: all but trivia, directives and separators. -/
def isCode (t : Token) : Bool :=
  !(t.kind.isTrivia || t.kind == .directive || t.isSeparator)

/-- The inside of a bracket group: its text and range without the two brackets. -/
def interior? (t : Token) : Option Token :=
  match t.kind, t.chars with
  | .group _, _ :: c :: rest =>
      some { t with
        span := ⟨t.span.start + 1, t.span.stop - 1⟩
        text := String.ofList (c :: rest).dropLast }
  | _, _ => none

end Token

end CBoundary
