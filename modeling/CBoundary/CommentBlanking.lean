import CBoundary.TokenStream

/-!
Comments are blanked out rather than cut, so every other character keeps its byte offset:
each byte of a comment becomes a space, and newlines stay. Only comments outside bracket
groups are touched, since a group is a single token. Main statement: blanking keeps the
length in bytes.
-/
namespace CBoundary.CommentBlanking

open TextPosition

/-- What stands in for a character of a comment: a newline for a newline, else one space for
each of its bytes. -/
def blankChar (c : Char) : List Char :=
  if c = '\n' then ['\n'] else List.replicate c.utf8Size ' '

/-- The characters that stand in for a token. -/
def blankToken (t : Token) : List Char :=
  if t.kind.isComment then t.chars.flatMap blankChar else t.chars

/-- The text with its comments blanked out. -/
def blankChars (text : List Char) : List Char :=
  (TokenStream.ofChars .definitionBody 0 0 text).flatMap blankToken

def blank (text : String) : String := String.ofList (blankChars text.toList)

theorem byteLength_blankChar (c : Char) : byteLength (blankChar c) = c.utf8Size := by
  unfold blankChar
  split
  · subst_vars
    rfl
  · exact (byteLength_replicate _ _).trans (Nat.mul_one _)

theorem byteLength_flatMap_blankChar (text : List Char) :
    byteLength (text.flatMap blankChar) = byteLength text := by
  induction text with
  | nil => rfl
  | cons c text ih => simp [byteLength_blankChar, ih]

theorem byteLength_blankToken (t : Token) : byteLength (blankToken t) = byteLength t.chars := by
  unfold blankToken
  split
  · exact byteLength_flatMap_blankChar t.chars
  · rfl

/-- Blanking keeps the length in bytes. -/
theorem byteLength_blankChars (text : List Char) :
    byteLength (blankChars text) = byteLength text := by
  have h : ∀ tokens : List Token,
      byteLength (tokens.flatMap blankToken) = byteLength (tokens.flatMap Token.chars) := by
    intro tokens
    induction tokens with
    | nil => rfl
    | cons t tokens ih => simp [byteLength_blankToken, ih]
  rw [blankChars, h, TokenStream.flatMap_chars_ofChars]

end CBoundary.CommentBlanking
