import CBoundary.LiteralEscape
import CBoundary.Proofs.CursorScan
import CBoundary.Proofs.SingleParameter

/-!
Escaped texts as literals. In an escaped text every quote, and every backslash that was written, is
taken along by a backslash in front of it, so reading on for the end of the literal passes over all
of the text and stops at the quote behind it, whatever follows. Undoing the escapes gives the text
back. Main statement: `escaped_literal_read_whole`.
-/
namespace CBoundary.LiteralEscape

open ByteExtent Extent TextPosition

/-- The text with the four escapes undone. Any other backslash stays as it is. -/
def unescape : List Char → List Char
  | '\\' :: '\\' :: rest => '\\' :: unescape rest
  | '\\' :: 'n' :: rest => '\n' :: unescape rest
  | '\\' :: 't' :: rest => '\t' :: unescape rest
  | '\\' :: '"' :: rest => '"' :: unescape rest
  | c :: rest => c :: unescape rest
  | [] => []

theorem unescape_escapeChar (c : Char) (rest : List Char) :
    unescape (escapeChar c ++ rest) = c :: unescape rest := by
  unfold escapeChar
  split
  · rfl
  · rfl
  · rfl
  · rfl
  · rename_i hbackslash _ _ _
    -- only a backslash starts an escape
    rw [List.singleton_append, unescape]
    all_goals
      intro _ hc
      exact absurd hc hbackslash

/-- Undoing the escapes of an escaped text gives the text back. -/
theorem unescape_escapeChars (text : List Char) : unescape (escapeChars text) = text := by
  induction text with
  | nil => rfl
  | cons c rest ih =>
    change unescape (escapeChar c ++ escapeChars rest) = c :: rest
    rw [unescape_escapeChar, ih]

theorem toList_escape (text : String) : (escape text).toList = escapeChars text.toList := by
  rw [escape, String.toList_ofList]

theorem escape_injective : Function.Injective escape := by
  intro first second h
  have hchars := congrArg (fun text : String => unescape text.toList) h
  simp only [toList_escape, unescape_escapeChars] at hchars
  exact String.toList_inj.1 hchars

/-- The closing quote of a literal is the one behind the escaped text. -/
theorem quoted_escapeChars (text behind : List Char) :
    quoted '"' '\\' (escapeChars text ++ '"' :: behind) =
      some ((escapeChars text).length + 1) := by
  rw [quoted_eq_some_iff (by decide)]
  exact ⟨_, behind, rfl, MacroExpansion.passes_escapeChars text, rfl⟩

section

variable {mode : Lexeme.Mode} (text behind : List Char)

theorem first_quote :
    Lexeme.first mode '"' (escapeChars text ++ ['"'] ++ behind) =
      (.stringLiteral, (escapeChars text ++ ['"']).length + 1) := by
  rw [List.append_assoc, List.singleton_append]
  simp [Lexeme.first, Delim.ofOpener?, Lexeme.atom?, quoted_escapeChars]

/-- In front of any text, the literal is the first token, and the others are those of the text. -/
theorem ofChars_quote (index offset : Nat) :
    TokenStream.ofChars mode index offset (quote text ++ behind) =
      ⟨index, ⟨offset, offset + byteLength (quote text)⟩, .stringLiteral,
          String.ofList (quote text)⟩ ::
        TokenStream.ofChars mode (index + 1) (offset + byteLength (quote text)) behind :=
  TokenStream.ofChars_lexeme index offset (first_quote text behind)

/-- Behind the opening quote, a cursor moves to just past the quote behind the escaped text. -/
theorem skipQuoted?_quote {c : Cursor} {before : List Char}
    (h : c.At before (quote text ++ behind)) :
    (c.advance 1).skipQuoted? (byteOf '"') = some (c.advance (byteLength (quote text))) := by
  have hchars : quote text ++ behind = '"' :: (escapeChars text ++ '"' :: behind) := by
    simp [quote]
  have htaken : (quote text ++ behind).take ((escapeChars text).length + 2) = quote text := by
    apply List.take_left'
    simp [quote]
  have hopen := h
  rw [hchars] at hopen
  rw [CursorScan.skipQuoted?_behind hopen (by decide) (by decide), quoted_escapeChars,
    Option.map_some, h.past_eq, htaken]

end

theorem toList_literal (text : String) :
    ("\"" ++ escape text ++ "\"").toList = quote text.toList := by
  simp [toList_escape, quote]

/-- The literal of an escaped text is read as one token of its own length, whatever follows and
however the text is read, and its quote is found where it was written. The escapes can be undone,
so no two texts have the same literal. -/
theorem escaped_literal_read_whole :
    Function.Injective escape ∧ ∀ text behind : String,
      let literal := "\"" ++ escape text ++ "\""
      let length := byteLength literal.toList
      unescape (escape text).toList = text.toList ∧
        (∀ mode base, TokenStream.ofText mode base (literal ++ behind) =
          ⟨0, ⟨base, base + length⟩, .stringLiteral, literal⟩ ::
            TokenStream.ofChars mode 1 (base + length) behind.toList) ∧
        ((Cursor.ofText (literal ++ behind)).advance 1).skipQuoted? (byteOf '"') =
          some ⟨literal ++ behind, length⟩ := by
  refine ⟨escape_injective, ?_⟩
  intro text behind literal length
  have hliteral : literal.toList = quote text.toList := toList_literal text
  have hchars : (literal ++ behind).toList = quote text.toList ++ behind.toList := by
    rw [String.toList_append, hliteral]
  refine ⟨?_, ?_, ?_⟩
  · rw [toList_escape, unescape_escapeChars]
  · intro mode base
    rw [TokenStream.ofText, hchars, ofChars_quote, ← hliteral, String.ofList_toList]
  · have hplace := Cursor.at_ofText (literal ++ behind)
    rw [hchars] at hplace
    rw [skipQuoted?_quote text.toList behind.toList hplace, ← hliteral, Cursor.advance]
    exact congrArg (fun position => some (Cursor.mk (literal ++ behind) position))
      (Nat.zero_add length)

example : escape "a\"b\\c\n\t" = "a\\\"b\\\\c\\n\\t" := by decide

end CBoundary.LiteralEscape
