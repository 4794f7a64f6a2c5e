/-!
The text of a string literal. Backslash, newline, tab and double quote are written as escapes
of two characters, and everything else as it is, so the written text holds no quote that
could close the literal.
-/
namespace CBoundary.LiteralEscape

/-- How a character is written inside a string literal. -/
def escapeChar : Char → List Char
  | '\\' => ['\\', '\\']
  | '\n' => ['\\', 'n']
  | '\t' => ['\\', 't']
  | '"' => ['\\', '"']
  | c => [c]

def escapeChars (text : List Char) : List Char := text.flatMap escapeChar

def escape (text : String) : String := String.ofList (escapeChars text.toList)

/-- The text between double quotes, escaped. -/
def quote (text : List Char) : List Char := '"' :: escapeChars text ++ ['"']

end CBoundary.LiteralEscape
