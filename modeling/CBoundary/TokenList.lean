import CBoundary.Token

/-!
Views of a list of tokens: the range it covers, its code tokens, and its texts joined in the
ways that messages and comparisons need.
-/
namespace CBoundary.TokenList

/-- From the start of the first token to the end of the last. -/
def span (tokens : List Token) : Span :=
  match tokens.head?, tokens.getLast? with
  | some first, some last => ⟨first.span.start, last.span.stop⟩
  | _, _ => Span.nowhere

/-- The code tokens, in order. -/
def code (tokens : List Token) : List Token := tokens.filter Token.isCode

/-- The texts of the tokens, in order. -/
def texts (tokens : List Token) : List String := tokens.map Token.text

/-- The texts joined by single spaces, as messages show them. -/
def shortRepr (tokens : List Token) : String := String.intercalate " " (texts tokens)

/-- The texts without anything between them. -/
def text (tokens : List Token) : String := String.join (texts tokens)

/-- The range and the texts, with a wavy line between neighbours. -/
def render (tokens : List Token) : String :=
  s!"[{(span tokens).render}] " ++ String.intercalate "\u2307" (texts tokens)

/-- Lists agree when their texts do, wherever the tokens stand. -/
def agrees (first second : List Token) : Bool := texts first == texts second

end CBoundary.TokenList
