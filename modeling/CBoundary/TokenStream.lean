import CBoundary.Lexeme
import CBoundary.TextPosition
import CBoundary.TokenList

/-!
The tokens of a text. Reading takes the lexeme at the start, makes a token of it and goes on
behind it, so every character of the text belongs to exactly one token, in order. Main
statement: the characters of the tokens, put together, are the text.
-/
namespace CBoundary.TokenStream

open TextPosition Lexeme

/-- Puts the tokens of `text` behind those already read, which are kept last first. -/
def readOnto (mode : Mode) (read : List Token) (index offset : Nat) (text : List Char) :
    List Token :=
  match text with
  | [] => read.reverse
  | c :: rest =>
      let lexeme := first mode c rest
      let taken := (c :: rest).take lexeme.2
      let stop := offset + byteLength taken
      readOnto mode (⟨index, ⟨offset, stop⟩, lexeme.1, String.ofList taken⟩ :: read)
        (index + 1) stop ((c :: rest).drop lexeme.2)
termination_by text.length
decreasing_by
  have := first_bounds mode c rest
  simp only [List.length_drop, List.length_cons]
  omega

/-- The tokens of a text whose first character has the given index in its stream and the
given byte offset in its file. -/
def ofChars (mode : Mode) (index offset : Nat) (text : List Char) : List Token :=
  readOnto mode [] index offset text

theorem readOnto_eq (mode : Mode) (read : List Token) (index offset : Nat) (text : List Char) :
    readOnto mode read index offset text = read.reverse ++ ofChars mode index offset text := by
  induction hn : text.length using Nat.strongRecOn generalizing read index offset text with
  | ind n ih =>
    match text with
    | [] => simp [ofChars, readOnto]
    | c :: rest =>
      have hfirst := first_bounds mode c rest
      simp only [ofChars]
      rw [readOnto, readOnto]
      have hlt : ((c :: rest).drop (first mode c rest).2).length < n := by
        simp only [List.length_drop, List.length_cons] at hn ⊢
        omega
      rw [ih _ hlt _ _ _ _ rfl, ih _ hlt _ _ _ _ rfl]
      simp

@[simp] theorem ofChars_nil (mode : Mode) (index offset : Nat) :
    ofChars mode index offset [] = [] := by
  simp [ofChars, readOnto]

/-- The first token is the first lexeme; the others are the tokens of what follows it. -/
theorem ofChars_cons (mode : Mode) (index offset : Nat) (c : Char) (rest : List Char) :
    ofChars mode index offset (c :: rest) =
      ⟨index, ⟨offset, offset + byteLength ((c :: rest).take (first mode c rest).2)⟩,
          (first mode c rest).1, String.ofList ((c :: rest).take (first mode c rest).2)⟩ ::
        ofChars mode (index + 1)
          (offset + byteLength ((c :: rest).take (first mode c rest).2))
          ((c :: rest).drop (first mode c rest).2) := by
  conv => lhs; rw [ofChars, readOnto]
  simp only [readOnto_eq]
  simp

/-- The token of a lexeme, in front of the tokens of what is behind it. -/
theorem ofChars_lexeme {mode : Mode} {kind : TokenKind} {c : Char} {rest behind : List Char}
    (index offset : Nat) (h : first mode c (rest ++ behind) = (kind, rest.length + 1)) :
    ofChars mode index offset (c :: rest ++ behind) =
      ⟨index, ⟨offset, offset + byteLength (c :: rest)⟩, kind, String.ofList (c :: rest)⟩ ::
        ofChars mode (index + 1) (offset + byteLength (c :: rest)) behind := by
  have htake : (c :: (rest ++ behind)).take (rest.length + 1) = c :: rest := by simp
  have hdrop : (c :: (rest ++ behind)).drop (rest.length + 1) = behind := by simp
  rw [List.cons_append, ofChars_cons, h, htake, hdrop]

/-- The characters of the tokens, put together, are the text. -/
theorem flatMap_chars_ofChars (mode : Mode) (index offset : Nat) (text : List Char) :
    (ofChars mode index offset text).flatMap Token.chars = text := by
  induction hn : text.length using Nat.strongRecOn generalizing index offset text with
  | ind n ih =>
    match text with
    | [] => simp
    | c :: rest =>
      have hfirst := first_bounds mode c rest
      have hlt : ((c :: rest).drop (first mode c rest).2).length < n := by
        simp only [List.length_drop, List.length_cons] at hn ⊢
        omega
      rw [ofChars_cons, List.flatMap_cons, ih _ hlt _ _ _ rfl]
      simp [Token.chars]

/-- The tokens of a text that starts at byte `base` of its file. -/
def ofText (mode : Mode) (base : Nat) (text : String) : List Token :=
  ofChars mode 0 base text.toList

/-- The tokens of source text that starts at byte `base` of its file. -/
def ofSource (base : Nat) (text : String) : List Token := ofText .source base text

/-- The tokens of a token's text, read again as source text in place. -/
def within (token : Token) : List Token := ofSource token.span.start token.text

/-- Does the text scan as the body of a definition without unknown characters? -/
def isWellFormed (text : String) : Bool :=
  (ofText .definitionBody 0 text).all fun t => t.kind != .unknown

end CBoundary.TokenStream
