import CBoundary.MacroTable
import CBoundary.Substitution

/-!
Expansion of macro invocations in a text. The text is first cut into pieces: an invocation
that can be expanded here, or text that is copied. Comments, literals and directive lines are
copied whole, and so is the name of a macro whose own expansion is going on. A piece is then
expanded on its own: a body, or a body with its arguments put in, is scanned again with the
name of the macro set aside. This ends because the names set aside are names of the table
and never repeat, and because an argument is shorter than the call around it.
-/
namespace CBoundary

open CharacterClass TextPosition

/-- A call with fewer arguments than its macro has parameters. -/
structure ArityError where
  name : String
  got : Nat
  expected : Nat
  /-- Macros whose expansion was going on, outermost first. -/
  stack : List String
deriving DecidableEq, Repr, Inhabited

def ArityError.message (e : ArityError) : String :=
  s!"macro {e.name}: got only {e.got} arguments, expected {e.expected}"

/-- An expanded text and the calls that could not be expanded, in the order in which they
were met. -/
structure Expansion where
  text : List Char
  errors : List ArityError
deriving DecidableEq, Repr, Inhabited

namespace Expansion

/-- A text that stands for itself. -/
def copied (text : List Char) : Expansion := ⟨text, []⟩

/-- Expansions put together. -/
def join (parts : List Expansion) : Expansion :=
  ⟨parts.flatMap Expansion.text, parts.flatMap Expansion.errors⟩

end Expansion

/-- A part of a text as expansion sees it. -/
inductive Piece where
  /-- Text that is copied. -/
  | copied (written : List Char)
  /-- The name of a macro without parameters. -/
  | name (macroName : String) (definition : MacroDefinition)
  /-- A call: the name, the blanks behind it and a balanced group. `arguments` is the inside
  of the group. -/
  | call (macroName : String) (definition : MacroDefinition) (parameters : List Token)
      (written arguments : List Char)
deriving DecidableEq, Repr, Inhabited

namespace MacroExpansion

/-- The names under which the table has definitions that are not set aside. -/
def available (table : MacroTable) (aside : List String) : List String :=
  table.names.filter fun name => !aside.contains name

/-- How many characters of a text that starts with `c` are copied before the next place where
a name may stand. -/
def copiedLength (c : Char) (rest : List Char) : Nat :=
  match c, rest with
  | '/', '/' :: _ => 1 + Extent.line '\n' '\\' rest
  | '/', '*' :: body => ((Extent.pair '*' '/' body).map (· + 2)).getD 1
  | _, _ =>
      if c = '"' ∨ c = '\'' then 1 + (Extent.quoted c '\\' rest).getD 0
      else if c = '#' ∧ rest.contains '\n' then 1 + Extent.line '\n' '\\' rest
      else 1

/-- The characters that may stand between the name of a macro and its argument list. -/
def isGap (c : Char) : Bool := isBlank c || c == '\n'

/-- The parenthesized group of a call behind a name: the blanks and newlines in front of it,
and the group. -/
def group? (text : List Char) : Option (List Char × List Char) :=
  match text.dropWhile isGap with
  | '(' :: list => (Lexeme.group? .source .paren list).map fun n =>
      (text.takeWhile isGap, ('(' :: list).take n)
  | _ => none

/-- The piece that a word starts, and the text behind it. -/
def wordPiece (table : MacroTable) (aside : List String) (word behind : List Char) :
    Piece × List Char :=
  let macroName := String.ofList word
  match table.get? macroName with
  | none => (.copied word, behind)
  | some definition =>
      if word.head?.any Char.isDigit || aside.contains macroName then (.copied word, behind)
      else
        match definition.parameters with
        | none => (.name macroName definition, behind)
        | some parameters =>
            match group? behind with
            | none => (.copied word, behind)
            | some (gap, group) =>
                (.call macroName definition parameters (word ++ gap ++ group)
                  (group.drop 1).dropLast, behind.drop (gap ++ group).length)

/-- The first piece of a text that starts with `c`, and the text behind it. -/
def firstPiece (table : MacroTable) (aside : List String) (c : Char) (rest : List Char) :
    Piece × List Char :=
  if isWordChar c then
    wordPiece table aside (c :: rest.takeWhile isWordChar) (rest.dropWhile isWordChar)
  else
    let n := copiedLength c rest
    (.copied ((c :: rest).take n), (c :: rest).drop n)

theorem copiedLength_pos (c : Char) (rest : List Char) : 0 < copiedLength c rest := by
  unfold copiedLength
  split
  · omega
  · cases Extent.pair '*' '/' _ <;> simp
  · split
    · omega
    · split <;> omega

theorem wordPiece_length (table : MacroTable) (aside : List String) (word behind : List Char) :
    (wordPiece table aside word behind).2.length ≤ behind.length := by
  unfold wordPiece
  simp only
  split
  · simp
  · split
    · simp
    · split
      · simp
      · split <;> simp

theorem firstPiece_length (table : MacroTable) (aside : List String) (c : Char)
    (rest : List Char) : (firstPiece table aside c rest).2.length ≤ rest.length := by
  unfold firstPiece
  split
  · have h := wordPiece_length table aside (c :: rest.takeWhile isWordChar)
      (rest.dropWhile isWordChar)
    have := Substitution.length_dropWhile_le isWordChar rest
    omega
  · have := copiedLength_pos c rest
    simp only [List.length_drop, List.length_cons]
    omega

/-- The pieces of a text, in order. -/
def pieces (table : MacroTable) (aside : List String) : List Char → List Piece
  | [] => []
  | c :: rest =>
      (firstPiece table aside c rest).1 :: pieces table aside (firstPiece table aside c rest).2
termination_by text => text.length
decreasing_by
  have := firstPiece_length table aside c rest
  simp only [List.length_cons]
  omega

/-- What expansion relies on in a piece of a text: macros in it are in the table and not set
aside, and arguments are shorter than the text. -/
def Fits (table : MacroTable) (aside : List String) (size : Nat) : Piece → Prop
  | .copied _ => True
  | .name macroName _ => macroName ∈ available table aside
  | .call macroName _ _ _ arguments =>
      macroName ∈ available table aside ∧ byteLength arguments < size

theorem Fits.mono {table : MacroTable} {aside : List String} {size larger : Nat} {p : Piece}
    (h : Fits table aside size p) (hle : size ≤ larger) : Fits table aside larger p := by
  cases p with
  | copied => trivial
  | name => exact h
  | call => exact ⟨h.1, Nat.lt_of_lt_of_le h.2 hle⟩

theorem mem_available {table : MacroTable} {aside : List String} {name : String} :
    name ∈ available table aside ↔ (table.get? name).isSome = true ∧ name ∉ aside := by
  simp [available, MacroTable.mem_names]

theorem byteLength_dropWhile_le (p : Char → Bool) (text : List Char) :
    byteLength (text.dropWhile p) ≤ byteLength text := by
  have h := congrArg byteLength (List.takeWhile_append_dropWhile (p := p) (l := text))
  rw [byteLength_append] at h
  omega

theorem byteLength_drop_le (n : Nat) (text : List Char) :
    byteLength (text.drop n) ≤ byteLength text := by
  have h := congrArg byteLength (List.take_append_drop n text)
  rw [byteLength_append] at h
  omega

theorem byteLength_take_le (n : Nat) (text : List Char) :
    byteLength (text.take n) ≤ byteLength text := by
  have h := congrArg byteLength (List.take_append_drop n text)
  rw [byteLength_append] at h
  omega

theorem byteLength_dropLast_le (text : List Char) :
    byteLength text.dropLast ≤ byteLength text := by
  rw [List.dropLast_eq_take]
  exact byteLength_take_le _ _

theorem group?_byteLength {text gap group : List Char} (h : group? text = some (gap, group)) :
    byteLength group ≤ byteLength text := by
  unfold group? at h
  split at h
  · rename_i list hstart
    simp only [Option.map_eq_some_iff, Prod.mk.injEq] at h
    obtain ⟨n, -, -, rfl⟩ := h
    have hgap := byteLength_dropWhile_le isGap text
    have hgroup := byteLength_take_le n ('(' :: list)
    rw [← hstart] at hgroup ⊢
    omega
  · simp at h

theorem wordPiece_fits (table : MacroTable) (aside : List String) (c : Char)
    (word behind : List Char) :
    Fits table aside (byteLength (c :: word) + byteLength behind)
        (wordPiece table aside (c :: word) behind).1 ∧
      byteLength (wordPiece table aside (c :: word) behind).2 ≤ byteLength behind := by
  have hpos := c.utf8Size_pos
  unfold wordPiece
  simp only
  split
  · exact ⟨trivial, Nat.le_refl _⟩
  · rename_i definition hget
    split
    · exact ⟨trivial, Nat.le_refl _⟩
    · rename_i haside
      have hfree : String.ofList (c :: word) ∈ available table aside := by
        rw [mem_available]
        simp_all
      split
      · exact ⟨hfree, Nat.le_refl _⟩
      · split
        · exact ⟨trivial, Nat.le_refl _⟩
        · rename_i gap group hgroup
          have hsize := group?_byteLength hgroup
          have hlast := byteLength_dropLast_le (group.drop 1)
          have hdrop := byteLength_drop_le 1 group
          refine ⟨⟨hfree, ?_⟩, byteLength_drop_le _ _⟩
          rw [byteLength_cons]
          omega

theorem firstPiece_fits (table : MacroTable) (aside : List String) (c : Char)
    (rest : List Char) :
    Fits table aside (byteLength (c :: rest)) (firstPiece table aside c rest).1 ∧
      byteLength (firstPiece table aside c rest).2 ≤ byteLength (c :: rest) := by
  unfold firstPiece
  split
  · have h := wordPiece_fits table aside c (rest.takeWhile isWordChar)
      (rest.dropWhile isWordChar)
    have hsplit := congrArg byteLength
      (List.takeWhile_append_dropWhile (p := isWordChar) (l := rest))
    rw [byteLength_append] at hsplit
    simp only [byteLength_cons] at h ⊢
    exact ⟨h.1.mono (by omega), by omega⟩
  · exact ⟨trivial, byteLength_drop_le _ _⟩

/-- Every piece of a text fits it. -/
theorem fits_of_mem_pieces {table : MacroTable} {aside : List String} {text : List Char}
    {p : Piece} (h : p ∈ pieces table aside text) : Fits table aside (byteLength text) p := by
  fun_induction pieces table aside text with
  | case1 => simp at h
  | case2 c rest ih =>
    have hfirst := firstPiece_fits table aside c rest
    rcases List.mem_cons.1 h with rfl | h
    · exact hfirst.1
    · exact (ih h).mono hfirst.2

/-- The arguments in the tokens of an argument list, cut at commas. At most `more` commas cut;
the ones behind them belong to the last argument of a variadic macro, and end the list of any
other. -/
def splitArguments (isVariadic : Bool) (more : Nat) : List Token → List (List Char)
  | [] => [[]]
  | t :: rest =>
      if t.isPunct "," then
        match more with
        | more + 1 => [] :: splitArguments isVariadic more rest
        | 0 => if isVariadic then extend t.chars (splitArguments isVariadic 0 rest) else [[]]
      else extend t.chars (splitArguments isVariadic more rest)
where
  /-- Puts text in front of the first argument. -/
  extend (text : List Char) : List (List Char) → List (List Char)
    | [] => [text]
    | argument :: others => (text ++ argument) :: others

/-- The arguments of a call as they are put into the body: cut at commas, a missing last
argument of a variadic macro read as empty. -/
def rawArguments (definition : MacroDefinition) (parameters : List Token)
    (arguments : List Char) : List (List Char) :=
  let split := splitArguments definition.isVariadic (parameters.length - 1)
    (TokenStream.ofChars .source 0 0 arguments)
  if definition.isVariadic && split.length + 1 == parameters.length then split ++ [[]] else split

/-- An argument without comments and without white space around it. -/
def cleanArgument (argument : List Char) : List Char :=
  trim (CommentBlanking.blankChars argument)

theorem byteLength_trim_le (text : List Char) : byteLength (trim text) ≤ byteLength text := by
  have hstart : byteLength (trimStart text) ≤ byteLength text := byteLength_dropWhile_le _ _
  obtain ⟨behind, hend⟩ := trimEnd_prefix (trimStart text)
  have h := congrArg byteLength hend
  rw [byteLength_append] at h
  unfold trim
  omega

theorem byteLength_cleanArgument_le (argument : List Char) :
    byteLength (cleanArgument argument) ≤ byteLength argument := by
  have h := byteLength_trim_le (CommentBlanking.blankChars argument)
  rw [CommentBlanking.byteLength_blankChars] at h
  exact h

/-- Total length of some arguments in bytes. -/
def totalLength (arguments : List (List Char)) : Nat := byteLength arguments.flatten

theorem totalLength_extend (text : List Char) (arguments : List (List Char)) :
    totalLength (splitArguments.extend text arguments) =
      byteLength text + totalLength arguments := by
  cases arguments <;> simp [splitArguments.extend, totalLength]

theorem totalLength_splitArguments_le (isVariadic : Bool) (more : Nat) (tokens : List Token) :
    totalLength (splitArguments isVariadic more tokens) ≤
      byteLength (tokens.flatMap Token.chars) := by
  fun_induction splitArguments isVariadic more tokens with
  | case1 => simp [totalLength]
  | case2 t rest _ more ih => simp [totalLength] at ih ⊢; omega
  | case3 t rest _ ih => rw [totalLength_extend]; simp; omega
  | case4 => simp [totalLength]
  | case5 more t rest _ ih => rw [totalLength_extend]; simp; omega

/-- An argument is no longer than the argument list. -/
theorem byteLength_le_of_mem_rawArguments {definition : MacroDefinition}
    {parameters : List Token} {arguments argument : List Char}
    (h : argument ∈ rawArguments definition parameters arguments) :
    byteLength argument ≤ byteLength arguments := by
  have htotal := totalLength_splitArguments_le definition.isVariadic (parameters.length - 1)
    (TokenStream.ofChars .source 0 0 arguments)
  rw [TokenStream.flatMap_chars_ofChars] at htotal
  have hmem : ∀ split : List (List Char), argument ∈ split →
      byteLength argument ≤ totalLength split := by
    intro split hsplit
    obtain ⟨before, behind, rfl⟩ := List.append_of_mem hsplit
    simp [totalLength]
    omega
  unfold rawArguments at h
  simp only at h
  split at h
  · rcases List.mem_append.1 h with h | h
    · exact Nat.le_trans (hmem _ h) htotal
    · simp at h
      simp [h]
  · exact Nat.le_trans (hmem _ h) htotal

theorem length_available_lt {table : MacroTable} {aside : List String} {name : String}
    (h : name ∈ available table aside) :
    (available table (name :: aside)).length < (available table aside).length := by
  have hsub : available table (name :: aside) =
      (available table aside).filter fun other => other != name := by
    simp only [available, List.filter_filter]
    congr 1
    funext other
    by_cases hname : other = name <;> simp [hname]
  rw [hsub]
  exact List.length_filter_lt_length_iff_exists.2 ⟨name, h, by simp⟩

/-- Expands the invocations in a text. The macros whose expansion is going on are set aside;
`aside` lists them, innermost first. -/
def expand (table : MacroTable) (aside : List String) (text : List Char) : Expansion :=
  Expansion.join <| (pieces table aside text).attach.map fun ⟨piece, hpiece⟩ =>
    match piece, fits_of_mem_pieces hpiece with
    | .copied written, _ => Expansion.copied written
    | .name macroName definition, _hfree =>
        match definition.body with
        | none => Expansion.copied []
        | some body =>
            if definition.isWellFormed then expand table (macroName :: aside) body.chars
            else Expansion.copied body.chars
    | .call macroName definition parameters written arguments, _hfits =>
        match definition.body with
        | none => Expansion.copied []
        | some body =>
            let raw := rawArguments definition parameters arguments
            if raw.length < parameters.length then
              ⟨written, [⟨macroName, raw.length, parameters.length, aside.reverse⟩]⟩
            else if !definition.isWellFormed then Expansion.copied body.chars
            else if parameters.isEmpty then expand table (macroName :: aside) body.chars
            else
              let expanded := raw.attach.map fun ⟨argument, _⟩ =>
                (cleanArgument argument, expand table aside (cleanArgument argument))
              let bindings := (parameters.zip expanded).map fun (parameter, written, expansion) =>
                (⟨parameter.chars, written, expansion.text⟩ : Substitution.Binding)
              let result := expand table (macroName :: aside)
                (Substitution.substitute bindings body.chars)
              ⟨result.text, expanded.flatMap (fun entry => entry.2.errors) ++ result.errors⟩
termination_by ((available table aside).length, byteLength text)
decreasing_by
  · exact Prod.Lex.left _ _ (length_available_lt _hfree)
  · exact Prod.Lex.left _ _ (length_available_lt _hfits.1)
  · rename_i hmem
    have hle := byteLength_le_of_mem_rawArguments hmem
    have hclean := byteLength_cleanArgument_le argument
    have hlt := _hfits.2
    exact Prod.Lex.right _ (by omega)
  · exact Prod.Lex.left _ _ (length_available_lt _hfits.1)

end MacroExpansion

namespace MacroTable

/-- Expands all invocations in a text. -/
def expand (m : MacroTable) (text : String) : Expansion :=
  MacroExpansion.expand m [] text.toList

end MacroTable

end CBoundary
