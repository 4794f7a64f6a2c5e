import CBoundary.Extent
import CBoundary.Token

/-!
The lexeme at the start of a text: its category and its length in characters. Alternatives
are tried in a fixed order and the first that applies wins, with operators longest first. A
bracket group counts only if every bracket in it is matched and everything between the
brackets is itself a lexeme; otherwise its opening bracket stands alone as an unknown
character. Main statement: a lexeme is never empty and never reaches past the text.
-/
namespace CBoundary.Lexeme

open CharacterClass

/-- In source text a number sign starts a directive line; in the body of a definition it is
an operator. -/
inductive Mode where
  | source
  | definitionBody
deriving DecidableEq, Repr, Inhabited

/-- Operators and separators, in the order in which they are tried. -/
def operators : List (List Char) :=
  ["<<=", ">>=", "##", "++", "--", "->", "<<", ">>", "<=", ">=", "==", "!=", "&&", "||", "+=",
   "-=", "*=", "/=", "%=", "&=", "^=", "|=", ",", ";", "?", ":", "!", "~", "#", ".", "+", "-",
   "*", "&", "/", "%", "<", ">", "^", "|", "=", "@"].map String.toList

/-- The first operator that the text starts with. -/
def operator? (text : List Char) : Option (TokenKind × Nat) :=
  (operators.find? (·.isPrefixOf text)).map fun op => (.punctuation, op.length)

/-- The longest run of word characters at the start of the text, if there is any. -/
def word? (text : List Char) : Option (TokenKind × Nat) :=
  match (text.takeWhile isWordChar).length with
  | 0 => none
  | n + 1 => some (.word, n + 1)

/-- An operator or a word. -/
def operatorOrWord? (text : List Char) : Option (TokenKind × Nat) :=
  (operator? text).or (word? text)

/-- The lexeme that starts with `c` and goes on with `rest`, if it is no bracket group. -/
def atom? (mode : Mode) (c : Char) (rest : List Char) : Option (TokenKind × Nat) :=
  match c, rest with
  | '/', '/' :: _ => some (.lineComment, 1 + Extent.line '\n' '\\' rest)
  | '/', '*' :: body =>
      match Extent.pair '*' '/' body with
      | some n => some (.blockComment, n + 2)
      | none => operator? (c :: rest)
  | '"', _ => (Extent.quoted '"' '\\' rest).map fun n => (.stringLiteral, n + 1)
  | '\'', _ => (Extent.quoted '\'' '\\' rest).map fun n => (.charLiteral, n + 1)
  | '\n', _ => some (.newline, 1)
  | '\\', [] => none
  | '\\', _ :: _ => some (.lineContinuation, 2)
  | '#', _ =>
      if mode = .source then some (.directive, 1 + Extent.line '\n' '\\' rest)
      else operatorOrWord? (c :: rest)
  | _, _ =>
      if isBlank c then some (.blanks, 1 + (rest.takeWhile isBlank).length)
      else operatorOrWord? (c :: rest)

theorem operators_pos {op : List Char} (h : op ∈ operators) : 0 < op.length := by
  revert op
  decide

/-- No operator is found in front of a character of a kind that starts none. -/
theorem operator?_eq_none {p : Char → Bool} {c : Char}
    (hp : operators.all (fun op => op.head?.all fun d => !p d) = true) (hc : p c = true)
    (text : List Char) : operator? (c :: text) = none := by
  rw [operator?, Option.map_eq_none_iff, List.find?_eq_none]
  intro op hop hstart
  obtain ⟨d, tail, rfl⟩ := List.exists_cons_of_length_pos (operators_pos hop)
  obtain ⟨rfl, -⟩ := List.cons_prefix_cons.1 (List.isPrefixOf_iff_prefix.1 hstart)
  have hd := List.all_eq_true.1 hp _ hop
  simp [hc] at hd

theorem operatorOrWord?_eq_none {p : Char → Bool} {c : Char}
    (hp : operators.all (fun op => op.head?.all fun d => !p d) = true) (hc : p c = true)
    (hword : isWordChar c = false) (text : List Char) : operatorOrWord? (c :: text) = none :=
  Option.or_eq_none_iff.2 ⟨operator?_eq_none hp hc text, by simp [word?, hword]⟩

theorem operator?_bounds {text : List Char} {kind : TokenKind} {n : Nat}
    (h : operator? text = some (kind, n)) : 0 < n ∧ n ≤ text.length := by
  simp only [operator?, Option.map_eq_some_iff, Prod.mk.injEq] at h
  obtain ⟨op, hop, -, rfl⟩ := h
  have hstart : op.isPrefixOf text = true :=
    List.find?_some (p := fun op : List Char => op.isPrefixOf text) hop
  exact ⟨operators_pos (List.mem_of_find?_eq_some hop),
    (List.isPrefixOf_iff_prefix.1 hstart).length_le⟩

theorem word?_bounds {text : List Char} {kind : TokenKind} {n : Nat}
    (h : word? text = some (kind, n)) : 0 < n ∧ n ≤ text.length := by
  have hle := (List.takeWhile_prefix (l := text) isWordChar).length_le
  unfold word? at h
  split at h
  · simp at h
  · simp only [Option.some.injEq, Prod.mk.injEq] at h
    omega

theorem operatorOrWord?_bounds {text : List Char} {kind : TokenKind} {n : Nat}
    (h : operatorOrWord? text = some (kind, n)) : 0 < n ∧ n ≤ text.length := by
  simp only [operatorOrWord?, Option.or_eq_some_iff] at h
  rcases h with h | ⟨-, h⟩
  · exact operator?_bounds h
  · exact word?_bounds h

/-- An atom is never empty and never reaches past the text. -/
theorem atom?_bounds {mode : Mode} {c : Char} {rest : List Char} {kind : TokenKind} {n : Nat}
    (h : atom? mode c rest = some (kind, n)) : 0 < n ∧ n ≤ rest.length + 1 := by
  have hline := Extent.line_le '\n' '\\' rest
  have hblank := (List.takeWhile_prefix (l := rest) isBlank).length_le
  unfold atom? at h
  split at h
  · simp only [Option.some.injEq, Prod.mk.injEq] at h
    omega
  · split at h
    · rename_i hpair
      have := Extent.pair_bounds hpair
      simp only [Option.some.injEq, Prod.mk.injEq] at h
      simp only [List.length_cons]
      omega
    · exact operator?_bounds h
  · simp only [Option.map_eq_some_iff, Prod.mk.injEq] at h
    obtain ⟨m, hm, -, rfl⟩ := h
    have := Extent.quoted_bounds hm
    omega
  · simp only [Option.map_eq_some_iff, Prod.mk.injEq] at h
    obtain ⟨m, hm, -, rfl⟩ := h
    have := Extent.quoted_bounds hm
    omega
  · simp only [Option.some.injEq, Prod.mk.injEq] at h
    omega
  · simp at h
  · simp only [Option.some.injEq, Prod.mk.injEq] at h
    simp only [List.length_cons]
    omega
  · split at h
    · simp only [Option.some.injEq, Prod.mk.injEq] at h
      omega
    · exact operatorOrWord?_bounds h
  · split at h
    · simp only [Option.some.injEq, Prod.mk.injEq] at h
      omega
    · exact operatorOrWord?_bounds h

/-- Reads on until every bracket of `closers` is closed, innermost first, and answers how
many characters were read, counting `seen` before them. A bracket that closes the wrong one,
a text that starts no atom, and the end of the text all fail. -/
def closeGroups (mode : Mode) (closers : List Char) (seen : Nat) (text : List Char) :
    Option Nat :=
  match closers, text with
  | [], _ => some seen
  | _ :: _, [] => none
  | closer :: outer, c :: rest =>
      match Delim.ofOpener? c with
      | some delim => closeGroups mode (delim.closer :: closer :: outer) (seen + 1) rest
      | none =>
          if Delim.isCloser c then
            if c = closer then closeGroups mode outer (seen + 1) rest else none
          else
            match _h : atom? mode c rest with
            | none => none
            | some (_, n) => closeGroups mode (closer :: outer) (seen + n) ((c :: rest).drop n)
termination_by text.length
decreasing_by
  · simp
  · simp
  · have := atom?_bounds _h
    simp only [List.length_drop, List.length_cons]
    omega

/-- Length of the bracket group that opens with `delim` just before `text`, both brackets
included. -/
def group? (mode : Mode) (delim : Delim) (text : List Char) : Option Nat :=
  closeGroups mode [delim.closer] 1 text

theorem closeGroups_bounds {mode : Mode} {closers : List Char} {seen n : Nat} {text : List Char}
    (h : closeGroups mode closers seen text = some n) :
    seen + closers.length ≤ n ∧ n ≤ seen + text.length := by
  fun_induction closeGroups mode closers seen text with
  | case1 => simp_all
  | case2 => simp at h
  | case3 seen closer outer c rest delim hdelim ih =>
    have := ih h
    simp only [List.length_cons] at this ⊢
    omega
  | case4 seen outer c rest hdelim hclose ih =>
    have := ih h
    simp only [List.length_cons] at this ⊢
    omega
  | case5 => simp at h
  | case6 => simp at h
  | case7 seen closer outer c rest hdelim hclose kind n' hatom ih =>
    have := ih h
    have := atom?_bounds hatom
    simp only [List.length_cons, List.length_drop] at *
    omega

/-- A bracket group has at least its two brackets and stays inside the text. -/
theorem group?_bounds {mode : Mode} {delim : Delim} {text : List Char} {n : Nat}
    (h : group? mode delim text = some n) : 2 ≤ n ∧ n ≤ text.length + 1 := by
  have := closeGroups_bounds h
  simp only [List.length_singleton] at this
  omega

/-- The lexeme that starts with `c` and goes on with `rest`: a whole bracket group, another
lexeme, or one unknown character. -/
def first (mode : Mode) (c : Char) (rest : List Char) : TokenKind × Nat :=
  match Delim.ofOpener? c with
  | some delim =>
      match group? mode delim rest with
      | some n => (.group delim, n)
      | none => (.unknown, 1)
  | none => (atom? mode c rest).getD (.unknown, 1)

/-- A lexeme is never empty and never reaches past the text. -/
theorem first_bounds (mode : Mode) (c : Char) (rest : List Char) :
    0 < (first mode c rest).2 ∧ (first mode c rest).2 ≤ rest.length + 1 := by
  unfold first
  split
  · split
    · rename_i h
      have := group?_bounds h
      simp only
      omega
    · simp
  · cases h : atom? mode c rest with
    | none => simp
    | some found =>
      obtain ⟨kind, n⟩ := found
      exact atom?_bounds h

/-- Length of the balanced group at the start of a text, in characters, if the text starts
with an opening bracket whose group is balanced. -/
def groupLength? (mode : Mode) : List Char → Option Nat
  | [] => none
  | c :: rest => (Delim.ofOpener? c).bind fun delim => group? mode delim rest

end CBoundary.Lexeme
