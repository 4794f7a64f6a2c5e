import CBoundary.Proofs.Delimited
import CBoundary.Proofs.PieceExpansion
import CBoundary.Proofs.Truncation
import Mathlib.Data.List.TakeWhile

/-!
Which parts of a text expansion replaces. A text reads as comments, literals and directive lines,
in which no name is looked for, as invocations, and as words and single characters in between. What
may stand where is said by the text alone and without scanning it: a word is as long as it can be, a
word that could be an invocation is one, and a single character starts no comment, literal or
directive line. Every text has such a reading, and expansion puts something else in the place of its
invocations only. Main statement: `expand_touches_invocations`.
-/
namespace CBoundary

open CharacterClass Extent

namespace MacroExpansion

/-- A part of a text in which names are not looked for. -/
inductive Skipped where
  | lineComment (line : List Char)
  | blockComment (inside : List Char)
  | literal (quote : Char) (inside : List Char)
  | directive (line : List Char)

namespace Skipped

def written : Skipped → List Char
  | lineComment line => '/' :: '/' :: line
  | blockComment inside => '/' :: '*' :: inside ++ ['*', '/']
  | literal quote inside => quote :: inside ++ [quote]
  | directive line => '#' :: line

/-- The part can stand in front of `behind`. A `#` without a newline behind it starts no directive
line. -/
def Stands (behind : List Char) : Skipped → Prop
  | lineComment line => IsLine '\n' '\\' line behind
  | blockComment inside => ¬ ['*', '/'] <:+: inside ++ ['*']
  | literal quote inside => (quote = '"' ∨ quote = '\'') ∧ Passes quote '\\' inside
  | directive line => IsLine '\n' '\\' line behind ∧ '\n' ∈ line ++ behind

end Skipped

/-- A word that is as long as it can be, with `behind` after it. -/
structure IsWord (word behind : List Char) : Prop where
  nonempty : word ≠ []
  wordChars : ∀ c ∈ word, isWordChar c = true
  stops : ∀ c ∈ behind.head?, isWordChar c = false

/-- The word is a name under which the table has the definition, and is not set aside. -/
structure Names (table : MacroTable) (aside : List String) (word : List Char)
    (definition : MacroDefinition) : Prop where
  registered : table.get? (String.ofList word) = some definition
  notNumber : word.head?.any Char.isDigit = false
  free : String.ofList word ∉ aside

/-- An invocation as it is written: the name of a macro, and for a macro with parameters the
blanks and the group behind it. -/
inductive Invocation where
  | name (word : List Char) (definition : MacroDefinition)
  | call (word : List Char) (definition : MacroDefinition) (parameters : List Token)
      (gap arguments : List Char)

namespace Invocation

def word : Invocation → List Char
  | name word _ => word
  | call word _ _ _ _ => word

def definition : Invocation → MacroDefinition
  | name _ definition => definition
  | call _ definition _ _ _ => definition

/-- What follows the word. -/
def list : Invocation → List Char
  | name _ _ => []
  | call _ _ _ gap arguments => gap ++ ('(' :: arguments ++ [')'])

def written (i : Invocation) : List Char := i.word ++ i.list

/-- Nothing follows the name of a macro without parameters; behind any other there are blanks and
a group that is closed where it ends. -/
def Listed (behind : List Char) : Invocation → Prop
  | name _ definition => definition.parameters = none
  | call _ definition parameters gap arguments =>
      definition.parameters = some parameters ∧ (∀ c ∈ gap, isGap c = true) ∧
        Lexeme.group? .source .paren (arguments ++ ')' :: behind) = some (arguments.length + 2)

/-- The invocation can stand in front of `behind`. -/
structure Stands (table : MacroTable) (aside : List String) (behind : List Char)
    (i : Invocation) : Prop where
  isWord : IsWord i.word (i.list ++ behind)
  names : Names table aside i.word i.definition
  listed : i.Listed behind

/-- The group of a call, read on its own, is a single token. -/
def Balanced : Invocation → Prop
  | name _ _ => True
  | call _ _ _ _ arguments =>
      ∃ t, TokenStream.ofChars .source 0 0 ('(' :: arguments ++ [')']) = [t] ∧
        t.kind = .group .paren

def piece : Invocation → Piece
  | name word definition => .name (String.ofList word) definition
  | call word definition parameters gap arguments =>
      .call (String.ofList word) definition parameters
        (word ++ gap ++ ('(' :: arguments ++ [')'])) arguments

end Invocation

/-- A part of a text as expansion reads it. -/
inductive Stretch where
  | skipped (part : Skipped)
  | invocation (i : Invocation)
  | word (word : List Char)
  | mark (c : Char)

namespace Stretch

def written : Stretch → List Char
  | skipped part => part.written
  | invocation i => i.written
  | word w => w
  | mark c => [c]

/-- The stretch can stand in front of `behind`. A word is not the start of an invocation, and a
single character not the start of anything that is skipped. -/
def Stands (table : MacroTable) (aside : List String) (behind : List Char) : Stretch → Prop
  | skipped part => part.Stands behind
  | invocation i => i.Stands table aside behind
  | word w =>
      IsWord w behind ∧ ∀ (i : Invocation) after, i.Stands table aside after →
        w ++ behind ≠ i.written ++ after
  | mark c =>
      isWordChar c = false ∧ ∀ (part : Skipped) after, part.Stands after →
        c :: behind ≠ part.written ++ after

def piece : Stretch → Piece
  | invocation i => i.piece
  | s => .copied s.written

/-- What is put in the place of the stretch: it stays as it is unless it is an invocation. -/
def expansion (table : MacroTable) (aside : List String) : Stretch → Expansion
  | invocation i => pieceExpansion table aside i.piece
  | s => Expansion.copied s.written

end Stretch

/-- The text reads as the stretches, side by side. -/
inductive Reads (table : MacroTable) (aside : List String) : List Char → List Stretch → Prop
  | nil : Reads table aside [] []
  | cons {s : Stretch} {behind : List Char} {rest : List Stretch}
      (hs : s.Stands table aside behind) (hrest : Reads table aside behind rest) :
      Reads table aside (s.written ++ behind) (s :: rest)

variable {table : MacroTable} {aside : List String} {text word gap arguments behind : List Char}
  {c : Char}

/-- As many characters are copied as belong to what is skipped. -/
theorem Skipped.copiedLength_eq {p : Skipped} (h : p.Stands behind) :
    ∃ c rest, p.written ++ behind = c :: rest ∧ isWordChar c = false ∧
      copiedLength c rest = p.written.length := by
  have hbackslash : '\\' ≠ '\n' := by decide
  cases p with
  | lineComment line =>
    refine ⟨'/', '/' :: (line ++ behind), rfl, by decide, ?_⟩
    rw [copiedLength, ByteExtent.line_cons (by decide) (by decide),
      IsLine.line_eq hbackslash h, written, List.length_cons, List.length_cons]
    omega
  | blockComment inside =>
    refine ⟨'/', '*' :: (inside ++ '*' :: '/' :: behind), by simp [written], by decide, ?_⟩
    rw [copiedLength, pair_eq_some_iff.2 ⟨inside, behind, rfl, h, rfl⟩]
    simp [written]
  | literal quote inside =>
    obtain ⟨hquote, hinside⟩ := h
    have hne : '\\' ≠ quote := by rcases hquote with rfl | rfl <;> decide
    refine ⟨quote, inside ++ quote :: behind, by simp [written], ?_, ?_⟩
    · rcases hquote with rfl | rfl <;> decide
    · have hclosed := (quoted_eq_some_iff hne).2 ⟨inside, behind, rfl, hinside, rfl⟩
      rcases hquote with rfl | rfl
      · simp [copiedLength, hclosed, written, Nat.add_comm]
      · simp [copiedLength, hclosed, written, Nat.add_comm]
  | directive line =>
    obtain ⟨hline, hnewline⟩ := h
    refine ⟨'#', line ++ behind, rfl, by decide, ?_⟩
    have hcount := IsLine.line_eq hbackslash hline
    have hmore : (line ++ behind).contains '\n' = true := by simpa using hnewline
    simp only [copiedLength, hmore, hcount, written]
    rw [List.length_cons, Nat.add_comm]
    rfl

/-- One character is copied where nothing that is skipped starts. -/
theorem copiedLength_eq_one (h : ∀ (p : Skipped) after, p.Stands after →
    c :: behind ≠ p.written ++ after) : copiedLength c behind = 1 := by
  have hbackslash : '\\' ≠ '\n' := by decide
  unfold copiedLength
  split
  · rename_i body
    obtain ⟨line, after, rfl, hline, -⟩ := exists_isLine hbackslash body
    exact absurd rfl (h (.lineComment line) after hline)
  · rename_i body
    cases hpair : pair '*' '/' body with
    | none => rfl
    | some n =>
      obtain ⟨inside, after, rfl, hinside, -⟩ := pair_eq_some_iff.1 hpair
      exact absurd (by simp [Skipped.written]) (h (.blockComment inside) after hinside)
  · split
    · rename_i hquote
      have hne : '\\' ≠ c := by rcases hquote with rfl | rfl <;> decide
      cases hquoted : quoted c '\\' behind with
      | none => rfl
      | some n =>
        obtain ⟨inside, after, rfl, hinside, -⟩ := (quoted_eq_some_iff hne).1 hquoted
        exact absurd (by simp [Skipped.written]) (h (.literal c inside) after ⟨hquote, hinside⟩)
    · split
      · rename_i hdirective
        obtain ⟨rfl, hnewline⟩ := hdirective
        obtain ⟨line, after, rfl, hline, -⟩ := exists_isLine hbackslash behind
        exact absurd rfl (h (.directive line) after ⟨hline, by simpa using hnewline⟩)
      · rfl

theorem takeWhile_of_isWord (h : IsWord word behind) :
    (word ++ behind).takeWhile isWordChar = word := by
  rw [List.takeWhile_append_of_pos h.wordChars]
  cases behind with
  | nil => simp
  | cons c behind => simp [h.stops c rfl]

theorem dropWhile_of_isWord (h : IsWord word behind) :
    (word ++ behind).dropWhile isWordChar = behind := by
  rw [List.dropWhile_append_of_pos h.wordChars]
  cases behind with
  | nil => rfl
  | cons c behind => simp [h.stops c rfl]

/-- A whole word is read as a whole. -/
theorem firstPiece_of_isWord (table : MacroTable) (aside : List String)
    (h : IsWord word behind) :
    ∃ c rest, word ++ behind = c :: rest ∧
      firstPiece table aside c rest = wordPiece table aside word behind := by
  obtain ⟨c, tail, rfl⟩ := List.exists_cons_of_ne_nil h.nonempty
  have hc : isWordChar c = true := h.wordChars c List.mem_cons_self
  have htake := takeWhile_of_isWord h
  have hdrop := dropWhile_of_isWord h
  rw [List.cons_append, List.takeWhile_cons_of_pos hc] at htake
  rw [List.cons_append, List.dropWhile_cons_of_pos hc] at hdrop
  refine ⟨c, tail ++ behind, rfl, ?_⟩
  rw [firstPiece, if_pos hc, htake, hdrop]

/-- The text starts with a whole word if it starts with a word character. -/
theorem exists_isWord (hc : isWordChar c = true) (rest : List Char) :
    ∃ word behind, c :: rest = word ++ behind ∧ IsWord word behind := by
  refine ⟨c :: rest.takeWhile isWordChar, rest.dropWhile isWordChar, ?_, ?_⟩
  · rw [List.cons_append, List.takeWhile_append_dropWhile]
  · refine ⟨List.cons_ne_nil _ _, ?_, ?_⟩
    · intro d hd
      rcases List.mem_cons.1 hd with rfl | hd
      · exact hc
      · exact List.mem_takeWhile_imp hd
    · intro d hd
      have hover := List.head?_dropWhile_not isWordChar rest
      rw [Option.mem_def.1 hd] at hover
      exact hover

/-- Behind the name of a macro with parameters the list of a call is found. -/
theorem group?_eq_some_iff {group : List Char} : group? text = some (gap, group) ↔
    ∃ arguments behind, text = gap ++ group ++ behind ∧ group = '(' :: arguments ++ [')'] ∧
      (∀ c ∈ gap, isGap c = true) ∧
      Lexeme.group? .source .paren (arguments ++ ')' :: behind) =
        some (arguments.length + 2) := by
  have htaken : ∀ arguments behind : List Char,
      ('(' :: (arguments ++ ')' :: behind)).take (arguments.length + 2) =
        '(' :: arguments ++ [')'] := by
    intro arguments behind
    rw [List.take_succ_cons, List.append_cons, List.take_left' (by simp), List.cons_append]
  constructor
  · intro h
    unfold group? at h
    split at h
    · rename_i list hlist
      obtain ⟨n, hgroup, hpair⟩ := Option.map_eq_some_iff.1 h
      obtain ⟨rfl, rfl⟩ := Prod.mk.inj hpair
      obtain ⟨arguments, behind, hsplit, rfl⟩ := Lexeme.group?_split hgroup
      obtain rfl : list = arguments ++ ')' :: behind := hsplit
      refine ⟨arguments, behind, ?_, htaken arguments behind,
        fun c hc => List.mem_takeWhile_imp hc, hgroup⟩
      have hwhole := List.takeWhile_append_dropWhile (p := isGap) (l := text)
      rw [htaken]
      rw [hlist] at hwhole
      simpa using hwhole.symm
    · simp at h
  · rintro ⟨arguments, behind, rfl, rfl, hgap, hgroup⟩
    have hdrop : (gap ++ ('(' :: arguments ++ [')']) ++ behind).dropWhile isGap =
        '(' :: (arguments ++ ')' :: behind) := by
      rw [List.append_assoc, List.dropWhile_append_of_pos hgap]
      simp [isGap, isBlank]
    have htake : (gap ++ ('(' :: arguments ++ [')']) ++ behind).takeWhile isGap = gap := by
      rw [List.append_assoc, List.takeWhile_append_of_pos hgap]
      simp [isGap, isBlank]
    simp only [group?, hdrop, htake, hgroup, Option.map_some, htaken]

/-- An invocation is expanded where it stands. -/
theorem wordPiece_of_stands {i : Invocation} (h : i.Stands table aside behind) :
    wordPiece table aside i.word (i.list ++ behind) = (i.piece, behind) := by
  obtain ⟨-, ⟨hget, hnumber, hfree⟩, hlisted⟩ := h
  cases i with
  | name word definition =>
    have hnone : definition.parameters = none := hlisted
    simp only [Invocation.word, Invocation.definition] at hget hnumber hfree
    simp [wordPiece, Invocation.word, Invocation.list, Invocation.piece, hget, hnumber, hfree,
      hnone]
  | call word definition parameters gap arguments =>
    obtain ⟨hparameters, hgap, hgroup⟩ := hlisted
    have hcall : group? (gap ++ ('(' :: arguments ++ [')']) ++ behind) =
        some (gap, '(' :: arguments ++ [')']) :=
      group?_eq_some_iff.2 ⟨arguments, behind, rfl, rfl, hgap, hgroup⟩
    simp only [Invocation.word, Invocation.definition] at hget hnumber hfree
    simp only [wordPiece, Invocation.word, Invocation.list, Invocation.piece, hget, hnumber, hfree,
      hparameters, hcall, List.contains_eq_mem, decide_false, Bool.or_false, Bool.false_eq_true,
      if_false]
    refine Prod.ext ?_ ?_
    · simp
    · exact List.drop_left' rfl

/-- A word that starts no invocation is copied. -/
theorem wordPiece_eq_copied (hword : IsWord word behind)
    (h : ∀ (i : Invocation) after, i.Stands table aside after →
      word ++ behind ≠ i.written ++ after) :
    wordPiece table aside word behind = (.copied word, behind) := by
  unfold wordPiece
  simp only
  split
  · rfl
  · rename_i definition hget
    split
    · rfl
    · rename_i hfree
      simp only [Bool.or_eq_true, not_or, Bool.not_eq_true, List.contains_eq_mem,
        decide_eq_false_iff_not] at hfree
      have hnames : Names table aside word definition := ⟨hget, hfree.1, hfree.2⟩
      split
      · rename_i hparameters
        have hstands : (Invocation.name word definition).Stands table aside behind :=
          ⟨hword, hnames, hparameters⟩
        exact absurd (by simp [Invocation.written, Invocation.word, Invocation.list])
          (h _ _ hstands)
      · rename_i parameters hparameters
        split
        · rfl
        · rename_i gap group hgroup
          obtain ⟨arguments, after, rfl, rfl, hgap, hclosed⟩ := group?_eq_some_iff.1 hgroup
          have hstands : (Invocation.call word definition parameters gap arguments).Stands table
              aside after := ⟨hword, hnames, hparameters, hgap, hclosed⟩
          exact absurd (by simp [Invocation.written, Invocation.word, Invocation.list])
            (h _ _ hstands)

/-- The group of a call, which was found in the whole text, is balanced on its own too. -/
theorem Invocation.Stands.balanced {i : Invocation} (h : i.Stands table aside behind) :
    i.Balanced := by
  cases i with
  | name => trivial
  | call word definition parameters gap arguments =>
    have hgroup := h.listed.2.2
    rw [← List.singleton_append (l := behind), ← List.append_assoc] at hgroup
    have halone := Lexeme.group?_append hgroup (by simp)
    have hfirst : Lexeme.first .source '(' (arguments ++ [')']) =
        (.group .paren, arguments.length + 2) := by
      simp only [Lexeme.first, Delim.ofOpener?, halone]
    have hdrop : ('(' :: (arguments ++ [')'])).drop (arguments.length + 2) = [] := by simp
    have htokens := TokenStream.ofChars_cons .source 0 0 '(' (arguments ++ [')'])
    rw [hfirst, hdrop, TokenStream.ofChars_nil] at htokens
    exact ⟨_, htokens, rfl⟩

theorem getLast?_of_isLine {line : List Char} (h : IsLine '\n' '\\' line behind) :
    line.getLast? = some '\n' ∨ behind = [] := by
  rcases h with ⟨run, rfl, -⟩ | ⟨rfl, -⟩
  · exact .inl List.getLast?_concat
  · exact .inr rfl

/-- No word goes on from one text into the other. -/
def Apart (left right : List Char) : Prop :=
  ∀ a ∈ left.getLast?, ∀ b ∈ right.head?, isWordChar a = false ∨ isWordChar b = false

theorem apart_of_last {left : List Char} (hlast : left.getLast? = some c)
    (hc : isWordChar c = false) : Apart left behind := by
  intro a ha b hb
  rw [hlast] at ha
  exact .inl (Option.some.inj ha ▸ hc)

theorem apart_nil {left : List Char} : Apart left [] := by
  intro a ha b hb
  simp at hb

theorem apart_of_stops {left : List Char} (h : ∀ b ∈ behind.head?, isWordChar b = false) :
    Apart left behind :=
  fun _ _ b hb => .inr (h b hb)

theorem Skipped.Stands.apart {p : Skipped} (h : p.Stands behind) : Apart p.written behind := by
  have hnewline : isWordChar '\n' = false := by decide
  cases p with
  | lineComment line =>
    rcases getLast?_of_isLine h with hlast | rfl
    · exact apart_of_last (by simp [written, List.getLast?_cons, hlast]) hnewline
    · exact apart_nil
  | blockComment inside =>
    exact apart_of_last (c := '/') (by simp [written, List.getLast?_cons]) (by decide)
  | literal quote inside =>
    refine apart_of_last (c := quote) (by simp [written, List.getLast?_cons]) ?_
    rcases h.1 with rfl | rfl <;> decide
  | directive line =>
    rcases getLast?_of_isLine h.1 with hlast | rfl
    · exact apart_of_last (by simp [written, List.getLast?_cons, hlast]) hnewline
    · exact apart_nil

/-- No stretch ends in the middle of a word. -/
theorem Stretch.Stands.apart {s : Stretch} (h : s.Stands table aside behind) :
    Apart s.written behind := by
  cases s with
  | skipped p => exact Skipped.Stands.apart h
  | invocation i =>
    cases i with
    | name word definition => exact apart_of_stops h.isWord.stops
    | call word definition parameters gap arguments =>
      exact apart_of_last (c := ')')
        (by simp [written, Invocation.written, Invocation.list, List.getLast?_cons]) (by decide)
  | word w => exact apart_of_stops h.1.stops
  | mark c => exact apart_of_last rfl h.1

/-- A stretch is the first piece of what it can stand in front of. -/
theorem firstPiece_of_stands {s : Stretch} (h : s.Stands table aside behind) :
    ∃ c rest, s.written ++ behind = c :: rest ∧
      firstPiece table aside c rest = (s.piece, behind) := by
  cases s with
  | skipped p =>
    obtain ⟨c, rest, hsplit, hc, hlength⟩ := Skipped.copiedLength_eq h
    refine ⟨c, rest, hsplit, ?_⟩
    simp only [firstPiece, hc, hlength, ← hsplit, Bool.false_eq_true, if_false]
    rw [List.take_left, List.drop_left]
    rfl
  | invocation i =>
    obtain ⟨c, rest, hsplit, hfirst⟩ := firstPiece_of_isWord table aside h.isWord
    refine ⟨c, rest, ?_, hfirst.trans (wordPiece_of_stands h)⟩
    rw [← hsplit, Stretch.written, Invocation.written, List.append_assoc]
  | word w =>
    obtain ⟨c, rest, hsplit, hfirst⟩ := firstPiece_of_isWord table aside h.1
    exact ⟨c, rest, hsplit, hfirst.trans (wordPiece_eq_copied h.1 h.2)⟩
  | mark c =>
    refine ⟨c, behind, rfl, ?_⟩
    simp only [firstPiece, h.1, copiedLength_eq_one h.2, Bool.false_eq_true, if_false]
    rfl

/-- Some stretch stands at the front of a text that is not empty. -/
theorem exists_stands (table : MacroTable) (aside : List String) (c : Char) (rest : List Char) :
    ∃ (s : Stretch) (behind : List Char),
      c :: rest = s.written ++ behind ∧ s.Stands table aside behind := by
  -- a word or a mark is what is left where nothing else can stand
  by_cases hc : isWordChar c = true
  · obtain ⟨w, behind, hsplit, hword⟩ := exists_isWord hc rest
    by_cases hi : ∃ (i : Invocation) (after : List Char),
        i.Stands table aside after ∧ w ++ behind = i.written ++ after
    · obtain ⟨i, after, hstands, heq⟩ := hi
      exact ⟨.invocation i, after, hsplit.trans heq, hstands⟩
    · exact ⟨.word w, behind, hsplit, hword, fun i after hstands heq => hi ⟨i, after, hstands, heq⟩⟩
  · by_cases hp : ∃ (p : Skipped) (after : List Char),
        p.Stands after ∧ c :: rest = p.written ++ after
    · obtain ⟨p, after, hstands, heq⟩ := hp
      exact ⟨.skipped p, after, heq, hstands⟩
    · exact ⟨.mark c, rest, rfl, Bool.eq_false_iff.2 hc,
        fun p after hstands heq => hp ⟨p, after, hstands, heq⟩⟩

/-- Every text reads as some stretches. -/
theorem exists_reads (table : MacroTable) (aside : List String) (text : List Char) :
    ∃ parts, Reads table aside text parts := by
  induction hn : text.length using Nat.strongRecOn generalizing text with
  | ind n ih =>
    cases text with
    | nil => exact ⟨[], .nil⟩
    | cons c rest =>
      obtain ⟨s, behind, hsplit, hs⟩ := exists_stands table aside c rest
      obtain ⟨d, others, hfirst, hpiece⟩ := firstPiece_of_stands hs
      obtain ⟨rfl, rfl⟩ := List.cons.inj (hsplit.trans hfirst)
      have hshorter := firstPiece_length table aside c rest
      rw [hpiece] at hshorter
      obtain ⟨parts, hparts⟩ := ih behind.length (by simp at hn hshorter; omega) behind rfl
      exact ⟨s :: parts, hsplit ▸ .cons hs hparts⟩

namespace Reads

variable {parts before after : List Stretch} {s : Stretch}

theorem flatMap_written (h : Reads table aside text parts) :
    parts.flatMap Stretch.written = text := by
  induction h with
  | nil => rfl
  | cons hs hrest ih => rw [List.flatMap_cons, ih]

/-- The pieces of a text are those of its stretches. -/
theorem pieces_eq (h : Reads table aside text parts) :
    pieces table aside text = parts.map Stretch.piece := by
  induction h with
  | nil => rw [pieces, List.map_nil]
  | cons hs hrest ih =>
    obtain ⟨c, rest, hsplit, hfirst⟩ := firstPiece_of_stands hs
    rw [hsplit, pieces, hfirst, ih, List.map_cons]

/-- The expansion of a text is what is put in the place of its stretches. -/
theorem expand_eq (h : Reads table aside text parts) :
    expand table aside text = Expansion.join (parts.map (Stretch.expansion table aside)) := by
  have hexpansion : pieceExpansion table aside ∘ Stretch.piece = Stretch.expansion table aside := by
    funext s
    cases s <;> rfl
  rw [expand_eq_join, h.pieces_eq, List.map_map, hexpansion]

/-- A stretch of a reading stands in front of what the stretches behind it make up, and does not
go on with a word of those before it. -/
theorem stands_of_mem (h : Reads table aside text (before ++ s :: after)) :
    s.Stands table aside (after.flatMap Stretch.written) ∧
      Apart (before.flatMap Stretch.written) s.written := by
  induction before generalizing text with
  | nil =>
    cases h with
    | cons hs hrest =>
      rw [hrest.flatMap_written]
      refine ⟨hs, fun a ha => ?_⟩
      simp at ha
  | cons p before ih =>
    cases h with
    | cons hp hrest =>
      obtain ⟨hs, hbefore⟩ := ih hrest
      refine ⟨hs, fun a ha b hb => ?_⟩
      rw [List.flatMap_cons, List.getLast?_append] at ha
      -- the character in front of `s` is the last one of `p` if nothing stands between them
      cases hlast : (before.flatMap Stretch.written).getLast? with
      | some last =>
        rw [hlast, Option.some_or] at ha
        exact hbefore a (hlast.trans ha) b hb
      | none =>
        rw [hlast, Option.none_or] at ha
        have hnext : (before ++ s :: after).flatMap Stretch.written = _ := hrest.flatMap_written
        rw [List.flatMap_append, List.getLast?_eq_none_iff.1 hlast, List.nil_append,
          List.flatMap_cons] at hnext
        refine hp.apart a ha b ?_
        rw [← hnext, List.head?_append, Option.mem_def.1 hb]
        rfl

end Reads

/-- A word that is not registered starts no invocation. -/
theorem word_stands_of_unregistered (hword : IsWord word behind)
    (hget : table.get? (String.ofList word) = none) :
    (Stretch.word word).Stands table aside behind := by
  refine ⟨hword, fun i after hi heq => ?_⟩
  have htake := takeWhile_of_isWord hi.isWord
  rw [← List.append_assoc, ← Invocation.written, ← heq, takeWhile_of_isWord hword] at htake
  have hregistered := hi.names.registered
  rw [← htake, hget] at hregistered
  exact absurd hregistered (by simp)

/-- A text in which no word is the name of a macro reads the same as without macros, and has no
invocations. -/
theorem Reads.of_unregistered {plain : List Stretch} (aside : List String)
    (h : Reads MacroTable.empty [] text plain)
    (hwords : ∀ w, Stretch.word w ∈ plain → table.get? (String.ofList w) = none) :
    Reads table aside text plain ∧
      ∀ s ∈ plain, s.expansion table aside = Expansion.copied s.written := by
  induction h with
  | nil => exact ⟨.nil, by simp⟩
  | @cons s behind rest hs hrest ih =>
    obtain ⟨hreads, hcopied⟩ := ih fun w hw => hwords w (List.mem_cons_of_mem s hw)
    have hcons : s.Stands table aside behind ∧
        s.expansion table aside = Expansion.copied s.written := by
      cases s with
      | skipped p => exact ⟨hs, rfl⟩
      | invocation i =>
        have hregistered := hs.names.registered
        simp [MacroTable.get?, MacroTable.empty] at hregistered
      | word w =>
        exact ⟨word_stands_of_unregistered hs.1 (hwords w List.mem_cons_self), rfl⟩
      | mark c => exact ⟨hs, rfl⟩
    exact ⟨.cons hcons.1 hreads, List.forall_mem_cons.2 ⟨hcons.2, hcopied⟩⟩

theorem join_copied (parts : List Stretch) :
    Expansion.join (parts.map fun s => Expansion.copied s.written) =
      Expansion.copied (parts.flatMap Stretch.written) := by
  simp [Expansion.join, Expansion.copied, List.flatMap_map]

/-- Expansion replaces invocations and nothing else. Every text has a reading; in the place of its
invocations stands what they expand to, and all else is copied. An invocation is a whole word that
names a macro, alone or with a balanced group behind it, and a text in which no word names a macro
stays as it is. -/
theorem expand_touches_invocations (table : MacroTable) (text : String) :
    (∃ parts, Reads table [] text.toList parts) ∧
      (∀ parts, Reads table [] text.toList parts →
        parts.flatMap Stretch.written = text.toList ∧
          table.expand text = Expansion.join (parts.map (Stretch.expansion table [])) ∧
          ∀ before i after, parts = before ++ .invocation i :: after →
            i.Stands table [] (after.flatMap Stretch.written) ∧ i.Balanced ∧
              ∀ a ∈ (before.flatMap Stretch.written).getLast?, isWordChar a = false) ∧
      ∀ plain, Reads MacroTable.empty [] text.toList plain →
        (∀ w, Stretch.word w ∈ plain → table.get? (String.ofList w) = none) →
        table.expand text = Expansion.copied text.toList := by
  refine ⟨exists_reads table [] text.toList, ?_, ?_⟩
  · intro parts hparts
    refine ⟨hparts.flatMap_written, hparts.expand_eq, ?_⟩
    rintro before i after rfl
    obtain ⟨hi, hbefore⟩ := hparts.stands_of_mem
    refine ⟨hi, Invocation.Stands.balanced hi, fun a ha => ?_⟩
    have hword : IsWord i.word (i.list ++ after.flatMap Stretch.written) := hi.isWord
    obtain ⟨c, tail, hc⟩ := List.exists_cons_of_ne_nil hword.nonempty
    have hstart : c ∈ (Stretch.invocation i).written.head? := by
      rw [Stretch.written, Invocation.written, hc]
      rfl
    have hwordChar : isWordChar c = true := hword.wordChars c (hc ▸ List.mem_cons_self)
    rcases hbefore a ha c hstart with hlast | hfirst
    · exact hlast
    · rw [hwordChar] at hfirst
      exact absurd hfirst (by decide)
  · intro plain hplain hwords
    obtain ⟨hreads, hcopied⟩ := hplain.of_unregistered [] hwords
    rw [MacroTable.expand, hreads.expand_eq, List.map_congr_left hcopied, join_copied,
      hreads.flatMap_written]

end MacroExpansion

end CBoundary
