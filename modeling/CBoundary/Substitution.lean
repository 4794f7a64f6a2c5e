import CBoundary.Extent
import CBoundary.LiteralEscape
import CBoundary.CharacterClass

/-!
One pass over the body of a macro with its arguments at hand. A number sign in front of a
word becomes the quoted argument as written, words joined by double number signs become the
arguments as written without anything between them, and any other parameter becomes the
expanded argument. String and character literals are copied.
-/
namespace CBoundary.Substitution

open CharacterClass

/-- A parameter with its argument as written and expanded. -/
structure Binding where
  name : List Char
  written : List Char
  expanded : List Char
deriving DecidableEq, Repr, Inhabited

/-- The first binding of a word. -/
def find? (bindings : List Binding) (word : List Char) : Option Binding :=
  bindings.find? fun b => b.name == word

/-- What a word stands for next to a joining operator. -/
def joined (bindings : List Binding) (word : List Char) : List Char :=
  ((find? bindings word).map Binding.written).getD word

/-- What a word stands for on its own. -/
def plain (bindings : List Binding) (word : List Char) : List Char :=
  ((find? bindings word).map Binding.expanded).getD word

/-- What the quoting operator makes of a word. A word that is no parameter gives an empty
literal. -/
def quoted (bindings : List Binding) (word : List Char) : List Char :=
  LiteralEscape.quote (((find? bindings word).map Binding.written).getD [])

/-- The text behind a joining operator and the blanks on both sides of it, if a word
follows. -/
def afterJoin? (text : List Char) : Option (List Char) :=
  match text.dropWhile isBlank with
  | '#' :: '#' :: rest =>
      let operand := rest.dropWhile isBlank
      if operand.head?.any isWordChar then some operand else none
  | _ => none

theorem length_dropWhile_le {α : Type} (p : α → Bool) (text : List α) :
    (text.dropWhile p).length ≤ text.length :=
  (List.dropWhile_suffix p).length_le

theorem afterJoin?_length {text operand : List Char} (h : afterJoin? text = some operand) :
    operand.length < text.length := by
  unfold afterJoin? at h
  split at h
  · rename_i rest hstart
    simp only [Option.ite_none_right_eq_some, Option.some.injEq] at h
    have hblank := length_dropWhile_le isBlank text
    have hoperand := length_dropWhile_le isBlank rest
    rw [hstart, List.length_cons, List.length_cons] at hblank
    rw [← h.2]
    omega
  · simp at h

/-- The words that joining operators chain to the word before `text`, and the text behind
them. -/
def joinChain (text : List Char) : List (List Char) × List Char :=
  match _h : afterJoin? text with
  | none => ([], text)
  | some operand =>
      let more := joinChain (operand.dropWhile isWordChar)
      (operand.takeWhile isWordChar :: more.1, more.2)
termination_by text.length
decreasing_by
  have := afterJoin?_length _h
  have := length_dropWhile_le isWordChar operand
  omega

theorem joinChain_length (text : List Char) : (joinChain text).2.length ≤ text.length := by
  fun_induction joinChain text with
  | case1 => simp
  | case2 text operand h more ih =>
    have := afterJoin?_length h
    have := length_dropWhile_le isWordChar operand
    simp only [more] at ih ⊢
    omega

/-- The first part of a body that starts with `c`: what it turns into, and the text
behind it. -/
def step (bindings : List Binding) (c : Char) (rest : List Char) : List Char × List Char :=
  match c, rest with
  | '#', '#' :: behind => (['#', '#'], behind)
  | _, _ =>
      if c = '"' ∨ c = '\'' then
        match Extent.quoted c '\\' rest with
        | some n => (c :: rest.take n, rest.drop n)
        | none => ([c], rest)
      else if c = '#' then
        let operand := rest.dropWhile isBlank
        let word := operand.takeWhile isWordChar
        if word.isEmpty then ([c], rest)
        else (quoted bindings word, operand.dropWhile isWordChar)
      else if isWordChar c then
        let word := c :: rest.takeWhile isWordChar
        match joinChain (rest.dropWhile isWordChar) with
        | ([], behind) => (plain bindings word, behind)
        | (words, behind) => ((word :: words).flatMap (joined bindings), behind)
      else ([c], rest)

theorem step_length (bindings : List Binding) (c : Char) (rest : List Char) :
    (step bindings c rest).2.length ≤ rest.length := by
  have hblank := length_dropWhile_le isBlank rest
  have hword := length_dropWhile_le isWordChar rest
  have hoperand := length_dropWhile_le isWordChar (rest.dropWhile isBlank)
  have hchain := joinChain_length (rest.dropWhile isWordChar)
  unfold step
  split
  · simp
  · split
    · split <;> simp
    · split
      · simp only
        split
        · simp
        · simp only
          omega
      · split
        · split <;> rename_i h <;> simp only [h] at hchain ⊢ <;> omega
        · simp

/-- The body with the arguments put in. -/
def substitute (bindings : List Binding) : List Char → List Char
  | [] => []
  | c :: rest => (step bindings c rest).1 ++ substitute bindings (step bindings c rest).2
termination_by body => body.length
decreasing_by
  have := step_length bindings c rest
  simp only [List.length_cons]
  omega

end CBoundary.Substitution
