import CBoundary.Proofs.CursorSlice
import CBoundary.Proofs.PieceExpansion

/-!
Putting arguments into the body of a macro with a cursor. Words, the blanks around joining
operators and literals are skipped by bytes and then sliced out; an argument is looked up by the
place of its parameter in the list. Main statement: for as many arguments as there are parameters,
no slice is a stray one and no place is outside the list of arguments.
-/
namespace CBoundary.Cursor

variable (stray : Option (List Char))

/-- The words that joining operators chain to the word before the cursor, and the cursor behind
them. -/
def joinedWords (c : Cursor) : Option (List (List Char) × Cursor) := do
  let ahead ← CursorSlice.rest stray c.skipBlanks
  if ['#', '#'] <+: ahead then
    let operand := (c.skipBlanks.advance 2).skipBlanks
    let behind ← CursorSlice.skipWord stray operand
    if behind.position = operand.position then some ([], c)
    else
      let word ← CursorSlice.since stray behind operand.position
      let (words, last) ← behind |>.joinedWords
      some (word :: words, last)
  else some ([], c)
partial_fixpoint

end CBoundary.Cursor

namespace CBoundary.CursorSubstitution

open ByteExtent CharacterClass CursorScan CursorSlice Substitution

section

variable (stray : Option (List Char))

variable (parameters : List Token) (arguments : List (List Char × List Char))

/-- The argument for a word, as it is written and expanded, if the word is a parameter. There is no
result if the argument is missing. -/
def argument? (word : List Char) : Option (Option (List Char × List Char)) :=
  match parameters.findIdx? fun parameter => parameter.chars == word with
  | none => some none
  | some place => arguments[place]?.map some

/-- What a word stands for next to a joining operator. -/
def written (word : List Char) : Option (List Char) :=
  (argument? parameters arguments word).map fun found => (found.map Prod.fst).getD word

/-- What a word stands for on its own. -/
def expanded (word : List Char) : Option (List Char) :=
  (argument? parameters arguments word).map fun found => (found.map Prod.snd).getD word

/-- The number sign at the cursor with the word it quotes, or alone if there is no word. -/
def quotation (c : Cursor) : Option (List Char × Cursor) := do
  let operand := (c.advance 1).skipBlanks
  let behind ← skipWord stray operand
  if operand.position < behind.position then
    let word ← since stray behind operand.position
    let found ← argument? parameters arguments word
    some (LiteralEscape.quote ((found.map Prod.fst).getD []), behind)
  else copyTo stray c (c.advance 1)

/-- The word at the cursor with those that are joined to it, or one character that belongs to no
word. -/
def wordChain (c : Cursor) : Option (List Char × Cursor) := do
  let behind ← skipWord stray c
  if behind.position = c.position then copyTo stray c (← advanceChar stray c)
  else
    let word ← since stray behind c.position
    match ← behind.joinedWords stray with
    | ([], last) => (expanded parameters arguments word).map fun text => (text, last)
    | (words, last) =>
        ((word :: words).mapM (written parameters arguments)).map fun texts =>
          (texts.flatten, last)

/-- The part of a body at the cursor: what it turns into, and the cursor behind it. -/
def step (c : Cursor) : Option (List Char × Cursor) :=
  if peekChar c 0 = '"' ∨ peekChar c 0 = '\'' then
    copyTo stray c (((c.advance 1).skipQuoted? (c.peek 0)).getD (c.advance 1))
  else if peekChar c 0 = '#' ∧ peekChar c 1 = '#' then copyTo stray c (c.advance 2)
  else if peekChar c 0 = '#' then quotation stray parameters arguments c
  else if isWordStart (peekChar c 0) then wordChain stray parameters arguments c
  else do copyTo stray c (← advanceChar stray c)

end

end CBoundary.CursorSubstitution

namespace CBoundary.Cursor

variable (stray : Option (List Char)) (parameters : List Token)
  (arguments : List (List Char × List Char))

/-- The rest of a body with the arguments put in. -/
def stepsFrom (c : Cursor) : Option (List Char) :=
  if c.atEnd then some []
  else do
    let (part, behind) ← CursorSubstitution.step stray parameters arguments c
    let others ← behind |>.stepsFrom
    some (part ++ others)
partial_fixpoint

end CBoundary.Cursor

namespace CBoundary.CursorSubstitution

open ByteExtent CharacterClass CursorScan CursorSlice Substitution

/-- The body of a macro with the arguments of a call put in. -/
def substituted (stray : Option (List Char)) (parameters : List Token)
    (arguments : List (List Char × List Char)) (body : List Char) : Option (List Char) :=
  (Cursor.ofText (String.ofList body)).stepsFrom stray parameters arguments

section

variable {stray : Option (List Char)} {parameters : List Token}
  {arguments : List (List Char × List Char)} {c : Cursor} {before ahead others word : List Char}
  {d : Char}

/-- A parameter has its argument at its own place. -/
theorem argument?_eq (h : parameters.length ≤ arguments.length) (word : List Char) :
    argument? parameters arguments word =
      some ((find? (MacroExpansion.bound parameters arguments) word).map fun b =>
        (b.written, b.expanded)) := by
  induction parameters generalizing arguments with
  | nil => rfl
  | cons parameter parameters ih =>
    cases arguments with
    | nil => simp at h
    | cons argument arguments =>
      have hothers := ih (Nat.le_of_succ_le_succ h)
      unfold argument? at hothers ⊢
      rw [List.findIdx?_cons]
      by_cases hword : parameter.chars = word
      · simp [find?, MacroExpansion.bound, hword]
      · cases hplace : parameters.findIdx? fun parameter => parameter.chars == word with
        | none =>
          rw [hplace] at hothers
          simpa [find?, MacroExpansion.bound, hword, hplace] using hothers
        | some place =>
          rw [hplace] at hothers
          simpa [find?, MacroExpansion.bound, hword, hplace] using hothers

theorem written_eq (h : parameters.length ≤ arguments.length) (word : List Char) :
    written parameters arguments word =
      some (joined (MacroExpansion.bound parameters arguments) word) := by
  rw [written, argument?_eq h, joined]
  cases find? (MacroExpansion.bound parameters arguments) word <;> rfl

theorem expanded_eq (h : parameters.length ≤ arguments.length) (word : List Char) :
    expanded parameters arguments word =
      some (plain (MacroExpansion.bound parameters arguments) word) := by
  rw [expanded, argument?_eq h, plain]
  cases find? (MacroExpansion.bound parameters arguments) word <;> rfl

/-- The text behind a joining operator and the blanks around it. -/
def operandBehind (text : List Char) : List Char :=
  ((text.dropWhile isBlank).drop 2).dropWhile isBlank

/-- There is something to join where a word stands behind the operator. -/
theorem afterJoin?_eq (text : List Char) :
    afterJoin? text =
      if ['#', '#'] <+: text.dropWhile isBlank ∧ (operandBehind text).takeWhile isWordChar ≠ []
      then some (operandBehind text) else none := by
  unfold afterJoin? operandBehind
  split
  · rename_i behind hstart
    have hjoins : ['#', '#'] <+: '#' :: '#' :: behind := List.prefix_append ['#', '#'] behind
    rw [hstart]
    simp only [hjoins, true_and, List.drop_succ_cons, List.drop_zero]
    cases behind.dropWhile isBlank with
    | nil => rfl
    | cons d operand => by_cases hd : isWordChar d = true <;> simp [hd]
  · rename_i hstart
    rw [if_neg]
    rintro ⟨⟨behind, hbehind⟩, -⟩
    exact hstart behind hbehind.symm

/-- The operand of a joining operator is skipped up to. -/
theorem exists_operand (h : c.At before ahead) (hjoin : ['#', '#'] <+: ahead.dropWhile isBlank) :
    ∃ taken, (c.skipBlanks.advance 2).skipBlanks.At taken (operandBehind ahead) := by
  obtain ⟨behind, hbehind⟩ := hjoin
  have hblank := skipBlanks_between h
  rw [← hbehind] at hblank
  have htwo := advance_two hblank (by decide) (by decide)
  rw [operandBehind, ← hbehind, htwo]
  exact ⟨_, skipBlanks_between (hblank.past 2)⟩

/-- The words that follow are those that follow over characters. -/
theorem readsTo_joinedWords (stray : Option (List Char)) (h : c.At before ahead) :
    ReadsTo (c.joinedWords stray) (joinChain ahead).1 (joinChain ahead).2 := by
  fun_induction joinChain ahead generalizing c before with
  | case1 ahead hnone =>
    refine ⟨c, before, ?_, h⟩
    rw [afterJoin?_eq, ite_eq_right_iff] at hnone
    rw [Cursor.joinedWords, rest_at (skipBlanks_between h)]
    by_cases hjoin : ['#', '#'] <+: ahead.dropWhile isBlank
    · obtain ⟨taken, hoperand⟩ := exists_operand h hjoin
      obtain ⟨behind, hskip, hbehind⟩ := exists_skipWord stray hoperand
      have hword : (operandBehind ahead).takeWhile isWordChar = [] := by
        by_cases hword : (operandBehind ahead).takeWhile isWordChar = []
        · exact hword
        · exact absurd (hnone ⟨hjoin, hword⟩) (Option.some_ne_none _)
      have hposition := (position_eq_iff hoperand hbehind).2 hword
      simp [hskip, hposition]
    · simp [hjoin]
  | case2 ahead operand hsome more =>
    rename_i ih
    rw [afterJoin?_eq, Option.ite_none_right_eq_some] at hsome
    obtain ⟨⟨hjoin, hword⟩, hoperand⟩ := hsome
    obtain rfl := Option.some.inj hoperand
    obtain ⟨taken, hplace⟩ := exists_operand h hjoin
    obtain ⟨behind, hskip, hbehind⟩ := exists_skipWord stray hplace
    have hposition := mt (position_eq_iff hplace hbehind).1 hword
    obtain ⟨last, front, hmore, hlast⟩ := ih hbehind
    rw [← List.takeWhile_append_dropWhile (p := isWordChar) (l := operandBehind ahead)] at hplace
    refine ⟨last, front, ?_, hlast⟩
    rw [Cursor.joinedWords, rest_at (skipBlanks_between h)]
    simp [hjoin, hskip, hposition, since_between hplace hbehind, hmore, more]

variable {bindings : List Binding}

theorem step_quote (hd : d = '"' ∨ d = '\'') :
    Substitution.step bindings d others =
      ((d :: others).take (1 + (Extent.quoted d '\\' others).getD 0),
        (d :: others).drop (1 + (Extent.quoted d '\\' others).getD 0)) := by
  unfold Substitution.step
  split
  · simp at hd
  · rw [if_pos hd]
    cases Extent.quoted d '\\' others with
    | none => simp
    | some n => simp [Nat.add_comm]

/-- A number sign before a word, or alone. -/
theorem step_sign (hnext : ∀ tail, others ≠ '#' :: tail) :
    Substitution.step bindings '#' others =
      let operand := others.dropWhile isBlank
      if operand.takeWhile isWordChar = [] then (['#'], others)
      else (quoted bindings (operand.takeWhile isWordChar), operand.dropWhile isWordChar) := by
  unfold Substitution.step
  split
  · rename_i tail _
    exact absurd rfl (hnext tail)
  · simp

theorem step_word (hd : isWordChar d = true) :
    Substitution.step bindings d others =
      match joinChain ((d :: others).dropWhile isWordChar) with
      | ([], behind) => (plain bindings ((d :: others).takeWhile isWordChar), behind)
      | (words, behind) =>
          (((d :: others).takeWhile isWordChar :: words).flatMap (joined bindings), behind) := by
  have hquote : ¬ (d = '"' ∨ d = '\'') := by
    rintro (rfl | rfl) <;> exact absurd hd (by decide)
  have hsign : d ≠ '#' := by
    rintro rfl
    exact absurd hd (by decide)
  rw [List.takeWhile_cons_of_pos hd, List.dropWhile_cons_of_pos hd]
  unfold Substitution.step
  split
  · exact absurd rfl hsign
  · exact (if_neg hquote).trans ((if_neg hsign).trans (if_pos hd))

theorem step_other (hquote : ¬ (d = '"' ∨ d = '\'')) (hsign : d ≠ '#')
    (hword : isWordChar d = false) : Substitution.step bindings d others = ([d], others) := by
  unfold Substitution.step
  split
  · exact absurd rfl hsign
  · rw [if_neg hquote, if_neg hsign, if_neg (by simp [hword])]

theorem readsTo_quotation (hlength : parameters.length ≤ arguments.length)
    (h : c.At before ('#' :: others)) (hnext : ∀ tail, others ≠ '#' :: tail) :
    let part := Substitution.step (MacroExpansion.bound parameters arguments) '#' others
    ReadsTo (quotation stray parameters arguments c) part.1 part.2 := by
  have hone := h.advance_one (by decide)
  have hoperand := skipBlanks_between (h.past 1)
  rw [List.drop_succ_cons, List.drop_zero, ← hone] at hoperand
  obtain ⟨behind, hskip, hbehind⟩ := exists_skipWord stray hoperand
  rw [step_sign hnext, quotation, hskip]
  by_cases hword : (others.dropWhile isBlank).takeWhile isWordChar = []
  · have hposition := mt (position_lt_iff hoperand hbehind).1 (not_not_intro hword)
    simp only [Option.bind_eq_bind, Option.bind_some, hposition, if_false, hword, if_true]
    rw [hone]
    exact readsTo_copyTo h 1
  · have hposition := (position_lt_iff hoperand hbehind).2 hword
    rw [← List.takeWhile_append_dropWhile (p := isWordChar)
      (l := others.dropWhile isBlank)] at hoperand
    simp only [Option.bind_eq_bind, Option.bind_some, hposition, if_true, hword, if_false,
      since_between hoperand hbehind, argument?_eq hlength, Option.map_map]
    exact ⟨behind, _, rfl, hbehind⟩

theorem readsTo_wordChain (hlength : parameters.length ≤ arguments.length)
    (h : c.At before (d :: others)) (hd : isWordChar d = true) :
    let part := Substitution.step (MacroExpansion.bound parameters arguments) d others
    ReadsTo (wordChain stray parameters arguments c) part.1 part.2 := by
  obtain ⟨behind, hskip, hbehind⟩ := exists_skipWord stray h
  have hword : (d :: others).takeWhile isWordChar ≠ [] := by simp [hd]
  have hposition := mt (position_eq_iff h hbehind).1 hword
  obtain ⟨last, taken, hmore, hlast⟩ := readsTo_joinedWords stray hbehind
  rw [← List.takeWhile_append_dropWhile (p := isWordChar) (l := d :: others)] at h
  rw [step_word hd, wordChain, hskip]
  simp only [Option.bind_eq_bind, Option.bind_some, hposition, if_false, since_between h hbehind,
    hmore]
  cases hchain : joinChain ((d :: others).dropWhile isWordChar) with
  | mk words rest =>
    rw [hchain] at hlast
    cases words with
    | nil =>
      refine ⟨last, taken, ?_, hlast⟩
      simp only [expanded_eq hlength, Option.map_some]
    | cons next words =>
      have hwritten : ∀ texts : List (List Char), texts.mapM (written parameters arguments) =
          some (texts.map (joined (MacroExpansion.bound parameters arguments))) := by
        intro texts
        rw [funext (written_eq hlength)]
        exact List.mapM_pure
      refine ⟨last, taken, ?_, hlast⟩
      simp only [hwritten, Option.map_some, List.flatMap_def]

/-- A character of no word is copied. -/
theorem wordChain_other (h : c.At before (d :: others)) (hd : isWordChar d = false) :
    wordChain stray parameters arguments c = copyTo stray c (c.past 1) := by
  obtain ⟨behind, hskip, hbehind⟩ := exists_skipWord stray h
  have hword : (d :: others).takeWhile isWordChar = [] := by simp [hd]
  have hposition := (position_eq_iff h hbehind).2 hword
  rw [wordChain, hskip, advanceChar_at h]
  simp only [Option.bind_eq_bind, Option.bind_some, hposition, if_true]

/-- The part at a cursor turns into what it turns into over characters. -/
theorem readsTo_step (stray : Option (List Char)) (hlength : parameters.length ≤ arguments.length)
    (h : c.At before (d :: others)) :
    let part := Substitution.step (MacroExpansion.bound parameters arguments) d others
    ReadsTo (step stray parameters arguments c) part.1 part.2 := by
  unfold step
  simp only [peekChar_quote h, peekChar_zero h (show IsAscii '#' by decide),
    isWordStart_peekChar h]
  by_cases hquote : d = '"' ∨ d = '\''
  · rw [if_pos hquote, step_quote hquote, skipQuoted?_quote h hquote]
    exact readsTo_copyTo h _
  rw [if_neg hquote]
  by_cases hsign : d = '#'
  · subst hsign
    have hpeek := peekChar_one h (show IsAscii '#' by decide) (show Cursor.IsMark '#' by decide)
    by_cases hjoin : ∃ tail, others = '#' :: tail
    · obtain ⟨tail, rfl⟩ := hjoin
      rw [if_pos ⟨rfl, hpeek.2 rfl⟩, advance_two h (by decide) (by decide)]
      exact readsTo_copyTo h 2
    · have hnext : ∀ tail, others ≠ '#' :: tail := fun tail htail => hjoin ⟨tail, htail⟩
      rw [if_neg fun hboth => hjoin (List.head?_eq_some_iff.1 (hpeek.1 hboth.2)), if_pos rfl]
      exact readsTo_quotation hlength h hnext
  rw [if_neg fun hboth => hsign hboth.1, if_neg hsign]
  by_cases hword : isWordChar d = true
  · rw [if_pos (isWordStart_of_isWordChar hword)]
    exact readsTo_wordChain hlength h hword
  -- no word, whether or not the byte looked like the start of one
  · rw [Bool.not_eq_true] at hword
    rw [step_other hquote hsign hword, wordChain_other h hword, advanceChar_at h,
      Option.bind_eq_bind, Option.bind_some, ite_self]
    exact readsTo_copyTo h 1

theorem stepsFrom_at (hlength : parameters.length ≤ arguments.length) (h : c.At before ahead) :
    c.stepsFrom stray parameters arguments =
      some (Substitution.substitute (MacroExpansion.bound parameters arguments) ahead) := by
  fun_induction Substitution.substitute (MacroExpansion.bound parameters arguments) ahead
    generalizing c before with
  | case1 =>
    rw [Cursor.stepsFrom, h.atEnd]
    rfl
  | case2 d others ih =>
    obtain ⟨place, taken, hstep, hplace⟩ := readsTo_step stray hlength h
    rw [Cursor.stepsFrom, h.atEnd, hstep]
    simp only [List.isEmpty_cons, Bool.false_eq_true, if_false, Option.bind_eq_bind,
      Option.bind_some, ih hplace]

/-- For as many arguments as there are parameters, no slice of a body is a stray one and each
parameter finds its argument. -/
theorem substituted_eq (stray : Option (List Char))
    (hlength : parameters.length ≤ arguments.length) (body : List Char) :
    substituted stray parameters arguments body =
      some (MacroExpansion.substituted parameters arguments body) :=
  stepsFrom_at hlength (at_ofChars body)

end

end CBoundary.CursorSubstitution
