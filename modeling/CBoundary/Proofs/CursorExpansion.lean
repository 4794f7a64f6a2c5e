import CBoundary.Proofs.CursorDefinition
import CBoundary.Proofs.CursorSubstitution
import CBoundary.Proofs.InvocationRange

/-!
Expansion with a cursor. What is copied, the name of a macro, the group behind it and the inside of
the group are sliced out of the text where the cursor comes to; a comment or a literal that does not
end, or a group that is not closed, puts the cursor back. Main statement: `no_stray_slice`.
-/
namespace CBoundary.Cursor

/-- The cursor behind the blanks and newlines that follow the name of a macro. -/
def skipGap (c : Cursor) : Option Cursor :=
  if CursorScan.peekChar c.skipBlanks 0 = '\n' then c.skipBlanks.advance 1 |>.skipGap
  else some c.skipBlanks
partial_fixpoint

end CBoundary.Cursor

namespace CBoundary.CursorExpansion

open ByteExtent CharacterClass CursorScan CursorSlice MacroExpansion TextPosition

section

variable (stray : Option (List Char))

/-- The cursor behind what is copied from the cursor on where no word starts. -/
def copiedEnd (c : Cursor) : Option Cursor :=
  if peekChar c 0 = '/' ∧ peekChar c 1 = '/' then some c.skipLine
  else if peekChar c 0 = '/' ∧ peekChar c 1 = '*' then
    (skipBlockComment? stray (c.advance 2)).map fun behind => behind.getD (c.advance 1)
  else if peekChar c 0 = '"' ∨ peekChar c 0 = '\'' then
    some (((c.advance 1).skipQuoted? (c.peek 0)).getD (c.advance 1))
  else if peekChar c 0 = '#' then do
    let ahead ← rest stray c
    if ahead.contains '\n' then some c.skipLine else advanceChar stray c
  else advanceChar stray c

/-- The inside of the group of a call and the cursor behind the group, if one follows. -/
def arguments? (c : Cursor) : Option (Option (List Char × Cursor)) := do
  let opening ← c.skipGap
  if peekChar opening 0 = '(' then do
    let ahead ← rest stray opening
    match ← groupLength stray .source ahead with
    | none => some none
    | some length => do
        let inside ← slice? ahead 1 (length - 1)
        some (some (inside, opening.advance length))
  else some none

variable (table : MacroTable) (aside : List String)

/-- The piece that starts with the word between the cursor and `behind`. -/
def wordPiece (c behind : Cursor) : Option (Piece × Cursor) := do
  let word ← since stray behind c.position
  let macroName := String.ofList word
  match table.get? macroName with
  | none => some (.copied word, behind)
  | some definition =>
      if word.head?.any Char.isDigit || aside.contains macroName then some (.copied word, behind)
      else
        match definition.parameters with
        | none => some (.name macroName definition, behind)
        | some parameters => do
            match ← arguments? stray behind with
            | none => some (.copied word, behind)
            | some (inside, last) => do
                let written ← since stray last c.position
                some (.call macroName definition parameters written inside, last)

/-- The piece at the cursor, and the cursor behind it. -/
def firstPiece (c : Cursor) : Option (Piece × Cursor) := do
  if isWordStart (peekChar c 0) then
    let behind ← skipWord stray c
    if behind.position = c.position then
      let (written, last) ← copyTo stray c (← advanceChar stray c)
      some (.copied written, last)
    else wordPiece stray table aside c behind
  else
    let (written, last) ← copyTo stray c (← copiedEnd stray c)
    some (.copied written, last)

end

end CBoundary.CursorExpansion

namespace CBoundary

open CursorExpansion MacroExpansion

section

variable (stray : Option (List Char)) (table : MacroTable)

mutual

/-- Expands the pieces from the cursor on. There is no result unless the expansion ends. -/
def Cursor.expandFrom (aside : List String) (c : Cursor) : Option Expansion :=
  if c.atEnd then some (Expansion.join [])
  else do
    let (piece, behind) ← firstPiece stray table aside c
    let first ← piece |>.expandAt aside
    let others ← behind |>.expandFrom aside
    some (Expansion.join [first, others])
partial_fixpoint

/-- Expands a piece. A body, or an argument, is a text of its own. -/
def Piece.expandAt (aside : List String) (piece : Piece) : Option Expansion :=
  match piece with
  | .copied written => some (Expansion.copied written)
  | .name macroName definition =>
      match definition.body with
      | none => some (Expansion.copied [])
      | some body =>
          if definition.isWellFormed then
            Cursor.ofText (String.ofList body.chars) |>.expandFrom (macroName :: aside)
          else some (Expansion.copied body.chars)
  | .call macroName definition parameters written arguments =>
      match definition.body with
      | none => some (Expansion.copied [])
      | some body =>
          let raw := rawArguments definition parameters arguments
          if raw.length < parameters.length then
            some ⟨written, [⟨macroName, raw.length, parameters.length, aside.reverse⟩]⟩
          else if !definition.isWellFormed then some (Expansion.copied body.chars)
          else if parameters.isEmpty then
            Cursor.ofText (String.ofList body.chars) |>.expandFrom (macroName :: aside)
          else do
            let expansions ← raw.mapM fun argument =>
              Cursor.ofText (String.ofList (cleanArgument argument)) |>.expandFrom aside
            let text ← CursorSubstitution.substituted stray parameters
              ((raw.map cleanArgument).zip (expansions.map Expansion.text)) body.chars
            let result ← Cursor.ofText (String.ofList text) |>.expandFrom (macroName :: aside)
            some ⟨result.text, expansions.flatMap Expansion.errors ++ result.errors⟩
partial_fixpoint

end

end

end CBoundary

namespace CBoundary.CursorExpansion

open ByteExtent CharacterClass CursorScan CursorSlice MacroExpansion TextPosition

/-- Expands a text. There is no result unless the expansion ends. -/
def expandText (stray : Option (List Char)) (table : MacroTable) (aside : List String)
    (text : List Char) : Option Expansion :=
  (Cursor.ofText (String.ofList text)).expandFrom stray table aside

theorem expandFrom_ofText (stray : Option (List Char)) (table : MacroTable) (aside : List String)
    (text : List Char) :
    (Cursor.ofText (String.ofList text)).expandFrom stray table aside =
      expandText stray table aside text := rfl

section

variable {stray : Option (List Char)} {table : MacroTable} {aside : List String} {c : Cursor}
  {before ahead others : List Char} {d : Char}

/-- What is copied ends where it does over characters. A comment or literal without an end puts the
cursor back behind its first character. -/
theorem copiedEnd_at (h : c.At before (d :: others)) :
    copiedEnd stray c = some (c.past (copiedLength d others)) := by
  have hone : advanceChar stray c = some (c.past 1) := advanceChar_at h
  unfold copiedEnd
  simp only [peekChar_zero h (show IsAscii '/' by decide),
    peekChar_zero h (show IsAscii '#' by decide), peekChar_quote h, rest_at h, hone]
  fun_cases copiedLength d others with
  | case1 tail =>
    have hnext := (peekChar_one h isMark_slash.2 isMark_slash).2 rfl
    rw [if_pos ⟨rfl, hnext⟩, h.skipLine, line_cons (by decide) (by decide)]
  | case2 body =>
    have hslash := peekChar_one h isMark_slash.2 isMark_slash
    have hstar := (peekChar_one h isMark_slash.2 isMark_star).2 rfl
    have htwo := advance_two h (by decide) (by decide)
    rw [if_neg fun hc => absurd (hslash.1 hc.2) (by simp), if_pos ⟨rfl, hstar⟩, htwo,
      skipBlockComment?_at (h.past 2), ← htwo, skipBlockComment?_behind h, Option.map_some]
    cases Extent.pair '*' '/' body with
    | none => rw [Option.map_none, Option.map_none, h.advance_one (by decide)]; rfl
    | some n => rfl
  | case3 others d hquote hline hblock =>
    rw [if_neg (not_opening h isMark_slash hline), if_neg (not_opening h isMark_star hblock),
      if_pos hquote, if_pos hquote, skipQuoted?_quote h hquote]
  | case4 others d hquote hdirective hline hblock =>
    have hmore : (d :: others).contains '\n' = true := by
      rw [List.contains_cons, hdirective.2, Bool.or_true]
    obtain rfl := hdirective.1
    rw [if_neg (not_opening h isMark_slash hline), if_neg (not_opening h isMark_star hblock),
      if_neg hquote, if_neg hquote, if_pos rfl, if_pos hdirective, Option.bind_eq_bind,
      Option.bind_some, if_pos hmore, h.skipLine, line_cons (by decide) (by decide)]
  | case5 others d hquote hdirective hline hblock =>
    rw [if_neg (not_opening h isMark_slash hline), if_neg (not_opening h isMark_star hblock),
      if_neg hquote, if_neg hquote, if_neg hdirective]
    by_cases hsign : d = '#'
    · have hnone : ¬ (d :: others).contains '\n' = true := by
        subst hsign
        exact fun hmore => hdirective ⟨rfl, hmore⟩
      rw [if_pos hsign, Option.bind_eq_bind, Option.bind_some, if_neg hnone]
    · rw [if_neg hsign]

/-- Outside ASCII one character is copied. -/
theorem copiedLength_eq_one_of_not_isAscii (hd : ¬ IsAscii d) : copiedLength d others = 1 := by
  have hne : ∀ a : Char, IsAscii a → d ≠ a := fun a ha hda => hd (hda ▸ ha)
  unfold copiedLength
  split
  · exact absurd (by decide) hd
  · exact absurd (by decide) hd
  · simp [hne '"' (by decide), hne '\'' (by decide), hne '#' (by decide)]

theorem isGap_of_isBlank (hd : isBlank d = true) : isGap d = true := by
  rw [isGap, hd, Bool.true_or]

/-- The gap starts with the blanks in front of the first newline. -/
theorem gap_eq (text : List Char) :
    text.takeWhile isGap = text.takeWhile isBlank ++ (text.dropWhile isBlank).takeWhile isGap ∧
      text.dropWhile isGap = (text.dropWhile isBlank).dropWhile isGap := by
  have hblank : ∀ d ∈ text.takeWhile isBlank, isGap d = true :=
    fun d hd => isGap_of_isBlank (List.mem_takeWhile_imp hd)
  have htake : (text.takeWhile isBlank ++ text.dropWhile isBlank).takeWhile isGap = _ :=
    List.takeWhile_append_of_pos hblank
  have hdrop : (text.takeWhile isBlank ++ text.dropWhile isBlank).dropWhile isGap = _ :=
    List.dropWhile_append_of_pos hblank
  rw [List.takeWhile_append_dropWhile] at htake hdrop
  exact ⟨htake, hdrop⟩

/-- A gap ends where the blanks end, unless a newline is there. -/
theorem gap_end {text : List Char} (hnewline : (text.dropWhile isBlank).head? ≠ some '\n') :
    (text.dropWhile isBlank).takeWhile isGap = [] ∧
      (text.dropWhile isBlank).dropWhile isGap = text.dropWhile isBlank := by
  have hblank := List.head?_dropWhile_not isBlank text
  cases htext : text.dropWhile isBlank with
  | nil => exact ⟨rfl, rfl⟩
  | cons d behind =>
    rw [htext, List.head?_cons] at hblank hnewline
    have hd : ¬ isGap d = true := by
      simp only [isGap, Bool.or_eq_true, beq_iff_eq, not_or]
      exact ⟨by simpa using hblank, fun hd => hnewline (congrArg some hd)⟩
    exact ⟨List.takeWhile_cons_of_neg hd, List.dropWhile_cons_of_neg hd⟩

/-- The blanks and newlines behind the name of a macro are skipped as far as they go. -/
theorem skipGap_at (h : c.At before ahead) :
    ∃ place, c.skipGap = some place ∧
      place.At (before ++ ahead.takeWhile isGap) (ahead.dropWhile isGap) := by
  -- each newline that is passed leaves fewer characters
  induction hn : ahead.length using Nat.strongRecOn generalizing c before ahead with
  | ind n ih =>
    have hblank := skipBlanks_between h
    have hpeek := peekChar_eq_iff hblank (show Cursor.IsMark '\n' by decide)
    rw [Cursor.skipGap, (gap_eq ahead).1, (gap_eq ahead).2, ← List.append_assoc]
    by_cases hnewline : (ahead.dropWhile isBlank).head? = some '\n'
    · obtain ⟨behind, hbehind⟩ := List.head?_eq_some_iff.1 hnewline
      rw [hbehind] at hblank
      have hshorter : behind.length < n := by
        have hle := Substitution.length_dropWhile_le isBlank ahead
        rw [hbehind, List.length_cons] at hle
        omega
      obtain ⟨place, hplace, hat⟩ :=
        ih _ hshorter (advance_between ['\n'] hblank) rfl
      refine ⟨place, ?_, ?_⟩
      · rw [if_pos (hpeek.2 hnewline)]
        exact hplace
      · rw [hbehind]
        simpa [isGap] using hat
    · obtain ⟨htake, hdrop⟩ := gap_end hnewline
      refine ⟨c.skipBlanks, if_neg (mt hpeek.1 hnewline), ?_⟩
      rw [htake, hdrop, List.append_nil]
      exact hblank

theorem group?_of_list {list : List Char} (hlist : ahead.dropWhile isGap = '(' :: list) :
    group? ahead = (Lexeme.groupLength? .source ('(' :: list)).map fun n =>
      (ahead.takeWhile isGap, ('(' :: list).take n) := by
  unfold group?
  rw [hlist]
  rfl

theorem group?_of_no_list (hlist : (ahead.dropWhile isGap).head? ≠ some '(') :
    group? ahead = none := by
  unfold group?
  split
  · rename_i list hahead
    exact absurd (congrArg List.head? hahead) hlist
  · rfl

/-- A group is found behind a name where it is found over characters. -/
theorem arguments?_at (stray : Option (List Char)) (h : c.At before ahead) :
    match group? ahead with
    | none => arguments? stray c = some none
    | some (gap, group) => ∃ place, arguments? stray c =
        some (some ((group.drop 1).dropLast, place)) ∧
          place.At (before ++ (gap ++ group)) (ahead.drop (gap ++ group).length) := by
  obtain ⟨opening, hskip, hopening⟩ := skipGap_at h
  have hpeek := peekChar_eq_iff hopening (show Cursor.IsMark '(' by decide)
  rw [arguments?, hskip]
  simp only [Option.bind_eq_bind, Option.bind_some, rest_at hopening, groupLength_eq]
  by_cases hlist : (ahead.dropWhile isGap).head? = some '('
  · obtain ⟨list, hahead⟩ := List.head?_eq_some_iff.1 hlist
    rw [if_pos (hpeek.2 hlist), group?_of_list hahead, hahead]
    cases hlength : Lexeme.groupLength? .source ('(' :: list) with
    | none => rfl
    | some n =>
      -- the inside stops one byte short of what was measured, in front of the parenthesis
      obtain ⟨inside, behind, hlist, rfl⟩ := Lexeme.group?_split hlength
      have hopens : '(' :: list = '(' :: inside ++ [')'] ++ behind := by
        rw [hlist, List.cons_append, List.cons_append, List.append_assoc]
        rfl
      have hgroup : ('(' :: list).take (inside.length + 2) = '(' :: inside ++ [')'] := by
        rw [hopens]
        exact List.take_left' (by simp)
      have hlast : (('(' :: inside ++ [')']).drop 1).dropLast = inside := by simp
      have hbehind : ahead.drop (ahead.takeWhile isGap ++ ('(' :: inside ++ [')'])).length =
          behind := by
        have hwhole := List.takeWhile_append_dropWhile (p := isGap) (l := ahead)
        rw [hahead, hopens, ← List.append_assoc] at hwhole
        exact (congrArg (List.drop _) hwhole.symm).trans List.drop_left
      rw [hahead, hopens] at hopening
      have hplace := advance_between _ hopening
      rw [List.append_assoc, byteLength_closed] at hplace
      simp only [Option.map_some, hgroup, byteLength_closed, Nat.add_sub_cancel, hlast, hbehind]
      rw [hopens, slice?_inside]
      exact ⟨_, rfl, hplace⟩
  · rw [if_neg (mt hpeek.1 hlist), group?_of_no_list hlist]

/-- A word starts the piece it starts over characters. -/
theorem readsTo_wordPiece (stray : Option (List Char)) (table : MacroTable)
    (aside : List String) {behind : Cursor} {word list : List Char}
    (h : c.At before (word ++ list)) (hbehind : behind.At (before ++ word) list) :
    let piece := MacroExpansion.wordPiece table aside word list
    ReadsTo (wordPiece stray table aside c behind) piece.1 piece.2 := by
  have hword : ReadsTo (some (Piece.copied word, behind)) (Piece.copied word) list :=
    ⟨behind, _, rfl, hbehind⟩
  unfold wordPiece MacroExpansion.wordPiece
  simp only [since_between h hbehind, Option.bind_eq_bind, Option.bind_some]
  cases hget : table.get? (String.ofList word) with
  | none => exact hword
  | some definition =>
    simp only
    split
    · exact hword
    · cases hparameters : definition.parameters with
      | none => exact ⟨behind, _, rfl, hbehind⟩
      | some parameters =>
        have harguments := arguments?_at stray hbehind
        simp only
        cases hgroup : group? list with
        | none =>
          rw [hgroup] at harguments
          simp only [harguments, Option.bind_some]
          exact hword
        | some found =>
          obtain ⟨gap, group⟩ := found
          rw [hgroup] at harguments
          obtain ⟨last, hfound, hlast⟩ := harguments
          obtain ⟨-, after, rfl, -⟩ := group?_eq_some_iff.1 hgroup
          rw [List.drop_left, List.append_assoc] at hlast
          rw [← List.append_assoc] at h
          simp only [hfound, since_between h hlast, Option.bind_some, List.drop_left]
          exact ⟨last, _, by rw [List.append_assoc], hlast⟩

theorem readsTo_copied (h : c.At before ahead) (n : Nat) :
    ReadsTo ((copyTo stray c (c.past n)).bind fun (written, last) =>
      some (Piece.copied written, last)) (.copied (ahead.take n)) (ahead.drop n) := by
  rw [copyTo_past h]
  exact ⟨_, _, rfl, h.past n⟩

/-- The piece at a cursor is the piece that is there over characters. -/
theorem readsTo_firstPiece (stray : Option (List Char)) (table : MacroTable)
    (aside : List String) (h : c.At before (d :: others)) :
    let piece := MacroExpansion.firstPiece table aside d others
    ReadsTo (firstPiece stray table aside c) piece.1 piece.2 := by
  obtain ⟨behind, hskip, hbehind⟩ := exists_skipWord stray h
  unfold firstPiece MacroExpansion.firstPiece
  rw [isWordStart_peekChar h, hskip]
  by_cases hword : isWordChar d = true
  · have htaken : (d :: others).takeWhile isWordChar = d :: others.takeWhile isWordChar :=
      List.takeWhile_cons_of_pos hword
    have hposition : behind.position ≠ c.position := by
      rw [ne_eq, position_eq_iff h hbehind, htaken]
      exact List.cons_ne_nil _ _
    rw [← List.takeWhile_append_dropWhile (p := isWordChar) (l := d :: others)] at h
    have hpiece := readsTo_wordPiece stray table aside h hbehind
    rw [htaken, List.dropWhile_cons_of_pos hword] at hpiece
    simp only [isWordStart_of_isWordChar hword, if_true, Option.bind_eq_bind, Option.bind_some,
      if_neg hposition, if_pos hword]
    exact hpiece
  · have hposition : behind.position = c.position := by
      rw [position_eq_iff h hbehind, List.takeWhile_cons_of_neg hword]
    by_cases hstart : isWordStart d = true
    -- outside ASCII any byte looks like the start of a word, and only the character decides
    · have hascii : ¬ IsAscii d := fun hd => hword (isWordStart_ascii hd ▸ hstart)
      simp only [hstart, if_true, hposition, Option.bind_eq_bind, Option.bind_some,
        advanceChar_at h, if_neg hword, copiedLength_eq_one_of_not_isAscii hascii]
      exact readsTo_copied h 1
    · simp only [if_neg hstart, Option.bind_eq_bind, Option.bind_some, copiedEnd_at h,
        if_neg hword]
      exact readsTo_copied h _

/-- From a cursor on a text is expanded piece by piece if each of its pieces is. -/
theorem expandFrom_at (h : c.At before ahead)
    (hpieces : ∀ p ∈ pieces table aside ahead,
      p.expandAt stray table aside = some (pieceExpansion table aside p)) :
    c.expandFrom stray table aside =
      some (Expansion.join ((pieces table aside ahead).map (pieceExpansion table aside))) := by
  fun_induction pieces table aside ahead generalizing c before with
  | case1 =>
    rw [Cursor.expandFrom, h.atEnd]
    rfl
  | case2 d others ih =>
    obtain ⟨behind, taken, hfirst, hbehind⟩ := readsTo_firstPiece stray table aside h
    have hpiece := hpieces _ List.mem_cons_self
    have hothers := ih hbehind fun p hp => hpieces p (List.mem_cons_of_mem _ hp)
    rw [Cursor.expandFrom, h.atEnd, hfirst]
    simp only [List.isEmpty_cons, Bool.false_eq_true, if_false, Option.bind_eq_bind,
      Option.bind_some, hpiece, hothers]
    simp [Expansion.join]

theorem zip_prepared (arguments : List (List Char)) :
    (arguments.map cleanArgument).zip
      ((arguments.map (argumentExpansion table aside)).map Expansion.text) =
        arguments.map (prepared table aside) := by
  rw [List.map_map, List.zip_map']
  rfl

/-- The arguments of a call are expanded if each of them is. -/
theorem mapM_argumentExpansion {arguments : List (List Char)}
    (h : ∀ argument ∈ arguments, expandText stray table aside (cleanArgument argument) =
      some (expand table aside (cleanArgument argument))) :
    (arguments.mapM fun argument => expandText stray table aside (cleanArgument argument)) =
      some (arguments.map (argumentExpansion table aside)) := by
  induction arguments with
  | nil => rfl
  | cons argument arguments ih =>
    rw [List.mapM_cons, h argument List.mem_cons_self,
      ih fun other hother => h other (List.mem_cons_of_mem argument hother)]
    rfl

/-- A piece is expanded if the texts with another name set aside are, and the shorter ones. -/
theorem expandAt_eq {size : Nat} {p : Piece} (hp : Fits table aside size p)
    (hinner : ∀ macroName ∈ available table aside, ∀ text,
      expandText stray table (macroName :: aside) text =
        some (expand table (macroName :: aside) text))
    (hshorter : ∀ text, byteLength text < size →
      expandText stray table aside text = some (expand table aside text)) :
    p.expandAt stray table aside = some (pieceExpansion table aside p) := by
  cases p with
  | copied written => rw [Piece.expandAt, pieceExpansion]
  | name macroName definition =>
    rw [Piece.expandAt, pieceExpansion]
    cases definition.body with
    | none => rfl
    | some body =>
      simp only [expandFrom_ofText, hinner macroName hp]
      rw [apply_ite some]
  | call macroName definition parameters written arguments =>
    obtain ⟨hname, hsize⟩ := hp
    rw [Piece.expandAt, pieceExpansion]
    cases definition.body with
    | none => rfl
    | some body =>
      simp only
      split
      · rfl
      · rename_i henough
        split
        · rfl
        · split
          · exact hinner macroName hname body.chars
          · have hcalls : ∀ argument ∈ rawArguments definition parameters arguments,
                expandText stray table aside (cleanArgument argument) =
                  some (expand table aside (cleanArgument argument)) := by
              intro argument hargument
              have hle := byteLength_le_of_mem_rawArguments hargument
              have hclean := byteLength_cleanArgument_le argument
              exact hshorter _ (by omega)
            have hlength : parameters.length ≤ ((rawArguments definition parameters arguments).map
                (prepared table aside)).length := by
              rw [List.length_map]
              exact Nat.le_of_not_lt henough
            have hbody := CursorSubstitution.substituted_eq stray hlength body.chars
            simp only [expandFrom_ofText, mapM_argumentExpansion hcalls, zip_prepared, hbody,
              hinner macroName hname, Option.bind_eq_bind, Option.bind_some, List.flatMap_map]

/-- No slice is a stray one while a text is expanded, and the expansion ends: for a body one more
name of the table is set aside, and an argument is shorter than the text. -/
theorem expandText_eq (stray : Option (List Char)) (table : MacroTable) (aside : List String)
    (text : List Char) : expandText stray table aside text = some (expand table aside text) := by
  rw [expandText, expand_eq_join]
  refine expandFrom_at (at_ofChars text) fun p hp => ?_
  have hfits := fits_of_mem_pieces hp
  refine expandAt_eq hfits ?_ ?_
  · intro macroName hname body
    have hdeeper := length_available_lt hname
    exact expandText_eq stray table (macroName :: aside) body
  · intro argument hlt
    exact expandText_eq stray table aside argument
termination_by ((available table aside).length, byteLength text)
decreasing_by
  · exact Prod.Lex.left _ _ hdeeper
  · exact Prod.Lex.right _ hlt

end

/-- No slice is a stray one. Whatever a stray slice would read as, expanding any text, putting as
many arguments as parameters or more into any body, reading any directive and measuring any group
give what they give over characters. If a stray slice ends the reading, every slice that was taken
stands in its text (`slice_none_eq_some_iff`), and no parameter lacks its argument. -/
theorem no_stray_slice (stray : Option (List Char)) :
    (∀ (table : MacroTable) (aside : List String) (text : List Char),
      expandText stray table aside text = some (expand table aside text)) ∧
    (∀ (parameters : List Token) (arguments : List (List Char × List Char)) (body : List Char),
      parameters.length ≤ arguments.length →
        CursorSubstitution.substituted stray parameters arguments body =
          some (substituted parameters arguments body)) ∧
    (∀ directive : Token, CursorDefinition.ofDirective? stray directive =
      some (MacroDefinition.ofDirective? directive)) ∧
    ∀ (mode : Lexeme.Mode) (text : List Char), groupLength stray mode text =
      some ((Lexeme.groupLength? mode text).map fun n => byteLength (text.take n)) :=
  ⟨expandText_eq stray,
    fun _ _ body hlength => CursorSubstitution.substituted_eq stray hlength body,
    CursorDefinition.ofDirective?_eq stray, groupLength_eq stray⟩

/-- A literal without an end in front of a character of two bytes, and a parameter to quote. -/
theorem no_stray_slice_open_literal :
    let parameters : List Token := [⟨0, ⟨0, 1⟩, .word, "x"⟩]
    let arguments := [("ß".toList, "ß".toList)]
    parameters.length ≤ arguments.length ∧
      CursorSubstitution.substituted none parameters arguments "'ä # x".toList =
        some "'ä \"ß\"".toList := by
  intro parameters arguments
  have hlength : parameters.length ≤ arguments.length := by decide
  have htext : substituted parameters arguments "'ä # x".toList = "'ä \"ß\"".toList := by
    decide +kernel
  rw [← htext]
  exact ⟨hlength, (no_stray_slice none).2.1 parameters arguments "'ä # x".toList hlength⟩

end CBoundary.CursorExpansion
