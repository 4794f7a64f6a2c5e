import CBoundary.Proofs.CursorSlice
import CBoundary.Proofs.DefinitionHead

/-!
Reading a macro definition off a directive with a cursor. The name is sliced out between two places
of the cursor, and so is a parameter list, whose end is looked for in the rest of the text. Main
statement: `ofDirective?_eq`, for any directive no slice is a stray one.
-/
namespace CBoundary.CursorDefinition

open ByteExtent CharacterClass CursorScan CursorSlice MacroDefinition TextPosition

section

variable (stray : Option (List Char))

/-- Number of bytes before the first `c` of a text, if there is one. -/
def offsetOf? (c : Char) (text : List Char) : Option Nat :=
  if text.contains c then some (byteLength (text.takeWhile (· != c))) else none

/-- The place behind the word `define` and the blanks that follow it, if the directive starts with
the word and blanks follow. -/
def nameStart? (c : Cursor) : Option (Option Cursor) :=
  if peekChar c 0 = '#' then do
    let keyword := (c.advance 1).skipBlanks
    let ahead ← rest stray keyword
    if defineWord <+: ahead then
      let behind := keyword.advance defineWord.length
      some (if behind.skipBlanks.position = behind.position then none else some behind.skipBlanks)
    else some none
  else some none

/-- What is read behind the name: parameters, if an opening parenthesis follows, and the body. -/
def readBehind? (base : Nat) (name : Token) (c : Cursor) : Option (Option MacroDefinition) := do
  let ahead ← rest stray c
  if peekChar c 0 = '(' then
    match offsetOf? ')' ahead with
    | none => some none
    | some close =>
        let inside ← slice? ahead 1 close
        let (parameters, isVariadic) := readParameters (base + (c.position + 1)) inside
        let behind := c.advance (close + 1)
        let text ← rest stray behind
        let body := readBody (base + behind.position) text
        some (some ⟨name, some parameters, body, none, isVariadic⟩)
  else some (some ⟨name, none, readBody (base + c.position) ahead, none, false⟩)

/-- Reads a definition off a directive. -/
def ofDirective? (directive : Token) : Option (Option MacroDefinition) := do
  match ← nameStart? stray (Cursor.ofText directive.text) with
  | none => some none
  | some start =>
      let behind ← skipWord stray start
      let name ← slice? directive.chars start.position behind.position
      if name.isEmpty || name.head?.any Char.isDigit then some none
      else
        let base := directive.span.start
        readBehind? stray base
          ⟨0, ⟨base + start.position, base + behind.position⟩, .word, String.ofList name⟩ behind

end

section

variable {stray : Option (List Char)} {c : Cursor} {before ahead list : List Char}

/-- What is behind the word `define`, if the text starts with it. -/
def behindDefine (text : List Char) : List Char :=
  (text.dropWhile isBlank).drop defineWord.length

/-- A name starts behind the word `define` and the blanks that follow it. -/
theorem afterDefine?_sign (text : List Char) :
    afterDefine? ('#' :: text) =
      if defineWord <+: text.dropWhile isBlank ∧ (behindDefine text).takeWhile isBlank ≠ []
      then some ((behindDefine text).dropWhile isBlank) else none := by
  rw [afterDefine?, behindDefine]
  split
  · rename_i d behind hstart
    have hstarts : defineWord <+: text.dropWhile isBlank := ⟨d :: behind, hstart.symm⟩
    have hdrop : (text.dropWhile isBlank).drop defineWord.length = d :: behind := by
      rw [hstart]
      rfl
    rw [hdrop]
    by_cases hd : isBlank d = true <;> simp [hstarts, hd]
  · rename_i hstart
    rw [if_neg]
    rintro ⟨⟨behind, hbehind⟩, hgap⟩
    rw [← hbehind, List.drop_left] at hgap
    cases behind with
    | nil => exact absurd rfl hgap
    | cons d behind => exact hstart d behind hbehind.symm

/-- The word `define` is passed up to the blanks behind it. -/
theorem behindDefine_at (h : c.At before ahead) (hword : defineWord <+: ahead.dropWhile isBlank) :
    (c.skipBlanks.advance defineWord.length).At
      (before ++ ahead.takeWhile isBlank ++ defineWord) (behindDefine ahead) := by
  obtain ⟨behind, hbehind⟩ := hword
  have hkeyword := skipBlanks_between h
  rw [← hbehind] at hkeyword
  rw [behindDefine, ← hbehind, List.drop_left]
  exact advance_between defineWord hkeyword

/-- The name is found at the cursor where it is found over characters. -/
theorem nameStart?_at (stray : Option (List Char)) (h : c.At before ahead) :
    match afterDefine? ahead with
    | none => nameStart? stray c = some none
    | some atName => ∃ start taken, nameStart? stray c = some (some start) ∧
        ahead = taken ++ atName ∧ start.At (before ++ taken) atName := by
  have hsign := peekChar_eq_iff h (show Cursor.IsMark '#' by decide)
  by_cases hhead : ahead.head? = some '#'
  · obtain ⟨text, rfl⟩ := List.head?_eq_some_iff.1 hhead
    have hbehind := h.past 1
    rw [← h.advance_one (by decide), List.drop_succ_cons, List.drop_zero] at hbehind
    have hrest : rest stray (c.advance 1).skipBlanks = some (text.dropWhile isBlank) :=
      rest_at (skipBlanks_between hbehind)
    rw [afterDefine?_sign]
    by_cases hword : defineWord <+: text.dropWhile isBlank
    · have hplace := behindDefine_at hbehind hword
      have hgap := position_eq_iff hplace (skipBlanks_between hplace)
      by_cases hblank : (behindDefine text).takeWhile isBlank = []
      · simp [nameStart?, hsign.2 hhead, hrest, hword, hblank, hgap.2 hblank]
      · simp only [hword, hblank, true_and, ne_eq, not_false_eq_true, if_true]
        have hstart := skipBlanks_between hplace
        simp only [List.append_assoc] at hstart
        refine ⟨_, _, ?_, ahead_eq h hstart rfl, hstart⟩
        simp [nameStart?, hsign.2 hhead, hrest, hword, mt hgap.1 hblank]
    · simp [nameStart?, hsign.2 hhead, hrest, hword]
  · have hnone : afterDefine? ahead = none := by
      unfold afterDefine?
      split
      · exact absurd rfl hhead
      · rfl
    rw [hnone]
    exact if_neg (mt hsign.1 hhead)

/-- A list that is closed is the inside, the parenthesis, and what is behind it. -/
theorem eq_of_contains_close (h : list.contains ')' = true) :
    '(' :: list = '(' :: list.takeWhile (· != ')') ++ [')'] ++
      (list.dropWhile (· != ')')).tail := by
  have hmem : ')' ∈ list := by simpa using h
  cases hbehind : list.dropWhile (· != ')') with
  | nil =>
    have hnone : ∀ d ∈ list, (d != ')') = true := List.dropWhile_eq_nil_iff.1 hbehind
    exact absurd (hnone ')' hmem) (by decide)
  | cons d behind =>
    have hd : (d != ')') = false := by
      have hfirst := List.head?_dropWhile_not (· != ')') list
      simpa [hbehind] using hfirst
    obtain rfl : d = ')' := by simpa using hd
    rw [List.tail_cons, List.append_assoc, List.cons_append, List.singleton_append, ← hbehind,
      List.takeWhile_append_dropWhile]

/-- What is read behind the name over characters; `position` says where a suffix of the directive
starts. -/
def definitionBehind? (position : List Char → Nat) (name : Token) :
    List Char → Option MacroDefinition
  | '(' :: list =>
      if list.contains ')' then
        let (parameters, isVariadic) :=
          readParameters (position list) (list.takeWhile (· != ')'))
        let behind := (list.dropWhile (· != ')')).tail
        some ⟨name, some parameters, readBody (position behind) behind, none, isVariadic⟩
      else none
  | behind => some ⟨name, none, readBody (position behind) behind, none, false⟩

theorem definitionBehind?_of_no_list {position : List Char → Nat} {name : Token}
    (hlist : ahead.head? ≠ some '(') : definitionBehind? position name ahead =
      some ⟨name, none, readBody (position ahead) ahead, none, false⟩ := by
  unfold definitionBehind?
  split
  · exact absurd rfl hlist
  · rfl

theorem ofDirective?_eq_bind (directive : Token) :
    MacroDefinition.ofDirective? directive =
      let position (suffix : List Char) : Nat :=
        directive.span.start + (byteLength directive.chars - byteLength suffix)
      (afterDefine? directive.chars).bind fun atName =>
        let name := atName.takeWhile isWordChar
        let behind := atName.dropWhile isWordChar
        if name.isEmpty || name.head?.any Char.isDigit then none
        else definitionBehind? position
          ⟨0, ⟨position atName, position behind⟩, .word, String.ofList name⟩ behind := by
  unfold MacroDefinition.ofDirective?
  simp only [Option.bind_eq_bind]
  congr 1
  funext atName
  split
  · rfl
  · generalize atName.dropWhile isWordChar = behind
    split
    · rfl
    · rename_i hnone
      have hlist : behind.head? ≠ some '(' := by
        intro hopens
        obtain ⟨list, hlist⟩ := List.head?_eq_some_iff.1 hopens
        exact hnone list hlist
      rw [definitionBehind?_of_no_list hlist, Option.pure_def]

/-- Behind the name a cursor reads what is there over characters. -/
theorem readBehind?_at (stray : Option (List Char)) (h : c.At before ahead) (base : Nat)
    (name : Token) :
    readBehind? stray base name c =
      some (definitionBehind? (fun suffix =>
        base + (byteLength (before ++ ahead) - byteLength suffix)) name ahead) := by
  have hopen := peekChar_eq_iff h (show Cursor.IsMark '(' by decide)
  have hahead : byteLength (before ++ ahead) - byteLength ahead = c.position := by
    rw [byteLength_append, Nat.add_sub_cancel, h.position]
  rw [readBehind?, rest_at h]
  by_cases hlist : ahead.head? = some '('
  · obtain ⟨list, rfl⟩ := List.head?_eq_some_iff.1 hlist
    have hcontains : ('(' :: list).contains ')' = list.contains ')' := rfl
    simp only [Option.bind_eq_bind, Option.bind_some, hopen.2 hlist, if_true, offsetOf?, hcontains]
    by_cases hclosed : list.contains ')' = true
    · have hatList : c.position + 1 = byteLength (before ++ '(' :: list) - byteLength list := by
        have hplace := position_eq_sub (advance_between ['('] h)
        rwa [List.append_assoc] at hplace
      have hwhole := eq_of_contains_close hclosed
      rw [List.takeWhile_cons_of_pos (by decide), definitionBehind?]
      simp only [hclosed, if_true, ← hatList]
      generalize list.takeWhile (· != ')') = inside at hwhole ⊢
      generalize (list.dropWhile (· != ')')).tail = behind at hwhole ⊢
      rw [hwhole] at h ⊢
      -- behind the list the cursor stands between characters again
      have hbehind := advance_between _ h
      have hend := position_eq_sub hbehind
      rw [byteLength_closed] at hbehind hend
      rw [List.append_assoc] at hend
      simp only [slice?_inside, rest_at hbehind, Option.bind_some, hend]
    · rw [Bool.not_eq_true] at hclosed
      rw [definitionBehind?, hclosed]
      rfl
  · simp only [Option.bind_eq_bind, Option.bind_some, mt hopen.1 hlist, if_false]
    rw [definitionBehind?_of_no_list hlist, hahead]

end

/-- No slice of a directive is a stray one, whatever the directive, and what is read is the
definition. -/
theorem ofDirective?_eq (stray : Option (List Char)) (directive : Token) :
    ofDirective? stray directive = some (MacroDefinition.ofDirective? directive) := by
  have hstart := nameStart?_at stray (Cursor.at_ofText directive.text)
  have hchars : directive.text.toList = directive.chars := rfl
  rw [hchars] at hstart
  rw [ofDirective?, ofDirective?_eq_bind]
  cases hafter : afterDefine? directive.chars with
  | none =>
    rw [hafter] at hstart
    rw [hstart]
    rfl
  | some atName =>
    rw [hafter] at hstart
    obtain ⟨start, taken, hfound, htaken, hatName⟩ := hstart
    obtain ⟨behind, hskip, hbehind⟩ := exists_skipWord stray hatName
    rw [← List.takeWhile_append_dropWhile (p := isWordChar) (l := atName)] at hatName
    have hname := slice?_between hatName hbehind
    have hread := readBehind?_at stray hbehind
    rw [List.nil_append, List.append_assoc, List.takeWhile_append_dropWhile, ← htaken] at hname
    have hatStart := position_eq_sub hatName
    have hatBehind := position_eq_sub hbehind
    simp only [List.nil_append, List.append_assoc, List.takeWhile_append_dropWhile, ← htaken]
      at hread hatStart hatBehind
    simp only [hfound, hskip, hname, hread, Option.bind_eq_bind, Option.bind_some]
    rw [hatStart, hatBehind, apply_ite some]

end CBoundary.CursorDefinition
