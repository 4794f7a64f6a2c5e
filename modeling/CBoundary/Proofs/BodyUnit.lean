import CBoundary.Proofs.SingleParameter

/-!
The body of a macro as substitution reads it. First it is cut into parts: literals, whole words, and
single characters between them. The parts are then put together to units: a number sign and the word
it quotes, words chained by joining operators, and parts that are copied. Substitution puts in the
place of each unit what it stands for, and does not look at it again. Main statements:
`substitute_eq` and `stands_of_mem_units`.
-/
namespace CBoundary.Substitution

open CharacterClass Extent MacroExpansion

/-- A part of a body: a literal, a word that is as long as it can be, or a single character. -/
inductive BodyPart where
  | literal (text : List Char)
  | word (word : List Char)
  | mark (c : Char)
deriving DecidableEq, Repr

namespace BodyPart

def written : BodyPart → List Char
  | literal text => text
  | word w => w
  | mark c => [c]

def isBlank : BodyPart → Bool
  | mark c => CharacterClass.isBlank c
  | _ => false

end BodyPart

/-- The character opens a literal if the literal is closed. -/
abbrev IsQuote (c : Char) : Prop := c = '"' ∨ c = '\''

/-- The parts of a body. A quote that is closed somewhere starts a literal, any other is a single
character. -/
def bodyParts : List Char → List BodyPart
  | [] => []
  | c :: rest =>
      if isWordChar c then
        .word (c :: rest.takeWhile isWordChar) :: bodyParts (rest.dropWhile isWordChar)
      else if IsQuote c then
        match Extent.quoted c '\\' rest with
        | some n => .literal (c :: rest.take n) :: bodyParts (rest.drop n)
        | none => .mark c :: bodyParts rest
      else .mark c :: bodyParts rest
termination_by body => body.length
decreasing_by
  · have := length_dropWhile_le isWordChar rest
    simp only [List.length_cons]
    omega
  · simp only [List.length_drop, List.length_cons]
    omega
  · simp
  · simp

section Parts

variable {c : Char} {word inside behind rest text : List Char} {parts : List BodyPart}

theorem IsQuote.isWordChar (h : IsQuote c) : isWordChar c = false := by
  rcases h with rfl | rfl <;> decide

theorem IsQuote.ne_escape (h : IsQuote c) : '\\' ≠ c := by
  rcases h with rfl | rfl <;> decide

theorem bodyParts_word (h : IsWord word behind) :
    bodyParts (word ++ behind) = .word word :: bodyParts behind := by
  have htake := takeWhile_of_isWord h
  have hdrop := dropWhile_of_isWord h
  obtain ⟨c, tail, rfl⟩ := List.exists_cons_of_ne_nil h.nonempty
  have hc : isWordChar c = true := h.wordChars c List.mem_cons_self
  rw [List.cons_append] at htake hdrop ⊢
  rw [List.takeWhile_cons_of_pos hc] at htake
  rw [List.dropWhile_cons_of_pos hc] at hdrop
  rw [bodyParts, if_pos hc, htake, hdrop]

theorem take_closed : (inside ++ c :: behind).take (inside.length + 1) = inside ++ [c] := by
  rw [List.append_cons]
  exact List.take_left' (by simp)

theorem drop_closed : (inside ++ c :: behind).drop (inside.length + 1) = behind := by
  rw [List.append_cons]
  exact List.drop_left' (by simp)

theorem bodyParts_literal (hquote : IsQuote c) (hinside : Passes c '\\' inside) :
    bodyParts (c :: (inside ++ c :: behind)) =
      .literal (c :: (inside ++ [c])) :: bodyParts behind := by
  have hclosed := (quoted_eq_some_iff hquote.ne_escape).2 ⟨inside, behind, rfl, hinside, rfl⟩
  rw [bodyParts, if_neg (by simp [hquote.isWordChar]), if_pos hquote, hclosed]
  simp only [take_closed, drop_closed]

theorem bodyParts_mark (hc : isWordChar c = false)
    (hopen : IsQuote c → Extent.quoted c '\\' rest = none) :
    bodyParts (c :: rest) = .mark c :: bodyParts rest := by
  rw [bodyParts, if_neg (by simp [hc])]
  by_cases hquote : IsQuote c
  · rw [if_pos hquote, hopen hquote]
  · rw [if_neg hquote]

/-- Induction on a body from its front, with one case for each kind of part. -/
@[elab_as_elim]
theorem body_induction {motive : List Char → Prop} (nil : motive [])
    (word : ∀ word behind, IsWord word behind → motive behind → motive (word ++ behind))
    (literal : ∀ quote inside behind, IsQuote quote → Passes quote '\\' inside → motive behind →
      motive (quote :: (inside ++ quote :: behind)))
    (mark : ∀ c rest, isWordChar c = false → (IsQuote c → Extent.quoted c '\\' rest = none) →
      motive rest → motive (c :: rest)) (body : List Char) : motive body := by
  induction hn : body.length using Nat.strongRecOn generalizing body with
  | ind n ih =>
    cases body with
    | nil => exact nil
    | cons c rest =>
      by_cases hc : isWordChar c = true
      · obtain ⟨w, behind, hsplit, hw⟩ := exists_isWord hc rest
        have hlength := congrArg List.length hsplit
        have hpos := List.length_pos_iff.2 hw.nonempty
        rw [List.length_append] at hlength
        rw [hsplit]
        exact word w behind hw (ih _ (by omega) behind rfl)
      · have hother : isWordChar c = false := by simpa using hc
        by_cases hliteral : IsQuote c ∧ Extent.quoted c '\\' rest ≠ none
        · obtain ⟨hquote, hclosed⟩ := hliteral
          obtain ⟨n, hclosed⟩ := Option.ne_none_iff_exists'.1 hclosed
          obtain ⟨inside, behind, rfl, hinside, -⟩ :=
            (quoted_eq_some_iff hquote.ne_escape).1 hclosed
          refine literal c inside behind hquote hinside (ih _ ?_ behind rfl)
          simp at hn
          omega
        · have hopen : IsQuote c → Extent.quoted c '\\' rest = none := by
            intro hquote
            simpa [hquote] using hliteral
          refine mark c rest hother hopen (ih _ ?_ rest rfl)
          simp at hn
          omega

/-- The parts, put together, are the body. -/
theorem flatMap_written_bodyParts (body : List Char) :
    (bodyParts body).flatMap BodyPart.written = body := by
  induction body using body_induction with
  | nil => simp [bodyParts]
  | word word behind h ih => rw [bodyParts_word h, List.flatMap_cons, ih, BodyPart.written]
  | literal quote inside behind hquote hinside ih =>
    rw [bodyParts_literal hquote hinside, List.flatMap_cons, ih]
    simp [BodyPart.written]
  | mark c rest hc hopen ih =>
    rw [bodyParts_mark hc hopen, List.flatMap_cons, ih]
    rfl

theorem eq_of_bodyParts_word (h : bodyParts text = .word word :: parts) :
    ∃ behind, text = word ++ behind ∧ IsWord word behind ∧ bodyParts behind = parts := by
  induction text using body_induction with
  | nil => simp [bodyParts] at h
  | word w behind hw =>
    rw [bodyParts_word hw] at h
    obtain ⟨hfirst, hparts⟩ := List.cons.inj h
    obtain rfl := BodyPart.word.inj hfirst
    exact ⟨behind, rfl, hw, hparts⟩
  | literal quote inside behind hquote hinside =>
    rw [bodyParts_literal hquote hinside] at h
    cases (List.cons.inj h).1
  | mark c rest hc hopen =>
    rw [bodyParts_mark hc hopen] at h
    cases (List.cons.inj h).1

theorem eq_of_bodyParts_mark (h : bodyParts text = .mark c :: parts) :
    ∃ rest, text = c :: rest ∧ bodyParts rest = parts := by
  induction text using body_induction with
  | nil => simp [bodyParts] at h
  | word w behind hw =>
    rw [bodyParts_word hw] at h
    cases (List.cons.inj h).1
  | literal quote inside behind hquote hinside =>
    rw [bodyParts_literal hquote hinside] at h
    cases (List.cons.inj h).1
  | mark d rest hd hopen =>
    rw [bodyParts_mark hd hopen] at h
    obtain ⟨hfirst, hparts⟩ := List.cons.inj h
    obtain rfl := BodyPart.mark.inj hfirst
    exact ⟨rest, rfl, hparts⟩

/-- Blanks are parts of their own. -/
theorem bodyParts_dropWhile_isBlank (text : List Char) :
    bodyParts (text.dropWhile isBlank) = (bodyParts text).dropWhile BodyPart.isBlank := by
  induction text using body_induction with
  | nil => simp [bodyParts]
  | word word behind h =>
    obtain ⟨c, tail, rfl⟩ := List.exists_cons_of_ne_nil h.nonempty
    have hblank := isBlank_of_isWordChar (h.wordChars c List.mem_cons_self)
    rw [bodyParts_word h, List.dropWhile_cons_of_neg (by simp [BodyPart.isBlank]), List.cons_append,
      List.dropWhile_cons_of_neg (by simp [hblank]), ← List.cons_append, bodyParts_word h]
  | literal quote inside behind hquote hinside =>
    have hblank : isBlank quote = false := by rcases hquote with rfl | rfl <;> decide
    rw [List.dropWhile_cons_of_neg (by simp [hblank]), bodyParts_literal hquote hinside,
      List.dropWhile_cons_of_neg (by simp [BodyPart.isBlank])]
  | mark c rest hc hopen ih =>
    rw [bodyParts_mark hc hopen]
    by_cases hblank : isBlank c = true
    · have hpart : (BodyPart.mark c).isBlank = true := hblank
      rw [List.dropWhile_cons_of_pos hblank, List.dropWhile_cons_of_pos hpart, ih]
    · have hpart : ¬ (BodyPart.mark c).isBlank = true := hblank
      rw [List.dropWhile_cons_of_neg hblank, List.dropWhile_cons_of_neg hpart,
        bodyParts_mark hc hopen]

theorem bodyParts_number_sign (rest : List Char) :
    bodyParts ('#' :: rest) = .mark '#' :: bodyParts rest :=
  bodyParts_mark (by decide) fun hquote => absurd hquote (by decide)

end Parts

/-- A joining operator with the blanks on both sides of it and the word behind it. -/
structure Join where
  front : List BodyPart
  back : List BodyPart
  word : List Char
deriving DecidableEq, Repr

def Join.parts (j : Join) : List BodyPart :=
  j.front ++ .mark '#' :: .mark '#' :: (j.back ++ [.word j.word])

/-- A joining operator at the front of some parts, if a word follows it. -/
def firstJoin? (parts : List BodyPart) : Option (Join × List BodyPart) :=
  match parts.dropWhile BodyPart.isBlank with
  | .mark '#' :: .mark '#' :: rest =>
      match rest.dropWhile BodyPart.isBlank with
      | .word w :: behind =>
          some (⟨parts.takeWhile BodyPart.isBlank, rest.takeWhile BodyPart.isBlank, w⟩, behind)
      | _ => none
  | _ => none

/-- There are only blanks around the operator. -/
def Join.Blank (j : Join) : Prop := ∀ p ∈ j.front ++ j.back, p.isBlank = true

instance (j : Join) : Decidable j.Blank :=
  inferInstanceAs (Decidable (∀ p ∈ j.front ++ j.back, p.isBlank = true))

theorem firstJoin?_eq_some_iff {parts behind : List BodyPart} {j : Join} :
    firstJoin? parts = some (j, behind) ↔ parts = j.parts ++ behind ∧ j.Blank := by
  constructor
  · intro h
    unfold firstJoin? at h
    split at h
    · rename_i rest hrest
      split at h
      · rename_i w after hafter
        obtain ⟨rfl, rfl⟩ := Prod.mk.inj (Option.some.inj h)
        have hfront := List.takeWhile_append_dropWhile (p := BodyPart.isBlank) (l := parts)
        have hback := List.takeWhile_append_dropWhile (p := BodyPart.isBlank) (l := rest)
        refine ⟨?_, ?_⟩
        · rw [hrest, ← hback, hafter] at hfront
          simpa [Join.parts] using hfront.symm
        · intro p hp
          rcases List.mem_append.1 hp with hp | hp
          · exact List.mem_takeWhile_imp hp
          · exact List.mem_takeWhile_imp hp
      · simp at h
    · simp at h
  · rintro ⟨rfl, hblank⟩
    obtain ⟨front, back, w⟩ := j
    have hsign : BodyPart.isBlank (.mark '#') = false := by decide
    have hword : BodyPart.isBlank (.word w) = false := rfl
    have hfront : ∀ p ∈ front, p.isBlank = true := fun p hp => hblank p (List.mem_append_left _ hp)
    have hback : ∀ p ∈ back, p.isBlank = true := fun p hp => hblank p (List.mem_append_right _ hp)
    simp only [firstJoin?, Join.parts, List.append_assoc, List.dropWhile_append_of_pos hfront,
      List.takeWhile_append_of_pos hfront, List.cons_append, List.dropWhile_cons, hsign,
      List.takeWhile_cons, List.dropWhile_append_of_pos hback, List.takeWhile_append_of_pos hback,
      hword, List.nil_append, List.append_nil, Bool.false_eq_true, if_false]

theorem firstJoin?_length {parts behind : List BodyPart} {j : Join}
    (h : firstJoin? parts = some (j, behind)) : behind.length < parts.length := by
  obtain ⟨rfl, -⟩ := firstJoin?_eq_some_iff.1 h
  simp only [Join.parts, List.length_append, List.length_cons]
  omega

/-- The joining operators at the front of some parts, one behind the other, and the parts behind
them. -/
def joins (parts : List BodyPart) : List Join × List BodyPart :=
  match _h : firstJoin? parts with
  | none => ([], parts)
  | some (j, behind) =>
      let more := joins behind
      (j :: more.1, more.2)
termination_by parts.length
decreasing_by exact firstJoin?_length _h

/-- What is put in the place of some parts at once. -/
inductive BodyUnit where
  /-- A number sign, blanks, and the word that is quoted. -/
  | quotation (gap : List BodyPart) (word : List Char)
  /-- A word and the words that are joined to it. -/
  | chain (first : List Char) (others : List Join)
  /-- A double number sign that joins nothing. -/
  | sign
  | copied (part : BodyPart)
deriving DecidableEq, Repr

namespace BodyUnit

def parts : BodyUnit → List BodyPart
  | quotation gap w => .mark '#' :: (gap ++ [.word w])
  | chain first others => .word first :: others.flatMap Join.parts
  | sign => [.mark '#', .mark '#']
  | copied p => [p]

/-- What the unit stands for. -/
def value (bindings : List Binding) : BodyUnit → List Char
  | quotation _ w => quoted bindings w
  | chain first [] => plain bindings first
  | chain first (j :: others) =>
      (first :: (j :: others).map Join.word).flatMap (joined bindings)
  | sign => ['#', '#']
  | copied p => p.written

/-- The unit can stand in front of `behind`. There are only blanks between its operators and words,
a chain takes in all words that are joined to it, and no word is copied as a single part. -/
def Stands (behind : List BodyPart) : BodyUnit → Prop
  | quotation gap _ => ∀ p ∈ gap, p.isBlank = true
  | chain _ others => (∀ j ∈ others, j.Blank) ∧ firstJoin? behind = none
  | sign => True
  | copied p => ∀ w, p ≠ .word w

end BodyUnit

/-- The first unit of some parts that start with `p`, and the parts behind it. -/
def firstUnit (p : BodyPart) (rest : List BodyPart) : BodyUnit × List BodyPart :=
  match p, rest with
  | .word w, _ => (.chain w (joins rest).1, (joins rest).2)
  | .mark '#', .mark '#' :: behind => (.sign, behind)
  | .mark '#', _ =>
      match rest.dropWhile BodyPart.isBlank with
      | .word w :: behind => (.quotation (rest.takeWhile BodyPart.isBlank) w, behind)
      | _ => (.copied p, rest)
  | _, _ => (.copied p, rest)

section Units

variable {p : BodyPart} {rest parts behind : List BodyPart}

theorem joins_parts (parts : List BodyPart) :
    (joins parts).1.flatMap Join.parts ++ (joins parts).2 = parts := by
  fun_induction joins parts with
  | case1 => rfl
  | case2 parts j behind h more ih =>
    rw [List.flatMap_cons, List.append_assoc, ih, (firstJoin?_eq_some_iff.1 h).1]

theorem joins_stands (parts : List BodyPart) :
    (∀ j ∈ (joins parts).1, j.Blank) ∧ firstJoin? (joins parts).2 = none := by
  fun_induction joins parts with
  | case1 parts h => exact ⟨by simp, h⟩
  | case2 parts j behind h more ih =>
    exact ⟨List.forall_mem_cons.2 ⟨(firstJoin?_eq_some_iff.1 h).2, ih.1⟩, ih.2⟩

theorem firstUnit_parts (p : BodyPart) (rest : List BodyPart) :
    (firstUnit p rest).1.parts ++ (firstUnit p rest).2 = p :: rest := by
  unfold firstUnit
  split
  · rw [BodyUnit.parts, List.cons_append, joins_parts]
  · rfl
  · have hsplit := List.takeWhile_append_dropWhile (p := BodyPart.isBlank) (l := rest)
    split
    · rename_i w behind hword
      rw [hword] at hsplit
      simpa [BodyUnit.parts] using hsplit
    · rfl
  · rfl

theorem firstUnit_stands (p : BodyPart) (rest : List BodyPart) :
    (firstUnit p rest).1.Stands (firstUnit p rest).2 := by
  unfold firstUnit
  split
  · exact joins_stands rest
  · trivial
  · split
    · exact fun p hp => List.mem_takeWhile_imp hp
    · exact fun w => by simp
  · rename_i hword _ _
    exact hword

theorem firstUnit_length (p : BodyPart) (rest : List BodyPart) :
    (firstUnit p rest).2.length ≤ rest.length := by
  have hlength := congrArg List.length (firstUnit_parts p rest)
  have hpos : 0 < (firstUnit p rest).1.parts.length := by
    cases (firstUnit p rest).1 <;> simp [BodyUnit.parts]
  rw [List.length_append, List.length_cons] at hlength
  omega

/-- The units of some parts, in order. -/
def units : List BodyPart → List BodyUnit
  | [] => []
  | p :: rest => (firstUnit p rest).1 :: units (firstUnit p rest).2
termination_by parts => parts.length
decreasing_by
  have := firstUnit_length p rest
  simp only [List.length_cons]
  omega

/-- The units take in every part once. -/
theorem flatMap_parts_units (parts : List BodyPart) :
    (units parts).flatMap BodyUnit.parts = parts := by
  fun_induction units parts with
  | case1 => rfl
  | case2 p rest ih => rw [List.flatMap_cons, ih, firstUnit_parts]

/-- Every unit stands in front of the parts of those behind it. -/
theorem stands_of_mem_units {u : BodyUnit} {before after : List BodyUnit}
    (h : units parts = before ++ u :: after) : u.Stands (after.flatMap BodyUnit.parts) := by
  fun_induction units parts generalizing before with
  | case1 => simp at h
  | case2 p rest ih =>
    cases before with
    | nil =>
      obtain ⟨rfl, rfl⟩ := List.cons.inj h
      rw [flatMap_parts_units]
      exact firstUnit_stands p rest
    | cons first before => exact ih (List.cons.inj h).2

end Units

section Substitute

variable {c : Char} {text operand rest : List Char} {p : BodyPart} {parts : List BodyPart}

/-- Words are chained over the characters as they are over the parts. -/
theorem firstJoin?_of_afterJoin? (h : afterJoin? text = some operand) :
    ∃ j, firstJoin? (bodyParts text) = some (j, bodyParts (operand.dropWhile isWordChar)) ∧
      j.word = operand.takeWhile isWordChar := by
  unfold afterJoin? at h
  split at h
  · rename_i rest hrest
    simp only [Option.ite_none_right_eq_some, Option.some.injEq] at h
    obtain ⟨hword, rfl⟩ := h
    cases hoperand : rest.dropWhile isBlank with
    | nil => simp [hoperand] at hword
    | cons c tail =>
      have hc : isWordChar c = true := by simpa [hoperand] using hword
      obtain ⟨w, behind, hsplit, hw⟩ := exists_isWord hc tail
      have hparts := bodyParts_dropWhile_isBlank text
      rw [hrest, bodyParts_number_sign, bodyParts_number_sign] at hparts
      have hbehind := bodyParts_dropWhile_isBlank rest
      rw [hoperand, hsplit, bodyParts_word hw] at hbehind
      rw [hsplit, takeWhile_of_isWord hw, dropWhile_of_isWord hw]
      exact ⟨_, by simp only [firstJoin?, ← hparts, ← hbehind]; rfl, rfl⟩
  · simp at h

theorem firstJoin?_of_afterJoin?_none (h : afterJoin? text = none) :
    firstJoin? (bodyParts text) = none := by
  cases hjoin : firstJoin? (bodyParts text) with
  | none => rfl
  | some found =>
    obtain ⟨j, behind⟩ := found
    unfold firstJoin? at hjoin
    rw [← bodyParts_dropWhile_isBlank] at hjoin
    split at hjoin
    · rename_i rest hrest
      obtain ⟨tail, htext, hrest⟩ := eq_of_bodyParts_mark hrest
      obtain ⟨tail, rfl, rfl⟩ := eq_of_bodyParts_mark hrest
      rw [← bodyParts_dropWhile_isBlank] at hjoin
      split at hjoin
      · rename_i w after hword
        obtain ⟨after, hoperand, hw, -⟩ := eq_of_bodyParts_word hword
        obtain ⟨c, tail', rfl⟩ := List.exists_cons_of_ne_nil hw.nonempty
        have hc := hw.wordChars c List.mem_cons_self
        simp [afterJoin?, htext, hoperand, hc] at h
      · simp at hjoin
    · simp at hjoin

theorem joins_of_joinChain (text : List Char) :
    (joins (bodyParts text)).1.map Join.word = (joinChain text).1 ∧
      (joins (bodyParts text)).2 = bodyParts (joinChain text).2 := by
  fun_induction joinChain text with
  | case1 text h =>
    rw [joins]
    split
    · exact ⟨rfl, rfl⟩
    · rename_i hjoin
      rw [firstJoin?_of_afterJoin?_none h] at hjoin
      simp at hjoin
  | case2 text operand h more ih =>
    obtain ⟨j, hfirst, hword⟩ := firstJoin?_of_afterJoin? h
    rw [joins]
    split
    · rename_i hnone
      rw [hfirst] at hnone
      simp at hnone
    · rename_i j' behind hjoin
      rw [hfirst] at hjoin
      obtain ⟨rfl, rfl⟩ := Prod.mk.inj (Option.some.inj hjoin)
      exact ⟨by rw [List.map_cons, ih.1, hword], ih.2⟩

theorem step_of_ne (bindings : List Binding) (hsign : c ≠ '#') :
    step bindings c rest =
      if c = '"' ∨ c = '\'' then
        match Extent.quoted c '\\' rest with
        | some n => (c :: rest.take n, rest.drop n)
        | none => ([c], rest)
      else if isWordChar c then
        match joinChain (rest.dropWhile isWordChar) with
        | ([], behind) => (plain bindings (c :: rest.takeWhile isWordChar), behind)
        | (words, behind) =>
            (((c :: rest.takeWhile isWordChar) :: words).flatMap (joined bindings), behind)
      else ([c], rest) := by
  unfold step
  split
  · exact absurd rfl hsign
  · exact ite_congr rfl (fun _ => rfl) fun _ => if_neg hsign

/-- A word takes the words along that are joined to it. -/
theorem step_word (bindings : List Binding) {tail behind : List Char}
    (hw : IsWord (c :: tail) behind) :
    step bindings c (tail ++ behind) =
      ((BodyUnit.chain (c :: tail) (joins (bodyParts behind)).1).value bindings,
        (joinChain behind).2) := by
  have hc : isWordChar c = true := hw.wordChars c List.mem_cons_self
  have htake := takeWhile_of_isWord hw
  have hdrop := dropWhile_of_isWord hw
  rw [List.cons_append, List.takeWhile_cons_of_pos hc] at htake
  rw [List.cons_append, List.dropWhile_cons_of_pos hc] at hdrop
  have hquote : ¬ (c = '"' ∨ c = '\'') := by
    rintro (rfl | rfl) <;> exact absurd hc (by decide)
  rw [step_of_ne bindings (ne_of_isWordChar hc (by decide)), if_neg hquote, if_pos hc, htake, hdrop]
  obtain ⟨hwords, -⟩ := joins_of_joinChain behind
  cases hjoins : (joins (bodyParts behind)).1 with
  | nil =>
    rw [hjoins, List.map_nil] at hwords
    split
    · rename_i behind' hchain
      rw [hchain, BodyUnit.value]
    · rename_i words behind' hne hchain
      rw [hchain] at hwords
      exact absurd hwords.symm hne
  | cons j others =>
    rw [hjoins] at hwords
    split
    · rename_i behind' hchain
      simp [hchain] at hwords
    · rename_i words behind' hne hchain
      rw [hchain] at hwords ⊢
      rw [BodyUnit.value, hwords]

/-- A literal is copied. -/
theorem step_literal (bindings : List Binding) {inside behind : List Char} (hquote : IsQuote c)
    (hinside : Passes c '\\' inside) :
    step bindings c (inside ++ c :: behind) = (c :: (inside ++ [c]), behind) := by
  have hclosed := (quoted_eq_some_iff hquote.ne_escape).2 ⟨inside, behind, rfl, hinside, rfl⟩
  have hsign : c ≠ '#' := by rcases hquote with rfl | rfl <;> decide
  rw [step_of_ne bindings hsign, if_pos hquote, hclosed]
  simp only [take_closed, drop_closed]

/-- A single character is copied. -/
theorem step_mark (bindings : List Binding) (hc : isWordChar c = false)
    (hopen : IsQuote c → Extent.quoted c '\\' rest = none) (hsign : c ≠ '#') :
    step bindings c rest = ([c], rest) := by
  rw [step_of_ne bindings hsign]
  by_cases hquote : IsQuote c
  · rw [if_pos hquote, hopen hquote]
  · rw [if_neg hquote, if_neg (by simp [hc])]

/-- A number sign quotes the word behind it, if there is one. -/
theorem step_number_sign (bindings : List Binding) (h : ∀ behind, rest ≠ '#' :: behind) :
    step bindings '#' rest =
      if (rest.dropWhile isBlank).takeWhile isWordChar = [] then (['#'], rest)
      else (quoted bindings ((rest.dropWhile isBlank).takeWhile isWordChar),
        (rest.dropWhile isBlank).dropWhile isWordChar) := by
  unfold step
  split
  · rename_i behind _
    exact absurd rfl (h behind)
  · simp [List.isEmpty_iff]

theorem firstUnit_mark (h : c ≠ '#') :
    firstUnit (.mark c) parts = (.copied (.mark c), parts) := by
  unfold firstUnit
  split <;> simp_all

theorem firstUnit_number_sign (h : ∀ behind, parts ≠ .mark '#' :: behind) :
    firstUnit (.mark '#') parts =
      match parts.dropWhile BodyPart.isBlank with
      | .word w :: behind => (.quotation (parts.takeWhile BodyPart.isBlank) w, behind)
      | _ => (.copied (.mark '#'), parts) := by
  cases parts with
  | nil => rfl
  | cons p parts =>
    cases p with
    | mark d =>
      have hd : d ≠ '#' := by
        rintro rfl
        exact h parts rfl
      unfold firstUnit
      split <;> simp_all
    | _ => rfl

theorem step_number_sign_eq (bindings : List Binding) (h : ∀ behind, rest ≠ '#' :: behind) :
    (step bindings '#' rest).1 = (firstUnit (.mark '#') (bodyParts rest)).1.value bindings ∧
      bodyParts (step bindings '#' rest).2 = (firstUnit (.mark '#') (bodyParts rest)).2 := by
  have hparts : ∀ behind, bodyParts rest ≠ .mark '#' :: behind := by
    intro behind hbehind
    obtain ⟨tail, rfl, -⟩ := eq_of_bodyParts_mark hbehind
    exact h tail rfl
  rw [step_number_sign bindings h, firstUnit_number_sign hparts, ← bodyParts_dropWhile_isBlank]
  generalize rest.dropWhile isBlank = operand
  induction operand using body_induction with
  | nil => simp [bodyParts, BodyUnit.value, BodyPart.written]
  | word w behind hw =>
    rw [takeWhile_of_isWord hw, dropWhile_of_isWord hw, if_neg hw.nonempty, bodyParts_word hw]
    exact ⟨rfl, rfl⟩
  | literal quote inside behind hquote hinside =>
    rw [List.takeWhile_cons_of_neg (by simp [hquote.isWordChar]), if_pos rfl,
      bodyParts_literal hquote hinside]
    exact ⟨rfl, rfl⟩
  | mark d behind hd hopen =>
    rw [List.takeWhile_cons_of_neg (by simp [hd]), if_pos rfl, bodyParts_mark hd hopen]
    exact ⟨rfl, rfl⟩

/-- One step of substitution takes the first unit. -/
theorem step_eq (bindings : List Binding) (h : bodyParts (c :: rest) = p :: parts) :
    (step bindings c rest).1 = (firstUnit p parts).1.value bindings ∧
      bodyParts (step bindings c rest).2 = (firstUnit p parts).2 := by
  generalize htext : c :: rest = text at h
  induction text using body_induction with
  | nil => simp at htext
  | word w behind hw =>
    obtain ⟨rfl, rfl⟩ := List.cons.inj ((bodyParts_word hw).symm.trans h)
    obtain ⟨d, tail, rfl⟩ := List.exists_cons_of_ne_nil hw.nonempty
    rw [List.cons_append] at htext
    obtain ⟨rfl, rfl⟩ := List.cons.inj htext
    rw [step_word bindings hw]
    exact ⟨rfl, (joins_of_joinChain behind).2.symm⟩
  | literal quote inside behind hquote hinside =>
    obtain ⟨rfl, rfl⟩ := List.cons.inj ((bodyParts_literal hquote hinside).symm.trans h)
    obtain ⟨rfl, rfl⟩ := List.cons.inj htext
    rw [step_literal bindings hquote hinside]
    exact ⟨rfl, rfl⟩
  | mark d rest' hd hopen =>
    obtain ⟨rfl, rfl⟩ := List.cons.inj ((bodyParts_mark hd hopen).symm.trans h)
    obtain ⟨rfl, rfl⟩ := List.cons.inj htext
    by_cases hsign : c = '#'
    · subst hsign
      by_cases hdouble : ∃ behind, rest = '#' :: behind
      · obtain ⟨behind, rfl⟩ := hdouble
        rw [bodyParts_number_sign]
        exact ⟨rfl, rfl⟩
      · exact step_number_sign_eq bindings (not_exists.1 hdouble)
    · rw [step_mark bindings hd hopen hsign, firstUnit_mark hsign]
      exact ⟨rfl, rfl⟩

/-- Substitution puts in the place of each unit what it stands for. -/
theorem substitute_eq (bindings : List Binding) (body : List Char) :
    substitute bindings body = (units (bodyParts body)).flatMap (BodyUnit.value bindings) := by
  fun_induction substitute bindings body with
  | case1 => simp [bodyParts, units]
  | case2 c rest ih =>
    cases hparts : bodyParts (c :: rest) with
    | nil =>
      have hwhole := flatMap_written_bodyParts (c :: rest)
      simp [hparts] at hwhole
    | cons p parts =>
      obtain ⟨hvalue, hbehind⟩ := step_eq bindings hparts
      rw [units, List.flatMap_cons, ih, hvalue, hbehind]

end Substitute

end CBoundary.Substitution
