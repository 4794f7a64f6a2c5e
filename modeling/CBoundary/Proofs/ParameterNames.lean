import CBoundary.Proofs.BodyUnit
import Mathlib.Data.List.Find

/-!
The names of parameters do not matter. If the words of a body that are parameters get other names,
and the parameters the same ones, then the arguments end up in the same places, whatever is written
in them. New names must not be words of the body already, so that none is taken for a parameter that
was not one. Literals are not renamed; the same quotes start and end them. Main statements:
`bodyParts_renameWords` and `substitute_renamed`.
-/
namespace CBoundary.Substitution

open CharacterClass Extent MacroExpansion

/-- A renaming that makes words out of words. -/
def KeepsWords (rename : List Char → List Char) : Prop :=
  ∀ word, IsWord word [] → IsWord (rename word) []

namespace BodyPart

def rename (rename : List Char → List Char) : BodyPart → BodyPart
  | word w => word (rename w)
  | p => p

end BodyPart

/-- The body with all its words outside literals renamed. -/
def renameWords (rename : List Char → List Char) (body : List Char) : List Char :=
  ((bodyParts body).map (BodyPart.rename rename)).flatMap BodyPart.written

section RenameWords

variable {c quote : Char} {word other inside behind rest text : List Char}
  {rename : List Char → List Char}

theorem isWord_iff : IsWord word behind ↔
    IsWord word [] ∧ ∀ c ∈ behind.head?, isWordChar c = false := by
  constructor
  · intro h
    exact ⟨⟨h.nonempty, h.wordChars, by simp⟩, h.stops⟩
  · rintro ⟨h, hstops⟩
    exact ⟨h.nonempty, h.wordChars, hstops⟩

theorem renameWords_nil : renameWords rename [] = [] := by
  simp [renameWords, bodyParts]

theorem renameWords_word (h : IsWord word behind) :
    renameWords rename (word ++ behind) = rename word ++ renameWords rename behind := by
  rw [renameWords, bodyParts_word h]
  rfl

theorem renameWords_literal (hquote : IsQuote quote) (hinside : Passes quote '\\' inside) :
    renameWords rename (quote :: (inside ++ quote :: behind)) =
      quote :: (inside ++ quote :: renameWords rename behind) := by
  rw [renameWords, bodyParts_literal hquote hinside]
  simp [BodyPart.rename, BodyPart.written, renameWords]

theorem renameWords_mark (hc : isWordChar c = false)
    (hopen : IsQuote c → Extent.quoted c '\\' rest = none) :
    renameWords rename (c :: rest) = c :: renameWords rename rest := by
  rw [renameWords, bodyParts_mark hc hopen]
  rfl

/-- Where no word starts, none does after renaming. -/
theorem head?_renameWords (h : ∀ c ∈ text.head?, isWordChar c = false) :
    (renameWords rename text).head? = text.head? := by
  induction text using body_induction with
  | nil => rw [renameWords_nil]
  | word w behind hw =>
    obtain ⟨c, tail, rfl⟩ := List.exists_cons_of_ne_nil hw.nonempty
    have hc := hw.wordChars c List.mem_cons_self
    rw [h c rfl] at hc
    exact absurd hc (by decide)
  | literal quote inside behind hquote hinside =>
    rw [renameWords_literal hquote hinside, List.head?_cons, List.head?_cons]
  | mark c rest hc hopen => rw [renameWords_mark hc hopen, List.head?_cons, List.head?_cons]

end RenameWords

/-- A quote in front of the text is closed in it. -/
def Closes (quote : Char) (text : List Char) : Prop :=
  ∃ run behind, text = run ++ quote :: behind ∧ Passes quote '\\' run

/-- The quote is closed in both texts or in neither, also if a backslash stands in front. -/
def ClosesAlike (quote : Char) (text other : List Char) : Prop :=
  (Closes quote text ↔ Closes quote other) ∧
    (Closes quote ('\\' :: text) ↔ Closes quote ('\\' :: other))

section Quotes

variable {c quote : Char} {word renamed text other : List Char}
  {rename : List Char → List Char}

theorem quoted_eq_none_iff (hquote : IsQuote quote) :
    Extent.quoted quote '\\' text = none ↔ ¬ Closes quote text := by
  rw [Option.eq_none_iff_forall_ne_some]
  constructor
  · rintro h ⟨run, behind, rfl, hrun⟩
    exact h _ ((quoted_eq_some_iff hquote.ne_escape).2 ⟨run, behind, rfl, hrun, rfl⟩)
  · intro h n hn
    obtain ⟨run, behind, rfl, hrun, -⟩ := (quoted_eq_some_iff hquote.ne_escape).1 hn
    exact h ⟨run, behind, rfl, hrun⟩

theorem closes_quote (quote : Char) (text : List Char) : Closes quote (quote :: text) :=
  ⟨[], text, rfl, .nil⟩

theorem closes_ordinary (hquote : c ≠ quote) (hescape : c ≠ '\\') :
    Closes quote (c :: text) ↔ Closes quote text := by
  constructor
  · rintro ⟨run, behind, hsplit, hrun⟩
    cases hrun with
    | nil => exact absurd (List.cons.inj hsplit).1 hquote
    | plain hstop hplain hrest => exact ⟨_, behind, (List.cons.inj hsplit).2, hrest⟩
    | escaped u hrest => exact absurd (List.cons.inj hsplit).1 hescape
  · rintro ⟨run, behind, rfl, hrun⟩
    exact ⟨c :: run, behind, rfl, hrun.plain hquote hescape⟩

theorem closes_escaped (hquote : IsQuote quote) :
    Closes quote ('\\' :: c :: text) ↔ Closes quote text := by
  constructor
  · rintro ⟨run, behind, hsplit, hrun⟩
    cases hrun with
    | nil => exact absurd (List.cons.inj hsplit).1 hquote.ne_escape
    | plain hstop hplain hrest => exact absurd (List.cons.inj hsplit).1.symm hplain
    | escaped u hrest =>
      exact ⟨_, behind, (List.cons.inj (List.cons.inj hsplit).2).2, hrest⟩
  · rintro ⟨run, behind, rfl, hrun⟩
    exact ⟨'\\' :: c :: run, behind, rfl, hrun.escaped c⟩

theorem closes_word (hquote : IsQuote quote) (h : ∀ c ∈ word, isWordChar c = true) :
    Closes quote (word ++ text) ↔ Closes quote text := by
  induction word with
  | nil => rfl
  | cons c word ih =>
    have hc := h c List.mem_cons_self
    rw [List.cons_append, closes_ordinary (ne_of_isWordChar hc hquote.isWordChar)
      (ne_of_isWordChar hc (by decide))]
    exact ih fun d hd => h d (List.mem_cons_of_mem c hd)

theorem closes_escaped_word (hquote : IsQuote quote) (h : IsWord word []) :
    Closes quote ('\\' :: (word ++ text)) ↔ Closes quote text := by
  obtain ⟨c, tail, rfl⟩ := List.exists_cons_of_ne_nil h.nonempty
  rw [List.cons_append, closes_escaped hquote]
  exact closes_word hquote fun d hd => h.wordChars d (List.mem_cons_of_mem c hd)

theorem ClosesAlike.cons (hquote : IsQuote quote) (h : ClosesAlike quote text other) (c : Char) :
    ClosesAlike quote (c :: text) (c :: other) := by
  refine ⟨?_, ?_⟩
  · by_cases hc : c = quote
    · subst hc
      exact iff_of_true (closes_quote c text) (closes_quote c other)
    · by_cases hescape : c = '\\'
      · subst hescape
        exact h.2
      · rw [closes_ordinary hc hescape, closes_ordinary hc hescape]
        exact h.1
  · rw [closes_escaped hquote, closes_escaped hquote]
    exact h.1

theorem ClosesAlike.append (hquote : IsQuote quote) (h : ClosesAlike quote text other)
    (front : List Char) : ClosesAlike quote (front ++ text) (front ++ other) := by
  induction front with
  | nil => exact h
  | cons c front ih => exact ih.cons hquote c

theorem ClosesAlike.words (hquote : IsQuote quote) (h : ClosesAlike quote text other)
    (hword : IsWord word []) (hrenamed : IsWord renamed []) :
    ClosesAlike quote (renamed ++ text) (word ++ other) := by
  refine ⟨?_, ?_⟩
  · rw [closes_word hquote hrenamed.wordChars, closes_word hquote hword.wordChars]
    exact h.1
  · rw [closes_escaped_word hquote hrenamed, closes_escaped_word hquote hword]
    exact h.1

/-- Renaming opens and closes no literal: a backslash takes along one character of a word, and no
word holds a quote. -/
theorem closesAlike_renameWords (hkeeps : KeepsWords rename) (hquote : IsQuote quote)
    (text : List Char) : ClosesAlike quote (renameWords rename text) text := by
  induction text using body_induction with
  | nil =>
    rw [renameWords_nil]
    exact ⟨Iff.rfl, Iff.rfl⟩
  | word w behind hw ih =>
    have hword := (isWord_iff.1 hw).1
    rw [renameWords_word hw]
    exact ih.words hquote hword (hkeeps w hword)
  | literal mark inside behind hmark hinside ih =>
    rw [renameWords_literal hmark hinside]
    exact ((ih.cons hquote mark).append hquote inside).cons hquote mark
  | mark c rest hc hopen ih =>
    rw [renameWords_mark hc hopen]
    exact ih.cons hquote c

/-- The parts of the renamed body are the renamed parts. -/
theorem bodyParts_renameWords (hkeeps : KeepsWords rename) (body : List Char) :
    bodyParts (renameWords rename body) = (bodyParts body).map (BodyPart.rename rename) := by
  induction body using body_induction with
  | nil => simp [renameWords_nil, bodyParts]
  | word w behind hw ih =>
    obtain ⟨hword, hstops⟩ := isWord_iff.1 hw
    have hrenamed : IsWord (rename w) (renameWords rename behind) := by
      refine isWord_iff.2 ⟨hkeeps w hword, ?_⟩
      rw [head?_renameWords hstops]
      exact hstops
    rw [renameWords_word hw, bodyParts_word hrenamed, bodyParts_word hw, ih, List.map_cons,
      BodyPart.rename]
  | literal quote inside behind hquote hinside ih =>
    rw [renameWords_literal hquote hinside, bodyParts_literal hquote hinside,
      bodyParts_literal hquote hinside, ih, List.map_cons, BodyPart.rename]
    simp
  | mark c rest hc hopen ih =>
    have hopen' : IsQuote c → Extent.quoted c '\\' (renameWords rename rest) = none := by
      intro hquote
      rw [quoted_eq_none_iff hquote, (closesAlike_renameWords hkeeps hquote rest).1,
        ← quoted_eq_none_iff hquote]
      exact hopen hquote
    rw [renameWords_mark hc hopen, bodyParts_mark hc hopen', bodyParts_mark hc hopen, ih,
      List.map_cons, BodyPart.rename]
    simp

end Quotes

def Join.rename (rename : List Char → List Char) (j : Join) : Join :=
  ⟨j.front.map (BodyPart.rename rename), j.back.map (BodyPart.rename rename), rename j.word⟩

def BodyUnit.rename (rename : List Char → List Char) : BodyUnit → BodyUnit
  | quotation gap w => quotation (gap.map (BodyPart.rename rename)) (rename w)
  | chain first others => chain (rename first) (others.map (Join.rename rename))
  | sign => sign
  | copied p => copied (p.rename rename)

section Units

variable {rename : List Char → List Char} {p : BodyPart} {rest parts : List BodyPart}

theorem isBlank_comp_rename :
    BodyPart.isBlank ∘ BodyPart.rename rename = BodyPart.isBlank := by
  funext p
  cases p <;> rfl

theorem dropWhile_isBlank_map (parts : List BodyPart) :
    (parts.map (BodyPart.rename rename)).dropWhile BodyPart.isBlank =
      (parts.dropWhile BodyPart.isBlank).map (BodyPart.rename rename) := by
  rw [List.dropWhile_map, isBlank_comp_rename]

theorem takeWhile_isBlank_map (parts : List BodyPart) :
    (parts.map (BodyPart.rename rename)).takeWhile BodyPart.isBlank =
      (parts.takeWhile BodyPart.isBlank).map (BodyPart.rename rename) := by
  rw [List.takeWhile_map, isBlank_comp_rename]

theorem rename_mark (c : Char) : (BodyPart.mark c).rename rename = .mark c := rfl

/-- Only a character is renamed to a character, and then it is the same one. -/
theorem rename_eq_mark {c : Char} (h : p.rename rename = .mark c) : p = .mark c := by
  cases p <;> simp_all [BodyPart.rename]

theorem firstJoin?_map (parts : List BodyPart) :
    firstJoin? (parts.map (BodyPart.rename rename)) = (firstJoin? parts).map fun found =>
      (found.1.rename rename, found.2.map (BodyPart.rename rename)) := by
  unfold firstJoin?
  rw [dropWhile_isBlank_map, takeWhile_isBlank_map]
  split
  · rename_i rest hrest
    obtain ⟨p, others, hparts, hp, hothers⟩ := List.map_eq_cons_iff.1 hrest
    obtain ⟨q, behind, rfl, hq, rfl⟩ := List.map_eq_cons_iff.1 hothers
    rw [hparts, rename_eq_mark hp, rename_eq_mark hq, dropWhile_isBlank_map, takeWhile_isBlank_map]
    simp only
    cases behind.dropWhile BodyPart.isBlank with
    | nil => rfl
    | cons r after => cases r <;> rfl
  · rename_i hother
    split
    · rename_i rest hrest
      exact absurd (by rw [hrest]; rfl) (hother (rest.map (BodyPart.rename rename)))
    · rfl

theorem joins_map (parts : List BodyPart) :
    joins (parts.map (BodyPart.rename rename)) =
      ((joins parts).1.map (Join.rename rename), (joins parts).2.map (BodyPart.rename rename)) := by
  fun_induction joins parts with
  | case1 parts h =>
    rw [joins]
    split
    · rfl
    · rename_i hjoin
      rw [firstJoin?_map, h] at hjoin
      simp at hjoin
  | case2 parts j behind h more ih =>
    rw [joins]
    split
    · rename_i hnone
      rw [firstJoin?_map, h] at hnone
      simp at hnone
    · rename_i j' behind' hjoin
      rw [firstJoin?_map, h] at hjoin
      obtain ⟨rfl, rfl⟩ := Prod.mk.inj (Option.some.inj hjoin)
      rw [ih]
      rfl

theorem firstUnit_map (p : BodyPart) (rest : List BodyPart) :
    firstUnit (p.rename rename) (rest.map (BodyPart.rename rename)) =
      ((firstUnit p rest).1.rename rename, (firstUnit p rest).2.map (BodyPart.rename rename)) := by
  cases p with
  | word w => simp only [BodyPart.rename, firstUnit, joins_map, BodyUnit.rename]
  | literal text => rfl
  | mark c =>
    by_cases hsign : c = '#'
    · subst hsign
      by_cases hdouble : ∃ behind, rest = .mark '#' :: behind
      · obtain ⟨behind, rfl⟩ := hdouble
        rfl
      · have hrenamed : ∀ behind, rest.map (BodyPart.rename rename) ≠ .mark '#' :: behind := by
          intro behind hbehind
          obtain ⟨q, others, rfl, hq, -⟩ := List.map_eq_cons_iff.1 hbehind
          exact hdouble ⟨others, by rw [rename_eq_mark hq]⟩
        rw [rename_mark, firstUnit_number_sign hrenamed,
          firstUnit_number_sign (not_exists.1 hdouble), dropWhile_isBlank_map,
          takeWhile_isBlank_map]
        cases rest.dropWhile BodyPart.isBlank with
        | nil => rfl
        | cons r after => cases r <;> rfl
    · rw [rename_mark, firstUnit_mark hsign, firstUnit_mark hsign]
      rfl

/-- The units of renamed parts are the renamed units. -/
theorem units_map (parts : List BodyPart) :
    units (parts.map (BodyPart.rename rename)) = (units parts).map (BodyUnit.rename rename) := by
  fun_induction units parts with
  | case1 => rw [List.map_nil, units, List.map_nil]
  | case2 p rest ih => rw [List.map_cons, units, firstUnit_map, ih, List.map_cons]

end Units

/-- The parameter under its new name. -/
def Binding.rename (rename : List Char → List Char) (b : Binding) : Binding :=
  { b with name := rename b.name }

/-- Gives a word its new name if it is a parameter. -/
def renameParameter (bindings : List Binding) (rename : List Char → List Char)
    (word : List Char) : List Char :=
  if (find? bindings word).isSome then rename word else word

section Parameters

variable {bindings : List Binding} {rename : List Char → List Char} {word : List Char}

theorem find?_isSome_iff : (find? bindings word).isSome = true ↔ ∃ b ∈ bindings, b.name = word := by
  simp [find?]

/-- Under its new name a word finds the argument that it found before, if new names do not collide
and the word is not itself the new name of something else. -/
theorem find?_rename (hdistinct : ∀ b ∈ bindings, ∀ d ∈ bindings,
      rename b.name = rename d.name → b.name = d.name)
    (hfresh : ∀ b ∈ bindings, rename b.name = word → ∃ d ∈ bindings, d.name = word) :
    find? (bindings.map (Binding.rename rename)) (renameParameter bindings rename word) =
      (find? bindings word).map (Binding.rename rename) := by
  rw [find?, List.find?_map]
  congr 1
  rw [find?]
  by_cases hparameter : ∃ d ∈ bindings, d.name = word
  · obtain ⟨d, hd, rfl⟩ := hparameter
    have hsome : (find? bindings d.name).isSome = true := find?_isSome_iff.2 ⟨d, hd, rfl⟩
    rw [renameParameter, if_pos hsome]
    refine List.find?_congr fun b hb => ?_
    have hiff : rename b.name = rename d.name ↔ b.name = d.name :=
      ⟨hdistinct b hb d hd, congrArg rename⟩
    simpa [Binding.rename] using hiff
  · have hnone : ¬ (find? bindings word).isSome = true := find?_isSome_iff.not.2 hparameter
    rw [renameParameter, if_neg hnone]
    refine List.find?_congr fun b hb => ?_
    have hleft : rename b.name ≠ word := fun h => hparameter (hfresh b hb h)
    have hright : b.name ≠ word := fun h => hparameter ⟨b, hb, h⟩
    simp [Binding.rename, hleft, hright]

/-- What is put in the place of a word does not depend on names, if the word is looked up alike. -/
theorem quoted_rename (h : find? (bindings.map (Binding.rename rename))
      (renameParameter bindings rename word) = (find? bindings word).map (Binding.rename rename)) :
    quoted (bindings.map (Binding.rename rename)) (renameParameter bindings rename word) =
      quoted bindings word := by
  rw [quoted, quoted, h, Option.map_map]
  rfl

theorem joined_rename (h : find? (bindings.map (Binding.rename rename))
      (renameParameter bindings rename word) = (find? bindings word).map (Binding.rename rename)) :
    joined (bindings.map (Binding.rename rename)) (renameParameter bindings rename word) =
      joined bindings word := by
  rw [joined, joined, h, Option.map_map]
  cases hfound : find? bindings word with
  | none => simp [renameParameter, hfound]
  | some b => rfl

theorem plain_rename (h : find? (bindings.map (Binding.rename rename))
      (renameParameter bindings rename word) = (find? bindings word).map (Binding.rename rename)) :
    plain (bindings.map (Binding.rename rename)) (renameParameter bindings rename word) =
      plain bindings word := by
  rw [plain, plain, h, Option.map_map]
  cases hfound : find? bindings word with
  | none => simp [renameParameter, hfound]
  | some b => rfl

theorem flatMap_joined_rename {words : List (List Char)} (h : ∀ word ∈ words,
      find? (bindings.map (Binding.rename rename)) (renameParameter bindings rename word) =
        (find? bindings word).map (Binding.rename rename)) :
    (words.map (renameParameter bindings rename)).flatMap
        (joined (bindings.map (Binding.rename rename))) =
      words.flatMap (joined bindings) := by
  rw [List.flatMap_map, List.flatMap_def, List.flatMap_def]
  exact congrArg List.flatten
    (List.map_congr_left fun word hword => joined_rename (h word hword))

/-- The words of a chain, in order, are parts of it. -/
theorem mem_parts_chain {first : List Char} {others : List Join}
    (h : word ∈ first :: others.map Join.word) :
    .word word ∈ (BodyUnit.chain first others).parts := by
  rcases List.mem_cons.1 h with rfl | h
  · exact List.mem_cons_self
  · obtain ⟨j, hj, rfl⟩ := List.mem_map.1 h
    refine List.mem_cons_of_mem _ (List.mem_flatMap.2 ⟨j, hj, ?_⟩)
    simp [Join.parts]

/-- A unit stands for the same if all its words are looked up alike. -/
theorem value_rename {u : BodyUnit} (hcopied : ∀ w, u ≠ .copied (.word w))
    (h : ∀ w, .word w ∈ u.parts →
      find? (bindings.map (Binding.rename rename)) (renameParameter bindings rename w) =
        (find? bindings w).map (Binding.rename rename)) :
    (u.rename (renameParameter bindings rename)).value (bindings.map (Binding.rename rename)) =
      u.value bindings := by
  cases u with
  | quotation gap w => exact quoted_rename (h w (by simp [BodyUnit.parts]))
  | chain first others =>
    cases others with
    | nil => exact plain_rename (h first (by simp [BodyUnit.parts]))
    | cons j others =>
      have hwords : ((j :: others).map (Join.rename (renameParameter bindings rename))).map
          Join.word = ((j :: others).map Join.word).map (renameParameter bindings rename) := by
        simp [Join.rename]
      have hvalue := flatMap_joined_rename fun word hword => h word (mem_parts_chain hword)
      rwa [List.map_cons, ← hwords] at hvalue
  | sign => rfl
  | copied p =>
    cases p with
    | word w => exact absurd rfl (hcopied w)
    | literal text => rfl
    | mark c => rfl

/-- Substitution does not depend on the names of the parameters. If they are given other words for
names, no two the same, then the body with its parameters renamed turns into the same text, whatever
the arguments are. New names may be old ones, but no other words of the body outside literals. -/
theorem substitute_renamed (bindings : List Binding) (rename : List Char → List Char)
    (body : List Char) (hwords : ∀ b ∈ bindings, IsWord (rename b.name) [])
    (hdistinct : ∀ b ∈ bindings, ∀ d ∈ bindings, rename b.name = rename d.name → b.name = d.name)
    (hfresh : ∀ b ∈ bindings, .word (rename b.name) ∈ bodyParts body →
      ∃ d ∈ bindings, d.name = rename b.name) :
    substitute (bindings.map (Binding.rename rename))
        (renameWords (renameParameter bindings rename) body) =
      substitute bindings body := by
  have hkeeps : KeepsWords (renameParameter bindings rename) := by
    intro word hword
    unfold renameParameter
    split
    · rename_i hparameter
      obtain ⟨b, hb, rfl⟩ := find?_isSome_iff.1 hparameter
      exact hwords b hb
    · exact hword
  have hvalues : ∀ u ∈ units (bodyParts body),
      (u.rename (renameParameter bindings rename)).value (bindings.map (Binding.rename rename)) =
        u.value bindings := by
    intro u hu
    obtain ⟨before, after, hunits⟩ := List.append_of_mem hu
    refine value_rename ?_ ?_
    · rintro w rfl
      exact stands_of_mem_units hunits w rfl
    · intro w hw
      have hmem : .word w ∈ bodyParts body := by
        rw [← flatMap_parts_units (bodyParts body)]
        exact List.mem_flatMap.2 ⟨u, hu, hw⟩
      refine find?_rename hdistinct ?_
      rintro b hb rfl
      exact hfresh b hb hmem
  rw [substitute_eq, substitute_eq, bodyParts_renameWords hkeeps, units_map, List.flatMap_map,
    List.flatMap_def, List.map_congr_left hvalues, ← List.flatMap_def]

/-- The arguments mention old and new names and both operators, and a literal holds an old name. -/
theorem names_exchanged_in_body :
    let bindings : List Binding := [⟨['x'], ['p'], "x ## q".toList⟩, ⟨['y'], "#x".toList, ['y']⟩]
    let rename (word : List Char) : List Char := if word = ['x'] then ['p'] else ['q']
    renameWords (renameParameter bindings rename) "#x x ## y \"x\" z y".toList =
        "#p p ## q \"x\" z q".toList ∧
      substitute (bindings.map (Binding.rename rename)) "#p p ## q \"x\" z q".toList =
        substitute bindings "#x x ## y \"x\" z y".toList ∧
      substitute bindings "#x x ## y \"x\" z y".toList = "\"p\" p#x \"x\" z y".toList := by
  intro bindings rename
  have hrenamed : renameWords (renameParameter bindings rename) "#x x ## y \"x\" z y".toList =
      "#p p ## q \"x\" z q".toList := by decide +kernel
  refine ⟨hrenamed, ?_, by decide +kernel⟩
  rw [← hrenamed]
  apply substitute_renamed
  · intro b hb
    have hletter : b.name = ['x'] ∨ b.name = ['y'] := by
      simp only [bindings, List.mem_cons, List.not_mem_nil, or_false] at hb
      rcases hb with rfl | rfl <;> simp
    rcases hletter with h | h <;>
      exact ⟨by simp [rename, h], by rw [h]; exact List.all_eq_true.1 (by decide), by simp⟩
  · decide +kernel
  · decide +kernel

end Parameters

end CBoundary.Substitution
