import CBoundary.Proofs.SpacedText

/-!
A text read lexeme by lexeme. The first lexeme is a bracket group, an opening bracket that is never
closed, another lexeme, or a character that starts none; the rest of the text is read in the same
way. A lexeme takes a backslash along only together with the character that it escapes, or at the
very end of the text, so whether a quote is closed can be seen lexeme by lexeme, and so can whether
brackets are closed. Main statements: `lexeme_induction`, `closes_append` and `closable_group`.
-/
namespace CBoundary.Lexeme

open CharacterClass Extent Substitution TextPosition

/-- Reading starts with the lexeme, and `behind` is what follows it. -/
inductive Begins (mode : Mode) : TokenKind → List Char → List Char → Prop
  | group {delim : Delim} {inside behind : List Char}
      (h : group? mode delim (inside ++ delim.closer :: behind) = some (inside.length + 2)) :
      Begins mode (.group delim) (delim.opener :: (inside ++ [delim.closer])) behind
  | unclosed {delim : Delim} {behind : List Char} (h : group? mode delim behind = none) :
      Begins mode .unknown [delim.opener] behind
  | atom {c : Char} {tail behind : List Char} {kind : TokenKind}
      (hopen : Delim.ofOpener? c = none)
      (h : atom? mode c (tail ++ behind) = some (kind, tail.length + 1)) :
      Begins mode kind (c :: tail) behind
  | stuck {c : Char} {behind : List Char} (hopen : Delim.ofOpener? c = none)
      (h : atom? mode c behind = none) : Begins mode .unknown [c] behind

section Begins

variable {mode : Mode} {kind : TokenKind} {lexeme behind text : List Char}

theorem Begins.first_eq (h : Begins mode kind lexeme behind) :
    ∃ c tail, lexeme = c :: tail ∧ first mode c (tail ++ behind) = (kind, tail.length + 1) := by
  cases h with
  | @group delim inside behind h =>
    refine ⟨delim.opener, _, rfl, ?_⟩
    rw [first, Delim.ofOpener?_opener, List.append_assoc, List.singleton_append]
    simp [h]
  | @unclosed delim behind h =>
    refine ⟨delim.opener, [], rfl, ?_⟩
    rw [first, Delim.ofOpener?_opener, List.nil_append]
    simp [h]
  | atom hopen h => exact ⟨_, _, rfl, by rw [first, hopen]; simp [h]⟩
  | stuck hopen h => exact ⟨_, [], rfl, by rw [first, hopen]; simp [h]⟩

theorem Begins.ne_nil (h : Begins mode kind lexeme behind) : lexeme ≠ [] := by
  obtain ⟨c, tail, rfl, -⟩ := h.first_eq
  exact List.cons_ne_nil c tail

theorem Begins.ofChars_append (h : Begins mode kind lexeme behind) (index offset : Nat) :
    TokenStream.ofChars mode index offset (lexeme ++ behind) =
      ⟨index, ⟨offset, offset + byteLength lexeme⟩, kind, String.ofList lexeme⟩ ::
        TokenStream.ofChars mode (index + 1) (offset + byteLength lexeme) behind := by
  obtain ⟨c, tail, rfl, hfirst⟩ := h.first_eq
  exact TokenStream.ofChars_lexeme index offset hfirst

theorem exists_begins (mode : Mode) (hne : text ≠ []) :
    ∃ kind lexeme behind, text = lexeme ++ behind ∧ Begins mode kind lexeme behind := by
  obtain ⟨c, rest, rfl⟩ := List.exists_cons_of_ne_nil hne
  cases hopen : Delim.ofOpener? c with
  | some delim =>
    obtain rfl := ofOpener?_eq_some hopen
    cases hgroup : group? mode delim rest with
    | none => exact ⟨_, _, rest, rfl, .unclosed hgroup⟩
    | some n =>
      obtain ⟨inside, behind, rfl, rfl⟩ := group?_split hgroup
      exact ⟨_, _, behind, by simp, .group hgroup⟩
  | none =>
    cases hatom : atom? mode c rest with
    | none => exact ⟨_, _, rest, rfl, .stuck hopen hatom⟩
    | some found =>
      obtain ⟨kind, n⟩ := found
      obtain ⟨hpos, hle⟩ := atom?_bounds hatom
      refine ⟨kind, c :: rest.take (n - 1), rest.drop (n - 1), by simp, .atom hopen ?_⟩
      rw [List.take_append_drop, hatom, List.length_take, Nat.min_eq_left (by omega)]
      congr 2
      omega

/-- What holds of the empty text, and of a text if it holds behind its first lexeme. -/
@[elab_as_elim]
theorem lexeme_induction (mode : Mode) {motive : List Char → Prop} (nil : motive [])
    (lexeme : ∀ kind lexeme behind, Begins mode kind lexeme behind → motive behind →
      motive (lexeme ++ behind))
    (text : List Char) : motive text := by
  induction hn : text.length using Nat.strongRecOn generalizing text with
  | ind n ih =>
    by_cases hnil : text = []
    · rw [hnil]
      exact nil
    · obtain ⟨kind, first, behind, rfl, hbegins⟩ := exists_begins mode hnil
      have hpos := List.length_pos_iff.2 hbegins.ne_nil
      rw [List.length_append] at hn
      exact lexeme kind first behind hbegins (ih _ (by omega) behind rfl)

end Begins

/-- Every backslash has a character behind it that it escapes. -/
inductive Paired : List Char → Prop
  | nil : Paired []
  | plain {c : Char} {text : List Char} (hc : c ≠ '\\') (h : Paired text) : Paired (c :: text)
  | escaped (c : Char) {text : List Char} (h : Paired text) : Paired ('\\' :: c :: text)

section Paired

variable {kind : TokenKind} {c quote : Char} {lexeme behind text part : List Char}

theorem paired_of_getLast? (h : ∀ c ∈ text.getLast?, c ≠ '\\') : Paired text := by
  induction hn : text.length using Nat.strongRecOn generalizing text with
  | ind n ih =>
    match text with
    | [] => exact .nil
    | [c] => exact .plain (h c rfl) .nil
    | c :: d :: text =>
      have hrest : ∀ e ∈ (d :: text).getLast?, e ≠ '\\' := by simpa using h
      by_cases hc : c = '\\'
      · subst hc
        refine .escaped d (ih _ ?_ ?_ rfl)
        · rw [← hn, List.length_cons, List.length_cons]
          omega
        · intro e he
          refine hrest e ?_
          rw [List.getLast?_cons, he]
          rfl
      · refine .plain hc (ih _ ?_ hrest rfl)
        rw [← hn]
        simp

theorem paired_of_forall (h : ∀ c ∈ text, c ≠ '\\') : Paired text :=
  paired_of_getLast? fun c hc => h c (List.mem_of_mem_getLast? hc)

/-- A quote is closed in the part, or behind it: the part hides nothing of what is behind it. -/
theorem closes_append (hquote : IsQuote quote) (h : Paired part) :
    Closes quote (part ++ text) ↔ Closes quote part ∨ Closes quote text := by
  have hnil : ¬ Closes quote [] := fun ⟨_, _, hsplit, _⟩ => by simp at hsplit
  induction h with
  | nil => rw [List.nil_append, or_iff_right hnil]
  | @plain c part hc h ih =>
    by_cases heq : c = quote
    · subst heq
      exact iff_of_true (closes_quote c _) (.inl (closes_quote c part))
    · rw [List.cons_append, closes_ordinary heq hc, closes_ordinary heq hc]
      exact ih
  | escaped c h ih =>
    rw [List.cons_append, List.cons_append, closes_escaped hquote, closes_escaped hquote]
    exact ih

theorem ne_backslash_of_operatorOrWord? {n : Nat} (h : operatorOrWord? text = some (kind, n)) :
    ∀ c ∈ text.take n, c ≠ '\\' := by
  rcases Option.or_eq_some_iff.1 h with h | ⟨-, h⟩
  · simp only [operator?, Option.map_eq_some_iff, Prod.mk.injEq] at h
    obtain ⟨op, hop, -, rfl⟩ := h
    have hall : operators.all (fun op => op.all fun c => c != '\\') = true := by decide +kernel
    have hstarts : op.isPrefixOf text = true :=
      List.find?_some (p := fun op : List Char => op.isPrefixOf text) hop
    have hpre : op <+: text := List.isPrefixOf_iff_prefix.1 hstarts
    intro c hc
    rw [← List.prefix_iff_eq_take.1 hpre] at hc
    simpa using List.all_eq_true.1 (List.all_eq_true.1 hall op (List.mem_of_find?_eq_some hop)) c hc
  · unfold word? at h
    split at h
    · cases h
    · rename_i m hm
      obtain ⟨-, rfl⟩ := Prod.mk.inj (Option.some.inj h)
      intro c hc
      have hpre : text.takeWhile isWordChar <+: text := List.takeWhile_prefix isWordChar
      rw [← Nat.succ_eq_add_one, ← hm, ← List.prefix_iff_eq_take.1 hpre] at hc
      exact MacroExpansion.ne_of_isWordChar (List.mem_takeWhile_imp hc) (by decide)

theorem paired_concat (text : List Char) (hc : c ≠ '\\') : Paired (text ++ [c]) :=
  paired_of_getLast? (by simpa using hc)

/-- A closed literal ends in its quote, and so pairs the backslashes in it. -/
theorem paired_of_quoted (hquote : IsQuote quote)
    (h : Extent.quoted quote '\\' (text ++ behind) = some text.length) :
    Paired (quote :: text) := by
  obtain ⟨run, rest, hsplit, -, hlength⟩ := (quoted_eq_some_iff hquote.ne_escape).1 h
  rw [List.append_cons] at hsplit
  obtain ⟨rfl, -⟩ := List.append_inj hsplit (by simpa using hlength)
  exact paired_concat (quote :: run) hquote.ne_escape.symm

theorem ne_backslash_of_isBlank (h : isBlank c = true) : c ≠ '\\' := by
  rintro rfl
  cases h

/-- A run that is as long as a part covers the part. -/
theorem forall_mem_of_length_takeWhile {p : Char → Bool}
    (h : ((part ++ behind).takeWhile p).length = part.length) : ∀ c ∈ part, p c = true := by
  have hpre : (part ++ behind).takeWhile p <+: part ++ behind := List.takeWhile_prefix p
  rw [List.prefix_iff_eq_take, h, List.take_left' rfl] at hpre
  intro c hc
  rw [← hpre] at hc
  exact List.mem_takeWhile_imp hc

theorem paired_of_atom? {tail : List Char}
    (h : atom? .definitionBody c (tail ++ behind) = some (kind, tail.length + 1)) :
    Paired (c :: tail) ∨ behind = [] := by
  have hplain (hfound : operatorOrWord? (c :: (tail ++ behind)) = some (kind, tail.length + 1)) :
      Paired (c :: tail) ∨ behind = [] := by
    refine .inl (paired_of_forall fun d hd => ?_)
    refine ne_backslash_of_operatorOrWord? hfound d ?_
    rwa [List.take_succ_cons, List.take_left' rfl]
  generalize htext : tail ++ behind = text at h hplain
  unfold atom? at h
  split at h
  · -- a line comment ends in a newline, or with the text
    obtain ⟨line, rest, hsplit, hline, hcount⟩ :=
      exists_isLine (by decide : '\\' ≠ '\n') (tail ++ behind)
    rw [← htext, hcount, Option.some.injEq, Prod.mk.injEq] at h
    obtain ⟨rfl, rfl⟩ := List.append_inj hsplit (by omega)
    rcases hline with ⟨run, rfl, -⟩ | ⟨hnil, -⟩
    · rw [← List.cons_append]
      exact .inl (paired_concat _ (by decide))
    · exact .inr hnil
  · split at h
    · rename_i hpair
      obtain ⟨run, rest, rfl, -, rfl⟩ := pair_eq_some_iff.1 hpair
      simp only [Option.some.injEq, Prod.mk.injEq] at h
      have hsplit : tail ++ behind = ('*' :: (run ++ ['*', '/'])) ++ rest := by simp [htext]
      obtain ⟨rfl, -⟩ := List.append_inj hsplit (by simp; omega)
      have hends : '/' :: '*' :: (run ++ ['*', '/']) = '/' :: '*' :: (run ++ ['*']) ++ ['/'] := by
        simp
      rw [hends]
      exact .inl (paired_concat _ (by decide))
    · rename_i hpair
      exact hplain (Option.or_eq_some_iff.2 (.inl h))
  · obtain ⟨m, hm, hlength⟩ := Option.map_eq_some_iff.1 h
    obtain ⟨-, hlength⟩ := Prod.mk.inj hlength
    rw [← htext, Nat.succ.inj hlength] at hm
    exact .inl (paired_of_quoted (.inl rfl) hm)
  · obtain ⟨m, hm, hlength⟩ := Option.map_eq_some_iff.1 h
    obtain ⟨-, hlength⟩ := Prod.mk.inj hlength
    rw [← htext, Nat.succ.inj hlength] at hm
    exact .inl (paired_of_quoted (.inr rfl) hm)
  · simp only [Option.some.injEq, Prod.mk.injEq] at h
    obtain rfl := List.length_eq_zero_iff.1 (show tail.length = 0 by omega)
    exact .inl (paired_concat [] (by decide))
  · cases h
  · rename_i next rest
    simp only [Option.some.injEq, Prod.mk.injEq] at h
    obtain ⟨d, rfl⟩ := List.length_eq_one_iff.1 (show tail.length = 1 by omega)
    exact .inl (.escaped d .nil)
  · rw [if_neg (by decide)] at h
    exact hplain h
  · split at h
    · rename_i hblank
      simp only [Option.some.injEq, Prod.mk.injEq] at h
      rw [← htext] at h
      refine .inl (paired_of_forall fun d hd => ne_backslash_of_isBlank ?_)
      rcases List.mem_cons.1 hd with rfl | hd
      · exact hblank
      · have hrun : ((tail ++ behind).takeWhile isBlank).length = tail.length := by omega
        exact forall_mem_of_length_takeWhile hrun d hd
    · exact hplain h

/-- A lexeme takes a backslash along only together with what it escapes, or at the end of the
text. -/
theorem Begins.paired (h : Begins .definitionBody kind lexeme behind) :
    Paired lexeme ∨ behind = [] := by
  cases h with
  | @group delim inside behind h =>
    rw [← List.cons_append]
    exact .inl (paired_concat _ (by cases delim <;> decide))
  | @unclosed delim behind h => exact .inl (paired_concat [] (by cases delim <;> decide))
  | atom hopen h => exact paired_of_atom? h
  | @stuck c behind hopen h =>
    by_cases hc : c = '\\'
    · subst hc
      cases behind with
      | nil => exact .inr rfl
      | cons next behind => cases h
    · exact .inl (paired_concat [] hc)

end Paired

/-- The brackets are closed in the text, the first one first. -/
def Closable (closers text : List Char) : Prop :=
  ∃ n, closeGroups .definitionBody closers 0 text = some n

section Closable

variable {kind : TokenKind} {c closer : Char} {closers outer inside tail behind text : List Char}
  {delim : Delim} {seen n : Nat}

theorem closable_iff (seen : Nat) (text : List Char) :
    Closable closers text ↔ ∃ n, closeGroups .definitionBody closers seen text = some n := by
  have hadd : closeGroups .definitionBody closers (seen + 0) text =
      (closeGroups .definitionBody closers 0 text).map (seen + ·) := closeGroups_add seen
  rw [Nat.add_zero] at hadd
  simp [hadd, Closable]

/-- Once the first brackets are closed, the others are waited for. -/
theorem closeGroups_then (outer : List Char)
    (h : closeGroups .definitionBody closers seen text = some n) :
    closeGroups .definitionBody (closers ++ outer) seen text =
      closeGroups .definitionBody outer n (text.drop (n - seen)) := by
  fun_induction closeGroups .definitionBody closers seen text with
  | case1 =>
    obtain rfl := Option.some.inj h
    rw [Nat.sub_self, List.drop_zero, List.nil_append]
  | case2 => cases h
  | case3 seen top below c rest delim hdelim ih =>
    have hbounds := closeGroups_bounds h
    rw [List.cons_append, closeGroups_opener hdelim, drop_sub_cons (by simp at hbounds; omega)]
    exact ih h
  | case4 seen below c rest hdelim hclose ih =>
    have hbounds := closeGroups_bounds h
    rw [List.cons_append, closeGroups_closer hdelim hclose, if_pos rfl, drop_sub_cons (by omega)]
    exact ih h
  | case5 => cases h
  | case6 => cases h
  | case7 seen top below c rest hdelim hclose kind count hatom ih =>
    have hbounds := closeGroups_bounds h
    have hsum : n - seen = count + (n - (seen + count)) := by omega
    rw [List.cons_append, closeGroups_atom hdelim hclose hatom, hsum, ← List.drop_drop]
    exact ih h

theorem closable_nil (text : List Char) : Closable [] text :=
  ⟨0, closeGroups_nil ..⟩

theorem closable_opener (h : Delim.ofOpener? c = some delim) :
    Closable (closer :: outer) (c :: text) ↔ Closable (delim.closer :: closer :: outer) text := by
  rw [closable_iff 1 text, Closable, closeGroups_opener h]

theorem ofOpener?_of_isCloser (h : Delim.isCloser c = true) : Delim.ofOpener? c = none := by
  simp only [Delim.isCloser, Bool.or_eq_true, beq_iff_eq] at h
  rcases h with (rfl | rfl) | rfl <;> rfl

theorem closable_closer (h : Delim.isCloser c = true) :
    Closable (closer :: outer) (c :: text) ↔ c = closer ∧ Closable outer text := by
  rw [closable_iff 1 text, Closable, closeGroups_closer (ofOpener?_of_isCloser h) h]
  split
  · simp_all
  · simp_all

theorem operatorOrWord?_of_isCloser (h : Delim.isCloser c = true) (text : List Char) :
    operatorOrWord? (c :: text) = none := by
  have hword : isWordChar c = false := by
    simp only [Delim.isCloser, Bool.or_eq_true, beq_iff_eq] at h
    rcases h with (rfl | rfl) | rfl <;> rfl
  exact operatorOrWord?_eq_none (by decide +kernel) h hword text

/-- A closing bracket starts no atom. -/
theorem not_isCloser_of_atom? (h : atom? .definitionBody c text = some (kind, n)) :
    ¬ Delim.isCloser c = true := by
  intro hclose
  have hnone := operatorOrWord?_of_isCloser hclose text
  simp only [Delim.isCloser, Bool.or_eq_true, beq_iff_eq] at hclose
  rcases hclose with (rfl | rfl) | rfl <;> simp [atom?, isBlank, hnone] at h

theorem closable_atom (hopen : Delim.ofOpener? c = none)
    (hatom : atom? .definitionBody c (tail ++ behind) = some (kind, tail.length + 1)) :
    Closable (closer :: outer) (c :: tail ++ behind) ↔ Closable (closer :: outer) behind := by
  rw [closable_iff (tail.length + 1) behind, Closable, List.cons_append,
    closeGroups_atom hopen (not_isCloser_of_atom? hatom) hatom, Nat.zero_add,
    List.drop_succ_cons, List.drop_left' rfl]

theorem not_closable_stuck (hopen : Delim.ofOpener? c = none) (hclose : ¬ Delim.isCloser c = true)
    (hatom : atom? .definitionBody c text = none) : ¬ Closable (closer :: outer) (c :: text) := by
  rintro ⟨n, h⟩
  rw [closeGroups_stuck hopen hclose hatom] at h
  cases h

/-- The first bracket is closed before the others are. -/
theorem Closable.first (h : Closable (closer :: outer) text) : Closable [closer] text := by
  obtain ⟨n, h⟩ := h
  have hwhole : closeGroups .definitionBody (closer :: [] ++ outer) 0 text = some n := h
  obtain ⟨m, hfirst, -⟩ := closeGroups_stack hwhole
  exact ⟨m, hfirst⟩

theorem group?_eq_none_iff : group? .definitionBody delim text = none ↔
    ¬ Closable [delim.closer] text := by
  rw [closable_iff 1, group?, ← Option.ne_none_iff_exists', not_not]

/-- A group is passed over while brackets are waited for. -/
theorem closable_group
    (h : group? .definitionBody delim (inside ++ delim.closer :: behind) =
      some (inside.length + 2)) :
    Closable (closer :: outer) (delim.opener :: (inside ++ [delim.closer]) ++ behind) ↔
      Closable (closer :: outer) behind := by
  rw [List.cons_append, closable_opener (Delim.ofOpener?_opener delim), List.append_assoc,
    List.singleton_append, closable_iff 1]
  have hthen := closeGroups_then (closer :: outer) h
  rw [List.singleton_append] at hthen
  rw [hthen, closable_iff (inside.length + 2) behind]
  have hdrop : (inside ++ delim.closer :: behind).drop (inside.length + 2 - 1) = behind := by
    rw [List.append_cons, List.drop_left' (by simp)]
  rw [hdrop]

theorem ofOpener?_of_isBlank (h : isBlank c = true) : Delim.ofOpener? c = none := by
  simp only [isBlank, Bool.or_eq_true, beq_iff_eq] at h
  rcases h with (((rfl | rfl) | rfl) | rfl) | rfl <;> rfl

theorem atom?_of_isBlank {mode : Mode} (h : isBlank c = true) (text : List Char) :
    atom? mode c text = some (.blanks, (text.takeWhile isBlank).length + 1) := by
  simp only [isBlank, Bool.or_eq_true, beq_iff_eq] at h
  rcases h with (((rfl | rfl) | rfl) | rfl) | rfl <;> simp [atom?, isBlank, Nat.add_comm]

/-- Blanks are read together, as far as they go. -/
theorem begins_blanks {mode : Mode} (h : isBlank c = true) (text : List Char) :
    Begins mode .blanks (c :: text.takeWhile isBlank) (text.dropWhile isBlank) := by
  refine .atom (ofOpener?_of_isBlank h) ?_
  rw [List.takeWhile_append_dropWhile]
  exact atom?_of_isBlank h text

theorem closable_dropWhile (h : isBlank c = true) :
    Closable (closer :: outer) (c :: text) ↔
      Closable (closer :: outer) (text.dropWhile isBlank) := by
  have hbegins : Begins .definitionBody .blanks _ _ := begins_blanks h text
  cases hbegins with
  | atom hopen hatom =>
    have hstep : Closable (closer :: outer)
        (c :: text.takeWhile isBlank ++ text.dropWhile isBlank) ↔
          Closable (closer :: outer) (text.dropWhile isBlank) := closable_atom hopen hatom
    rwa [List.cons_append, List.takeWhile_append_dropWhile] at hstep

/-- A blank in front changes nothing. -/
theorem closable_blank (h : isBlank c = true) :
    Closable (closer :: outer) (c :: text) ↔ Closable (closer :: outer) text := by
  rw [closable_dropWhile h]
  cases text with
  | nil => rw [List.dropWhile_nil]
  | cons d text =>
    by_cases hd : isBlank d = true
    · rw [List.dropWhile_cons_of_pos hd, closable_dropWhile hd]
    · rw [List.dropWhile_cons_of_neg hd]

theorem closable_newline :
    Closable (closer :: outer) ('\n' :: text) ↔ Closable (closer :: outer) text := by
  have hatom : atom? .definitionBody '\n' ([] ++ text) = some (.newline, 0 + 1) := rfl
  exact closable_atom rfl hatom

/-- Blanks and newlines only. -/
def IsGap (text : List Char) : Prop := ∀ c ∈ text, isBlank c = true ∨ c = '\n'

theorem kind_of_operatorOrWord? (h : operatorOrWord? text = some (kind, n)) :
    kind = .punctuation ∨ kind = .word := by
  rcases Option.or_eq_some_iff.1 h with h | ⟨-, h⟩
  · obtain ⟨op, -, hop⟩ := Option.map_eq_some_iff.1 h
    exact .inl (Prod.mk.inj hop).1.symm
  · unfold word? at h
    split at h
    · cases h
    · exact .inr (Prod.mk.inj (Option.some.inj h)).1.symm

theorem isBlank_of_atom?_blanks (h : atom? .definitionBody c text = some (.blanks, n)) :
    isBlank c = true := by
  have hplain (hfound : operatorOrWord? (c :: text) = some (.blanks, n)) : isBlank c = true := by
    rcases kind_of_operatorOrWord? hfound with hkind | hkind <;> cases hkind
  unfold atom? at h
  split at h
  · cases h
  · split at h
    · cases h
    · exact hplain (Option.or_eq_some_iff.2 (.inl h))
  · obtain ⟨m, -, hm⟩ := Option.map_eq_some_iff.1 h
    cases hm
  · obtain ⟨m, -, hm⟩ := Option.map_eq_some_iff.1 h
    cases hm
  · cases h
  · cases h
  · cases h
  · rw [if_neg (by decide)] at h
    exact hplain h
  · split at h
    · assumption
    · exact hplain h

theorem isGap_of_blanks (h : Begins .definitionBody .blanks text behind) : IsGap text := by
  cases h with
  | @atom c tail behind kind hopen hatom =>
    have hc := isBlank_of_atom?_blanks hatom
    rw [atom?_of_isBlank hc, Option.some.injEq, Prod.mk.injEq] at hatom
    have hrun := forall_mem_of_length_takeWhile (Nat.succ.inj hatom.2)
    exact List.forall_mem_cons.2 ⟨.inl hc, fun d hd => .inl (hrun d hd)⟩

theorem isWhitespace_of_isGap (h : IsGap text) (hc : c ∈ text) : isWhitespace c = true := by
  rcases h c hc with hblank | rfl
  · exact isWhitespace_of_isBlank hblank
  · rfl

theorem closable_gap {gap : List Char} (h : IsGap gap) :
    Closable (closer :: outer) (gap ++ text) ↔ Closable (closer :: outer) text := by
  induction gap with
  | nil => rfl
  | cons c gap ih =>
    obtain ⟨hc, hrest⟩ := List.forall_mem_cons.1 h
    rw [List.cons_append]
    rcases hc with hc | rfl
    · rw [closable_blank hc]
      exact ih hrest
    · rw [closable_newline]
      exact ih hrest

end Closable

end CBoundary.Lexeme
