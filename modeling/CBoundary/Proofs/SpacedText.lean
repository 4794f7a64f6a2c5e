import CBoundary.Proofs.ParameterNames
import CBoundary.Proofs.Truncation
import CBoundary.Proofs.WordRuns

/-!
White space that is put into a text, or in the place of some of its characters. Nothing is found in
the new text that is not in the old one: no operator, no end of a comment, no word goes over the
white space. So what starts in a part that is left alone and ends there is found as before, even if
it looks at what follows. Main statements: `atom?_spaced`, `closeGroups_spaced` and
`atom?_spaced_eq_none`.
-/
namespace CBoundary

open CharacterClass

/-- The second text is the first with white space put in, or in the place of characters. -/
inductive Spaced : List Char → List Char → Prop
  | nil : Spaced [] []
  | keep (c : Char) {text result : List Char} (h : Spaced text result) :
      Spaced (c :: text) (c :: result)
  | put {space : Char} {text result : List Char} (hspace : isWhitespace space = true)
      (h : Spaced text result) : Spaced text (space :: result)
  | replace (c : Char) {space : Char} {text result : List Char}
      (hspace : isWhitespace space = true) (h : Spaced text result) :
      Spaced (c :: text) (space :: result)

namespace Spaced

variable {text result other result' part : List Char} {c : Char}

theorem refl (text : List Char) : Spaced text text := by
  induction text with
  | nil => exact nil
  | cons c text ih => exact ih.keep c

theorem append (h : Spaced text result) (h' : Spaced other result') :
    Spaced (text ++ other) (result ++ result') := by
  induction h with
  | nil => exact h'
  | keep c _ ih => exact ih.keep c
  | put hspace _ ih => exact ih.put hspace
  | replace c hspace _ ih => exact ih.replace c hspace

theorem front (part : List Char) (h : Spaced text result) :
    Spaced (part ++ text) (part ++ result) :=
  (refl part).append h

theorem of_space (h : ∀ c ∈ result, isWhitespace c = true) : Spaced [] result := by
  induction result with
  | nil => exact nil
  | cons c result ih =>
    obtain ⟨hc, hrest⟩ := List.forall_mem_cons.1 h
    exact (ih hrest).put hc

/-- What is not white space starts the new text only if it started the old one. -/
theorem starts_before (h : Spaced text result) (hpart : ∀ c ∈ part, isWhitespace c = false)
    (hpre : part <+: result) : part <+: text := by
  induction h generalizing part with
  | nil => exact hpre
  | keep c _ ih =>
    cases part with
    | nil => exact List.nil_prefix
    | cons d part =>
      obtain ⟨rfl, hrest⟩ := List.cons_prefix_cons.1 hpre
      exact List.cons_prefix_cons.2
        ⟨rfl, ih (fun e he => hpart e (List.mem_cons_of_mem d he)) hrest⟩
  | put hspace _ ih =>
    cases part with
    | nil => exact List.nil_prefix
    | cons d part =>
      obtain ⟨rfl, -⟩ := List.cons_prefix_cons.1 hpre
      simp [hspace] at hpart
  | replace c hspace _ ih =>
    cases part with
    | nil => exact List.nil_prefix
    | cons d part =>
      obtain ⟨rfl, -⟩ := List.cons_prefix_cons.1 hpre
      simp [hspace] at hpart

/-- What is not white space is in the new text only if it was in the old one. -/
theorem infix_of_infix (h : Spaced text result) (hpart : ∀ c ∈ part, isWhitespace c = false)
    (hin : part <:+: result) : part <:+: text := by
  induction h with
  | nil => exact hin
  | keep c h ih =>
    rcases List.infix_cons_iff.1 hin with hpre | hin
    · exact ((h.keep c).starts_before hpart hpre).isInfix
    · exact List.infix_cons (ih hin)
  | put hspace h ih =>
    rcases List.infix_cons_iff.1 hin with hpre | hin
    · exact ((h.put hspace).starts_before hpart hpre).isInfix
    · exact ih hin
  | replace c hspace h ih =>
    rcases List.infix_cons_iff.1 hin with hpre | hin
    · exact ((h.replace c hspace).starts_before hpart hpre).isInfix
    · exact List.infix_cons (ih hin)

/-- A text that starts with something else than white space started with it before. -/
theorem exists_of_cons (h : Spaced text (c :: result)) (hc : isWhitespace c = false) :
    ∃ rest, text = c :: rest ∧ Spaced rest result := by
  cases h with
  | keep _ h => exact ⟨_, rfl, h⟩
  | put hspace _ => simp [hspace] at hc
  | replace _ hspace _ => simp [hspace] at hc

/-- A run without white space that ends before the old text does not go on in the new one. -/
theorem takeWhile_eq_nil {p : Char → Bool} (h : Spaced text result)
    (hp : ∀ c, isWhitespace c = true → p c = false) (htext : text.takeWhile p = []) :
    result.takeWhile p = [] := by
  cases h with
  | nil => rfl
  | keep c _ =>
    cases hc : p c with
    | false => simp [hc]
    | true => simp [hc] at htext
  | put hspace _ => simp [hp _ hspace]
  | replace _ hspace _ => simp [hp _ hspace]

end Spaced

namespace Extent

variable {α : Type} [DecidableEq α] {inside behind : List α} {n : Nat}

/-- A literal that is closed in a text is closed there, whatever follows the text. -/
theorem quoted_extend {quote escape : α} (hne : escape ≠ quote)
    (h : quoted quote escape inside = some n) (behind : List α) :
    quoted quote escape (inside ++ behind) = some n := by
  obtain ⟨run, rest, rfl, hrun, rfl⟩ := (quoted_eq_some_iff hne).1 h
  exact (quoted_eq_some_iff hne).2 ⟨run, rest ++ behind, by simp, hrun, rfl⟩

theorem pair_extend {first second : α} (h : pair first second inside = some n)
    (behind : List α) : pair first second (inside ++ behind) = some n := by
  obtain ⟨run, rest, rfl, hrun, rfl⟩ := pair_eq_some_iff.1 h
  exact pair_eq_some_iff.2 ⟨run, rest ++ behind, by simp, hrun, rfl⟩

/-- A line that is over before the text is, is over there, whatever follows. -/
theorem line_extend {newline escape : α} (hne : escape ≠ newline)
    (h : line newline escape (inside ++ behind) < inside.length) (other : List α) :
    line newline escape (inside ++ other) = line newline escape (inside ++ behind) := by
  obtain ⟨taken, rest, hsplit, hline, hcount⟩ := exists_isLine hne (inside ++ behind)
  rw [hcount] at h ⊢
  obtain ⟨between, rfl, rfl⟩ := exists_between hsplit (Nat.le_of_lt h)
  have hover : IsLine newline escape taken (between ++ other) := by
    rcases hline with hrun | ⟨hnil, -⟩
    · exact .inl hrun
    · rw [(List.append_eq_nil_iff.1 hnil).1, List.append_nil] at h
      omega
  rw [List.append_assoc, hover.line_eq hne]

theorem not_infix_of_pair_go {first second : α} {seen : Nat} {units : List α}
    (h : pair.go first second seen units = none) : ¬ [first, second] <:+: units := by
  fun_induction pair.go first second seen units with
  | case1 => exact fun hin => absurd hin.length_le (by simp)
  | case2 => exact fun hin => absurd hin.length_le (by simp)
  | case3 => simp at h
  | case4 seen u next rest hpair ih =>
    rw [List.infix_cons_iff, not_or]
    refine ⟨fun hpre => hpair ?_, ih h⟩
    obtain ⟨hfirst, hrest⟩ := List.cons_prefix_cons.1 hpre
    exact ⟨hfirst.symm, (List.cons_prefix_cons.1 hrest).1.symm⟩

/-- No pair is found just if none stands in the text. -/
theorem pair_eq_none_iff {first second : α} {units : List α} :
    pair first second units = none ↔ ¬ [first, second] <:+: units := by
  refine ⟨not_infix_of_pair_go, fun h => Option.eq_none_iff_forall_ne_some.2 fun n hn => h ?_⟩
  obtain ⟨run, rest, rfl, -, -⟩ := pair_eq_some_iff.1 hn
  exact ⟨run, rest, by simp⟩

end Extent

namespace Lexeme

open Extent

variable {c : Char} {inside behind result text : List Char} {kind : TokenKind} {n : Nat}

theorem isWhitespace_of_mem_operators {op : List Char} (hop : op ∈ operators) :
    ∀ c ∈ op, isWhitespace c = false := by
  have hall : operators.all (fun op => op.all fun c => !isWhitespace c) = true := by
    decide +kernel
  intro c hc
  simpa using List.all_eq_true.1 (List.all_eq_true.1 hall op hop) c hc

/-- An operator is found again in front of more white space. -/
theorem operator?_spaced (h : Spaced behind result)
    (hop : operator? (inside ++ behind) = some (kind, n)) (hn : n ≤ inside.length) :
    operator? (inside ++ result) = some (kind, n) := by
  simp only [operator?, Option.map_eq_some_iff, Prod.mk.injEq] at hop ⊢
  obtain ⟨op, hop, hkind, rfl⟩ := hop
  refine ⟨op, ?_, hkind, rfl⟩
  obtain ⟨hstarts, earlier, later, hsplit, hnone⟩ := List.find?_eq_some_iff_append.1 hop
  refine List.find?_eq_some_iff_append.2 ⟨?_, earlier, later, hsplit, ?_⟩
  · rw [List.isPrefixOf_iff_prefix] at hstarts ⊢
    have hinside := List.prefix_of_prefix_length_le hstarts (List.prefix_append inside behind) hn
    exact hinside.trans (List.prefix_append inside result)
  · intro longer hlonger
    have hmem : longer ∈ operators := hsplit ▸ List.mem_append_left _ hlonger
    have hother := hnone longer hlonger
    simp only [Bool.not_eq_true', ← Bool.not_eq_true, List.isPrefixOf_iff_prefix] at hother ⊢
    exact fun hpre =>
      hother ((h.front inside).starts_before (isWhitespace_of_mem_operators hmem) hpre)

theorem operator?_spaced_eq_none (h : Spaced text result) (hop : operator? text = none) :
    operator? result = none := by
  simp only [operator?, Option.map_eq_none_iff, List.find?_eq_none,
    List.isPrefixOf_iff_prefix] at hop ⊢
  exact fun op hmem hpre =>
    hop op hmem (h.starts_before (isWhitespace_of_mem_operators hmem) hpre)

/-- A run without white space is as long as before. -/
theorem takeWhile_spaced {p : Char → Bool} (h : Spaced behind result)
    (hp : ∀ c, isWhitespace c = true → p c = false)
    (hrun : ((inside ++ behind).takeWhile p).length ≤ inside.length) :
    (inside ++ result).takeWhile p = (inside ++ behind).takeWhile p := by
  rw [List.takeWhile_append] at hrun ⊢
  rw [List.takeWhile_append]
  split at hrun
  · rename_i hall
    rw [List.length_append] at hrun
    have hnil : behind.takeWhile p = [] := List.length_eq_zero_iff.1 (by omega)
    rw [if_pos hall, if_pos hall, hnil, h.takeWhile_eq_nil hp hnil]
  · rename_i hsome
    rw [if_neg hsome, if_neg hsome]

theorem word?_spaced (h : Spaced behind result) (hword : word? (inside ++ behind) = some (kind, n))
    (hn : n ≤ inside.length) : word? (inside ++ result) = some (kind, n) := by
  have hlength : ((inside ++ behind).takeWhile isWordChar).length ≤ inside.length := by
    unfold word? at hword
    split at hword
    · simp at hword
    · rename_i m hm
      simp only [Option.some.injEq, Prod.mk.injEq] at hword
      omega
  have hspace (c : Char) (hc : isWhitespace c = true) : isWordChar c = false :=
    MacroExpansion.isWordChar_of_isWhitespace hc
  rw [word?, takeWhile_spaced h hspace hlength]
  exact hword

theorem operatorOrWord?_spaced (h : Spaced behind result)
    (hfound : operatorOrWord? (inside ++ behind) = some (kind, n)) (hn : n ≤ inside.length) :
    operatorOrWord? (inside ++ result) = some (kind, n) := by
  rcases Option.or_eq_some_iff.1 hfound with hop | ⟨hnone, hword⟩
  · exact Option.or_eq_some_iff.2 (.inl (operator?_spaced h hop hn))
  · exact Option.or_eq_some_iff.2
      (.inr ⟨operator?_spaced_eq_none (h.front inside) hnone, word?_spaced h hword hn⟩)

theorem operatorOrWord?_spaced_eq_none (h : Spaced behind result)
    (hnone : operatorOrWord? (c :: behind) = none) : operatorOrWord? (c :: result) = none := by
  obtain ⟨hop, hword⟩ := Option.or_eq_none_iff.1 hnone
  refine Option.or_eq_none_iff.2 ⟨operator?_spaced_eq_none (h.keep c) hop, ?_⟩
  have hc : ¬ isWordChar c = true := by
    intro hc
    simp [word?, List.takeWhile_cons_of_pos hc] at hword
  simp [word?, List.takeWhile_cons_of_neg hc]

/-- A run that ends before the text does, ends there whatever follows. -/
theorem takeWhile_extend {p : Char → Bool} (other : List Char)
    (hrun : ((inside ++ behind).takeWhile p).length < inside.length) :
    (inside ++ other).takeWhile p = (inside ++ behind).takeWhile p := by
  have hpart := takeWhile_append_of_length_le (Nat.le_of_lt hrun)
  rw [← hpart] at hrun ⊢
  rw [List.takeWhile_append, if_neg (Nat.ne_of_lt hrun)]

/-- Behind a slash, the text makes a comment. -/
def OpensComment (rest : List Char) : Prop :=
  (∃ tail, rest = '/' :: tail) ∨ ∃ tail n, rest = '*' :: tail ∧ Extent.pair '*' '/' tail = some n

theorem OpensComment.of_spaced (h : Spaced text result) (hopens : OpensComment result) :
    OpensComment text := by
  rcases hopens with ⟨tail, rfl⟩ | ⟨tail, n, rfl, hpair⟩
  · obtain ⟨rest, rfl, -⟩ := h.exists_of_cons (by decide)
    exact .inl ⟨rest, rfl⟩
  · obtain ⟨rest, rfl, hrest⟩ := h.exists_of_cons (by decide)
    obtain ⟨run, behind, rfl, -, -⟩ := pair_eq_some_iff.1 hpair
    have hin : ['*', '/'] <:+: rest :=
      hrest.infix_of_infix (by simp [isWhitespace]) ⟨run, behind, by simp⟩
    cases hfound : Extent.pair '*' '/' rest with
    | none => exact absurd hin (pair_eq_none_iff.1 hfound)
    | some m => exact .inr ⟨rest, m, rfl, hfound⟩

theorem operator?_ne_none {op : List Char} (hop : op ∈ operators) (rest : List Char) :
    operator? (op ++ rest) ≠ none := by
  simp only [operator?, ne_eq, Option.map_eq_none_iff, List.find?_eq_none,
    List.isPrefixOf_iff_prefix, not_forall, not_not]
  exact ⟨op, hop, List.prefix_append op rest⟩

theorem slash_mem_operators : ['/'] ∈ operators := by
  decide +kernel

/-- A slash that opens no comment is an operator. -/
theorem atom?_slash_eq (hno : ¬ OpensComment text) :
    atom? .definitionBody '/' text = operatorOrWord? ('/' :: text) := by
  by_cases hblock : ∃ tail, text = '*' :: tail
  · obtain ⟨tail, rfl⟩ := hblock
    have hpair : Extent.pair '*' '/' tail = none :=
      Option.eq_none_iff_forall_ne_some.2 fun n hn => hno (.inr ⟨tail, n, rfl, hn⟩)
    obtain ⟨found, hfound⟩ := Option.ne_none_iff_exists'.1
      (operator?_ne_none slash_mem_operators ('*' :: tail))
    rw [List.singleton_append] at hfound
    simp only [atom?, hpair, operatorOrWord?, hfound, Option.some_or]
  · exact atom?_default (by decide) (by decide) (by decide) (by decide) (by decide)
      (fun tail _ h => hno (.inl ⟨tail, h⟩)) fun tail _ h => hblock ⟨tail, h⟩

theorem atom?_slash_spaced (h : Spaced behind result)
    (hatom : atom? .definitionBody '/' (inside ++ behind) = some (kind, n))
    (hn : n ≤ inside.length + 1)
    (hover : kind = .blanks ∨ kind = .lineComment → n ≤ inside.length) :
    atom? .definitionBody '/' (inside ++ result) = some (kind, n) := by
  by_cases hopens : OpensComment (inside ++ behind)
  · rcases hopens with ⟨tail, htail⟩ | ⟨tail, m, htail, hpair⟩
    · simp only [htail, atom?, Option.some.injEq, Prod.mk.injEq] at hatom
      obtain ⟨rfl, rfl⟩ := hatom
      have hinside := hover (.inr rfl)
      rw [← htail] at hinside ⊢
      have hline : Extent.line '\n' '\\' (inside ++ behind) < inside.length := by omega
      rw [← line_extend (by decide) hline result]
      cases inside with
      | nil => simp at hline
      | cons c inside =>
        obtain ⟨rfl, -⟩ := List.cons.inj htail
        rfl
    · simp only [htail, atom?, hpair, Option.some.injEq, Prod.mk.injEq] at hatom
      obtain ⟨rfl, rfl⟩ := hatom
      have hbounds := pair_bounds hpair
      cases inside with
      | nil =>
        rw [List.length_nil] at hn
        omega
      | cons c inside =>
        obtain ⟨rfl, rfl⟩ := List.cons.inj htail
        rw [List.length_cons] at hn
        have hfound := pair_extend (pair_append hpair (by omega)) result
        simp only [List.cons_append, atom?, hfound]
  · have hplain : ¬ OpensComment (inside ++ result) :=
      fun hopens' => hopens (hopens'.of_spaced (h.front inside))
    rw [atom?_slash_eq hopens] at hatom
    rw [atom?_slash_eq hplain]
    have hwhole : operatorOrWord? (('/' :: inside) ++ behind) = some (kind, n) := hatom
    exact operatorOrWord?_spaced h hwhole hn

/-- An atom is found again in front of more white space, unless it may take the space along. -/
theorem atom?_spaced (h : Spaced behind result)
    (hatom : atom? .definitionBody c (inside ++ behind) = some (kind, n))
    (hn : n ≤ inside.length + 1)
    (hover : kind = .blanks ∨ kind = .lineComment → n ≤ inside.length) :
    atom? .definitionBody c (inside ++ result) = some (kind, n) := by
  by_cases hslash : c = '/'
  · subst hslash
    exact atom?_slash_spaced h hatom hn hover
  · by_cases hescape : c = '\\'
    · subst hescape
      cases inside with
      | nil =>
        cases behind with
        | nil => simp [atom?] at hatom
        | cons next behind =>
          simp only [List.nil_append, atom?, Option.some.injEq, Prod.mk.injEq] at hatom
          simp only [List.length_nil] at hn
          omega
      | cons next inside => exact hatom
    · unfold atom? at hatom
      split at hatom
      · exact absurd rfl hslash
      · exact absurd rfl hslash
      · simp only [atom?, Option.map_eq_some_iff, Prod.mk.injEq] at hatom ⊢
        obtain ⟨m, hm, rfl, rfl⟩ := hatom
        exact ⟨m, quoted_extend (by decide) (quoted_append (by decide) hm (by omega)) result,
          rfl, rfl⟩
      · simp only [atom?, Option.map_eq_some_iff, Prod.mk.injEq] at hatom ⊢
        obtain ⟨m, hm, rfl, rfl⟩ := hatom
        exact ⟨m, quoted_extend (by decide) (quoted_append (by decide) hm (by omega)) result,
          rfl, rfl⟩
      · exact hatom
      · exact absurd rfl hescape
      · exact absurd rfl hescape
      · rw [if_neg (by decide)] at hatom
        have hwhole : operatorOrWord? (('#' :: inside) ++ behind) = some (kind, n) := hatom
        exact operatorOrWord?_spaced h hwhole hn
      · rename_i first _ _ hdouble hsingle hnewline hnumber _ _ _ _
        rw [atom?_default hdouble hsingle hnewline hnumber hescape
          (fun _ hfirst _ => hslash hfirst) fun _ hfirst _ => hslash hfirst]
        split at hatom
        · rename_i hblank
          obtain ⟨rfl, rfl⟩ := Prod.mk.inj (Option.some.inj hatom)
          have hinside := hover (.inl rfl)
          have hrun : ((inside ++ behind).takeWhile isBlank).length < inside.length := by omega
          rw [if_pos hblank, takeWhile_extend result hrun]
        · rename_i hblank
          rw [if_neg hblank]
          have hwhole : operatorOrWord? ((first :: inside) ++ behind) = some (kind, n) := hatom
          exact operatorOrWord?_spaced h hwhole hn

/-- What starts no atom starts none in front of more white space, if the space closes no quote. -/
theorem atom?_spaced_eq_none (h : Spaced text result) (hatom : atom? .definitionBody c text = none)
    (hquotes : ∀ quote, Substitution.IsQuote quote → Substitution.Closes quote result →
      Substitution.Closes quote text)
    (hend : c = '\\' → text = [] → result = []) : atom? .definitionBody c result = none := by
  have hquote (quote : Char) (hquote : Substitution.IsQuote quote)
      (hnone : Extent.quoted quote '\\' text = none) :
      Extent.quoted quote '\\' result = none := by
    rw [Substitution.quoted_eq_none_iff hquote] at hnone ⊢
    exact fun hcloses => hnone (hquotes quote hquote hcloses)
  unfold atom? at hatom
  split at hatom
  · cases hatom
  · split at hatom
    · cases hatom
    · exact absurd hatom (operator?_ne_none slash_mem_operators _)
  · simp only [atom?, Option.map_eq_none_iff] at hatom ⊢
    exact hquote _ (.inl rfl) hatom
  · simp only [atom?, Option.map_eq_none_iff] at hatom ⊢
    exact hquote _ (.inr rfl) hatom
  · cases hatom
  · rw [hend rfl rfl]
    rfl
  · cases hatom
  · rw [if_neg (by decide)] at hatom
    exact operatorOrWord?_spaced_eq_none h hatom
  · rename_i hdouble hsingle hnewline hnumber _ _ hnil hcons
    have hescape : c ≠ '\\' := by
      intro hescape
      cases text with
      | nil => exact hnil hescape rfl
      | cons next rest => exact hcons next rest hescape rfl
    split at hatom
    · cases hatom
    · rename_i hblank
      by_cases hslash : c = '/'
      · subst hslash
        obtain ⟨hop, -⟩ := Option.or_eq_none_iff.1 hatom
        exact absurd hop (operator?_ne_none slash_mem_operators text)
      · rw [atom?_default hdouble hsingle hnewline hnumber hescape
          (fun _ hfirst _ => hslash hfirst) fun _ hfirst _ => hslash hfirst, if_neg hblank]
        exact operatorOrWord?_spaced_eq_none h hatom

/-- Groups that are closed inside a part are closed there, in front of more white space, too. -/
theorem closeGroups_spaced {closers : List Char} {seen : Nat} (h : Spaced behind result)
    (hclose : closeGroups .definitionBody closers seen (inside ++ behind) = some n)
    (hn : n ≤ seen + inside.length) :
    closeGroups .definitionBody closers seen (inside ++ result) = some n := by
  generalize htext : inside ++ behind = text at hclose
  fun_induction closeGroups .definitionBody closers seen text generalizing inside with
  | case1 => rw [closeGroups_nil, hclose]
  | case2 => cases hclose
  | case3 seen top below c rest delim hdelim ih =>
    have hbounds := closeGroups_bounds hclose
    rcases List.append_eq_cons_iff.1 htext with ⟨rfl, -⟩ | ⟨inside, rfl, rfl⟩
    · simp only [List.length_nil] at hn
      omega
    · rw [List.cons_append, closeGroups_opener hdelim]
      exact ih (by simp only [List.length_cons] at hn; omega) rfl hclose
  | case4 seen below c rest hdelim hcloser ih =>
    have hbounds := closeGroups_bounds hclose
    rcases List.append_eq_cons_iff.1 htext with ⟨rfl, -⟩ | ⟨inside, rfl, rfl⟩
    · simp only [List.length_nil] at hn
      omega
    · rw [List.cons_append, closeGroups_closer hdelim hcloser, if_pos rfl]
      exact ih (by simp only [List.length_cons] at hn; omega) rfl hclose
  | case5 => cases hclose
  | case6 => cases hclose
  | case7 seen top below c rest hdelim hcloser kind count hatom ih =>
    -- a bracket is still waited for, so the atom ends before the part does
    have hbounds := closeGroups_bounds hclose
    have hpos := (atom?_bounds hatom).1
    rw [List.length_cons] at hbounds
    rcases List.append_eq_cons_iff.1 htext with ⟨rfl, -⟩ | ⟨inside, rfl, rfl⟩
    · simp only [List.length_nil] at hn
      omega
    · rw [List.length_cons] at hn
      have hcount : count ≤ inside.length := by omega
      have hspaced := atom?_spaced h hatom (Nat.le_succ_of_le hcount) fun _ => hcount
      have hdrop (other : List Char) :
          (c :: inside).drop count ++ other = (c :: (inside ++ other)).drop count := by
        rw [← List.cons_append, List.drop_append_of_le_length]
        rw [List.length_cons]
        omega
      rw [List.cons_append, closeGroups_atom hdelim hcloser hspaced, ← hdrop]
      refine ih ?_ (hdrop behind) hclose
      simp only [List.length_drop, List.length_cons]
      omega

theorem group?_spaced {delim : Delim} (h : Spaced behind result)
    (hgroup : group? .definitionBody delim (inside ++ behind) = some n)
    (hn : n ≤ inside.length + 1) :
    group? .definitionBody delim (inside ++ result) = some n :=
  closeGroups_spaced h hgroup (by omega)

end Lexeme

end CBoundary
