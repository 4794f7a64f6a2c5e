import CBoundary.Proofs.Delimited
import CBoundary.Proofs.TokenPlacement

/-!
Reading a text that was cut off. What is found at the start of a text and ends inside a part of it
is found at the start of that part too: nothing that is read looks past its own end, except to see
that it ends there, and a longer reading would have been found in the whole text as well. The
closing brackets that a group waits for are closed one after the other, so a group inside another
one ends where it would end alone. Main statements: `atom?_append`, `closeGroups_stack` and
`closeGroups_append`.
-/
namespace CBoundary

namespace Extent

variable {α : Type} {inside behind taken rest : List α} {n : Nat}

/-- A part of a text starts with what the text starts with, if it is long enough. -/
theorem exists_between (h : inside ++ behind = taken ++ rest)
    (hle : taken.length ≤ inside.length) :
    ∃ between, inside = taken ++ between ∧ rest = between ++ behind := by
  obtain ⟨between, rfl⟩ := List.prefix_of_prefix_length_le ⟨rest, h.symm⟩ ⟨behind, rfl⟩ hle
  rw [List.append_assoc] at h
  exact ⟨between, rfl, (List.append_cancel_left h).symm⟩

variable [DecidableEq α]

/-- A line that ends inside a part is a line of the part. -/
theorem line_append {newline escape : α} (hne : escape ≠ newline)
    (h : line newline escape (inside ++ behind) ≤ inside.length) :
    line newline escape inside = line newline escape (inside ++ behind) := by
  obtain ⟨taken, rest, hsplit, hline, hcount⟩ := exists_isLine hne (inside ++ behind)
  rw [hcount] at h ⊢
  obtain ⟨between, rfl, rfl⟩ := exists_between hsplit h
  refine IsLine.line_eq hne (hline.imp id fun hlast => ⟨?_, hlast.2⟩)
  exact (List.append_eq_nil_iff.1 hlast.1).1

/-- A literal that is closed inside a part is closed there in the part. -/
theorem quoted_append {quote escape : α} (hne : escape ≠ quote)
    (h : quoted quote escape (inside ++ behind) = some n) (hn : n ≤ inside.length) :
    quoted quote escape inside = some n := by
  obtain ⟨run, rest, hsplit, hrun, rfl⟩ := (quoted_eq_some_iff hne).1 h
  rw [List.append_cons] at hsplit
  obtain ⟨between, rfl, -⟩ := exists_between hsplit (by simpa using hn)
  exact (quoted_eq_some_iff hne).2 ⟨run, between, by simp, hrun, rfl⟩

/-- A pair that lies inside a part is found in the part. -/
theorem pair_append {first second : α} (h : pair first second (inside ++ behind) = some n)
    (hn : n ≤ inside.length) : pair first second inside = some n := by
  obtain ⟨run, rest, hsplit, hrun, rfl⟩ := pair_eq_some_iff.1 h
  rw [List.append_cons, List.append_cons] at hsplit
  obtain ⟨between, rfl, -⟩ := exists_between hsplit (by simpa using hn)
  exact pair_eq_some_iff.2 ⟨run, between, by simp, hrun, rfl⟩

/-- A text without a pair has none in its parts. -/
theorem pair_append_eq_none {first second : α} (h : pair first second (inside ++ behind) = none) :
    pair first second inside = none := by
  refine Option.eq_none_iff_forall_ne_some.2 fun n hn => ?_
  obtain ⟨run, rest, rfl, hrun, rfl⟩ := pair_eq_some_iff.1 hn
  have hwhole : pair first second (run ++ first :: second :: rest ++ behind) =
      some (run.length + 2) :=
    pair_eq_some_iff.2 ⟨run, rest ++ behind, by simp, hrun, rfl⟩
  rw [h] at hwhole
  exact absurd hwhole (by simp)

end Extent

namespace Lexeme

open CharacterClass

variable {mode : Mode} {inside behind : List Char} {kind : TokenKind} {n : Nat} {c : Char}

/-- An operator that lies inside a part is the first that the part starts with. -/
theorem operator?_append (h : operator? (inside ++ behind) = some (kind, n))
    (hn : n ≤ inside.length) : operator? inside = some (kind, n) := by
  simp only [operator?, Option.map_eq_some_iff, Prod.mk.injEq] at h ⊢
  obtain ⟨op, hop, hkind, rfl⟩ := h
  refine ⟨op, ?_, hkind, rfl⟩
  obtain ⟨hstarts, earlier, later, hsplit, hnone⟩ := List.find?_eq_some_iff_append.1 hop
  refine List.find?_eq_some_iff_append.2 ⟨?_, earlier, later, hsplit, ?_⟩
  · rw [List.isPrefixOf_iff_prefix] at hstarts ⊢
    exact List.prefix_of_prefix_length_le hstarts (List.prefix_append inside behind) hn
  · intro other hother
    have hwhole := hnone other hother
    simp only [Bool.not_eq_true', ← Bool.not_eq_true, List.isPrefixOf_iff_prefix] at hwhole ⊢
    exact fun hpart => hwhole (hpart.trans (List.prefix_append inside behind))

/-- A text that starts with no operator has no part in front that does. -/
theorem operator?_append_eq_none (h : operator? (inside ++ behind) = none) :
    operator? inside = none := by
  simp only [operator?, Option.map_eq_none_iff, List.find?_eq_none,
    List.isPrefixOf_iff_prefix] at h ⊢
  exact fun op hop hpart => h op hop (hpart.trans (List.prefix_append inside behind))

/-- A run that ends inside a part is a run of the part. -/
theorem takeWhile_append_of_length_le {p : Char → Bool}
    (h : ((inside ++ behind).takeWhile p).length ≤ inside.length) :
    inside.takeWhile p = (inside ++ behind).takeWhile p := by
  rw [List.takeWhile_append] at h ⊢
  split at h
  · rename_i hall
    rw [if_pos hall, (List.takeWhile_prefix p).eq_of_length hall]
    rw [List.length_append] at h
    rw [List.length_eq_zero_iff.1 (Nat.le_zero.1 (Nat.le_of_add_le_add_left h)), List.append_nil]
  · rename_i hsome
    rw [if_neg hsome]

theorem word?_append (h : word? (inside ++ behind) = some (kind, n)) (hn : n ≤ inside.length) :
    word? inside = some (kind, n) := by
  have hlength : ((inside ++ behind).takeWhile isWordChar).length ≤ inside.length := by
    unfold word? at h
    split at h
    · simp at h
    · rename_i m hm
      simp only [Option.some.injEq, Prod.mk.injEq] at h
      omega
  rw [word?, takeWhile_append_of_length_le hlength]
  exact h

theorem operatorOrWord?_append (h : operatorOrWord? (inside ++ behind) = some (kind, n))
    (hn : n ≤ inside.length) : operatorOrWord? inside = some (kind, n) := by
  rcases Option.or_eq_some_iff.1 h with h | ⟨hnone, h⟩
  · exact Option.or_eq_some_iff.2 (Or.inl (operator?_append h hn))
  · exact Option.or_eq_some_iff.2 (Or.inr ⟨operator?_append_eq_none hnone, word?_append h hn⟩)

/-- What starts no comment, literal, directive or escape is a run of blanks, an operator or a
word. -/
theorem atom?_default {rest : List Char} (hdouble : c ≠ '"') (hsingle : c ≠ '\'')
    (hnewline : c ≠ '\n') (hnumber : c ≠ '#') (hescape : c ≠ '\\')
    (hline : ∀ tail, c = '/' → rest = '/' :: tail → False)
    (hblock : ∀ tail, c = '/' → rest = '*' :: tail → False) :
    atom? mode c rest =
      if isBlank c then some (.blanks, 1 + (rest.takeWhile isBlank).length)
      else operatorOrWord? (c :: rest) := by
  unfold atom?
  split
  · exact (hline _ rfl rfl).elim
  · exact (hblock _ rfl rfl).elim
  · exact absurd rfl hdouble
  · exact absurd rfl hsingle
  · exact absurd rfl hnewline
  · exact absurd rfl hescape
  · exact absurd rfl hescape
  · exact absurd rfl hnumber
  · rfl

/-- A slash that is an atom alone opens no comment. -/
theorem atom?_slash (h : atom? mode '/' behind = some (kind, n)) (hn : n ≤ 1) :
    atom? mode '/' [] = some (kind, n) := by
  have halone : atom? mode '/' [] = operatorOrWord? ['/'] := rfl
  rw [halone]
  cases behind with
  | nil => exact h
  | cons next behind =>
    by_cases hline : next = '/'
    · subst hline
      have hlonger : Extent.line '\n' '\\' ('/' :: behind) =
          1 + Extent.line '\n' '\\' behind := ByteExtent.line_cons (by decide) (by decide)
      simp only [atom?, Option.some.injEq, Prod.mk.injEq] at h
      omega
    · by_cases hblock : next = '*'
      · subst hblock
        simp only [atom?] at h
        split at h
        · simp only [Option.some.injEq, Prod.mk.injEq] at h
          omega
        · have hwhole : operator? (['/'] ++ '*' :: behind) = some (kind, n) := h
          exact Option.or_eq_some_iff.2 (Or.inl (operator?_append hwhole hn))
      · rw [atom?_default (by decide) (by decide) (by decide) (by decide) (by decide)
          (by simp [hline]) (by simp [hblock])] at h
        have hwhole : operatorOrWord? (['/'] ++ next :: behind) = some (kind, n) := h
        exact operatorOrWord?_append hwhole hn

theorem atom?_append_default (hdouble : c ≠ '"') (hsingle : c ≠ '\'') (hnewline : c ≠ '\n')
    (hnumber : c ≠ '#') (hescape : c ≠ '\\')
    (hline : ∀ tail, c = '/' → inside = '/' :: tail → False)
    (hblock : ∀ tail, c = '/' → inside = '*' :: tail → False)
    (h : atom? mode c (inside ++ behind) = some (kind, n)) (hn : n ≤ inside.length + 1) :
    atom? mode c inside = some (kind, n) := by
  by_cases halone : inside = [] ∧ c = '/'
  · obtain ⟨rfl, rfl⟩ := halone
    exact atom?_slash h hn
  · have hwhole {mark : Char} (hpart : ∀ tail, c = '/' → inside = mark :: tail → False) :
        ∀ tail, c = '/' → inside ++ behind = mark :: tail → False := by
      intro tail hc htail
      cases inside with
      | nil => exact halone ⟨rfl, hc⟩
      | cons next inside =>
        obtain ⟨rfl, -⟩ := List.cons.inj htail
        exact hpart inside hc rfl
    rw [atom?_default hdouble hsingle hnewline hnumber hescape (hwhole hline) (hwhole hblock)] at h
    rw [atom?_default hdouble hsingle hnewline hnumber hescape hline hblock]
    by_cases hblank : isBlank c = true
    · rw [if_pos hblank] at h ⊢
      obtain ⟨rfl, rfl⟩ := Prod.mk.inj (Option.some.inj h)
      have hrun : ((inside ++ behind).takeWhile isBlank).length ≤ inside.length := by omega
      rw [takeWhile_append_of_length_le hrun]
    · rw [if_neg hblank] at h ⊢
      exact operatorOrWord?_append h hn

/-- An atom that lies inside a part is the atom that the part starts with. -/
theorem atom?_append (h : atom? mode c (inside ++ behind) = some (kind, n))
    (hn : n ≤ inside.length + 1) : atom? mode c inside = some (kind, n) := by
  by_cases hescape : c = '\\'
  · subst hescape
    cases inside with
    | cons next tail => exact h
    | nil =>
      -- a backslash at the end of the part takes a character behind it along
      cases behind with
      | nil => exact h
      | cons next behind =>
        simp only [List.nil_append, atom?, Option.some.injEq, Prod.mk.injEq,
          List.length_nil] at h hn
        omega
  · unfold atom?
    split
    · rename_i tail
      simp only [List.cons_append, atom?, Option.some.injEq, Prod.mk.injEq] at h ⊢
      obtain ⟨rfl, rfl⟩ := h
      have hline : Extent.line '\n' '\\' ('/' :: tail ++ behind) ≤ ('/' :: tail).length := by
        rw [List.cons_append]
        omega
      rw [Extent.line_append (by decide) hline]
      exact ⟨rfl, rfl⟩
    · simp only [List.cons_append, atom?] at h
      simp only [List.length_cons] at hn
      split at h
      · rename_i m hwhole
        obtain ⟨rfl, rfl⟩ := Prod.mk.inj (Option.some.inj h)
        rw [Extent.pair_append hwhole (by omega)]
      · rename_i hwhole
        rw [Extent.pair_append_eq_none hwhole]
        exact operator?_append h hn
    · simp only [atom?, Option.map_eq_some_iff, Prod.mk.injEq] at h ⊢
      obtain ⟨m, hm, rfl, rfl⟩ := h
      exact ⟨m, Extent.quoted_append (by decide) hm (by omega), rfl, rfl⟩
    · simp only [atom?, Option.map_eq_some_iff, Prod.mk.injEq] at h ⊢
      obtain ⟨m, hm, rfl, rfl⟩ := h
      exact ⟨m, Extent.quoted_append (by decide) hm (by omega), rfl, rfl⟩
    · exact h
    · exact absurd rfl hescape
    · exact absurd rfl hescape
    · by_cases hmode : mode = .source
      · simp only [atom?, hmode, if_true, Option.some.injEq, Prod.mk.injEq] at h ⊢
        obtain ⟨rfl, rfl⟩ := h
        have hline : Extent.line '\n' '\\' (inside ++ behind) ≤ inside.length := by omega
        rw [Extent.line_append (by decide) hline]
        exact ⟨rfl, rfl⟩
      · simp only [atom?, hmode, if_false] at h ⊢
        exact operatorOrWord?_append h hn
    · rename_i hdouble hsingle hnewline hnumber hline hblock _ _
      exact (atom?_default hdouble hsingle hnewline hnumber hescape hline hblock).symm.trans
        (atom?_append_default hdouble hsingle hnewline hnumber hescape hline hblock h hn)

variable {closer : Char} {closers inner outer rest text : List Char} {seen : Nat} {delim : Delim}

@[simp] theorem closeGroups_nil (mode : Mode) (seen : Nat) (text : List Char) :
    closeGroups mode [] seen text = some seen := by
  rw [closeGroups]

theorem closeGroups_opener (h : Delim.ofOpener? c = some delim) :
    closeGroups mode (closer :: outer) seen (c :: rest) =
      closeGroups mode (delim.closer :: closer :: outer) (seen + 1) rest := by
  rw [closeGroups]
  simp only [h]

theorem closeGroups_closer (h : Delim.ofOpener? c = none) (hclose : Delim.isCloser c = true) :
    closeGroups mode (closer :: outer) seen (c :: rest) =
      if c = closer then closeGroups mode outer (seen + 1) rest else none := by
  rw [closeGroups]
  simp only [h, hclose, if_true]

theorem closeGroups_atom (h : Delim.ofOpener? c = none) (hclose : ¬ Delim.isCloser c = true)
    (hatom : atom? mode c rest = some (kind, n)) :
    closeGroups mode (closer :: outer) seen (c :: rest) =
      closeGroups mode (closer :: outer) (seen + n) ((c :: rest).drop n) := by
  rw [closeGroups]
  simp only [h, hclose, Bool.false_eq_true, if_false]
  split
  · simp_all
  · simp_all

theorem closeGroups_stuck (h : Delim.ofOpener? c = none) (hclose : ¬ Delim.isCloser c = true)
    (hatom : atom? mode c rest = none) :
    closeGroups mode (closer :: outer) seen (c :: rest) = none := by
  rw [closeGroups]
  simp only [h, hclose, Bool.false_eq_true, if_false]
  split
  · rfl
  · simp_all

/-- It does not matter from where characters are counted. -/
theorem closeGroups_add (k : Nat) :
    closeGroups mode closers (k + seen) text =
      (closeGroups mode closers seen text).map (k + ·) := by
  fun_induction closeGroups mode closers seen text with
  | case1 => simp
  | case2 => simp [closeGroups]
  | case3 seen closer outer c rest delim hdelim ih =>
    rw [closeGroups_opener hdelim, ← ih, Nat.add_assoc]
  | case4 seen outer c rest hdelim hclose ih =>
    rw [closeGroups_closer hdelim hclose, if_pos rfl, ← ih, Nat.add_assoc]
  | case5 seen closer outer c rest hdelim hclose hne =>
    rw [closeGroups_closer hdelim hclose, if_neg hne, Option.map_none]
  | case6 seen closer outer c rest hdelim hclose hatom =>
    rw [closeGroups_stuck hdelim hclose hatom, Option.map_none]
  | case7 seen closer outer c rest hdelim hclose kind n hatom ih =>
    rw [closeGroups_atom hdelim hclose hatom, ← ih, Nat.add_assoc]

theorem drop_sub_cons {m : Nat} (h : seen + 1 ≤ m) :
    (c :: rest).drop (m - seen) = rest.drop (m - (seen + 1)) := by
  rw [show m - seen = (m - (seen + 1)) + 1 by omega, List.drop_succ_cons]

/-- The inner brackets are closed first, and the outer ones behind them. -/
theorem closeGroups_stack (h : closeGroups mode (closer :: inner ++ outer) seen text = some n) :
    ∃ m, closeGroups mode (closer :: inner) seen text = some m ∧
      closeGroups mode outer m (text.drop (m - seen)) = some n := by
  generalize hclosers : closer :: inner ++ outer = closers at h
  fun_induction closeGroups mode closers seen text generalizing closer inner with
  | case1 => cases hclosers
  | case2 => cases h
  | case3 seen top below c rest delim hdelim ih =>
    obtain ⟨rfl, rfl⟩ := List.cons.inj hclosers
    have hdeeper : delim.closer :: (closer :: inner) ++ outer =
        delim.closer :: closer :: (inner.append outer) := rfl
    obtain ⟨m, hinner, houter⟩ := ih hdeeper h
    have hbounds := closeGroups_bounds hinner
    refine ⟨m, by rw [closeGroups_opener hdelim, hinner], ?_⟩
    rw [drop_sub_cons (by omega)]
    exact houter
  | case4 seen below c rest hdelim hclose ih =>
    obtain ⟨rfl, rfl⟩ := List.cons.inj hclosers
    rw [closeGroups_closer hdelim hclose, if_pos rfl]
    cases inner with
    | nil =>
      refine ⟨seen + 1, closeGroups_nil .., ?_⟩
      rw [Nat.add_sub_cancel_left, List.drop_one]
      exact h
    | cons next inner =>
      obtain ⟨m, hinner, houter⟩ := ih rfl h
      have hbounds := closeGroups_bounds hinner
      refine ⟨m, hinner, ?_⟩
      rw [drop_sub_cons (by omega)]
      exact houter
  | case5 => cases h
  | case6 => cases h
  | case7 seen top below c rest hdelim hclose kind count hatom ih =>
    obtain ⟨rfl, rfl⟩ := List.cons.inj hclosers
    obtain ⟨m, hinner, houter⟩ := ih rfl h
    have hbounds := closeGroups_bounds hinner
    refine ⟨m, by rw [closeGroups_atom hdelim hclose hatom, hinner], ?_⟩
    rw [List.drop_drop] at houter
    rw [show m - seen = count + (m - (seen + count)) by omega]
    exact houter

/-- Groups that are closed inside a part are closed there in the part. -/
theorem closeGroups_append (h : closeGroups mode closers seen (inside ++ behind) = some n)
    (hn : n ≤ seen + inside.length) : closeGroups mode closers seen inside = some n := by
  generalize htext : inside ++ behind = text at h
  fun_induction closeGroups mode closers seen text generalizing inside with
  | case1 => rw [closeGroups_nil, h]
  | case2 => cases h
  | case3 seen top below c rest delim hdelim ih =>
    have hbounds := closeGroups_bounds h
    rcases List.append_eq_cons_iff.1 htext with ⟨rfl, -⟩ | ⟨inside, rfl, rfl⟩
    · simp only [List.length_nil] at hn
      omega
    · rw [closeGroups_opener hdelim]
      exact ih (by simp only [List.length_cons] at hn; omega) rfl h
  | case4 seen below c rest hdelim hclose ih =>
    have hbounds := closeGroups_bounds h
    rcases List.append_eq_cons_iff.1 htext with ⟨rfl, -⟩ | ⟨inside, rfl, rfl⟩
    · simp only [List.length_nil] at hn
      omega
    · rw [closeGroups_closer hdelim hclose, if_pos rfl]
      exact ih (by simp only [List.length_cons] at hn; omega) rfl h
  | case5 => cases h
  | case6 => cases h
  | case7 seen top below c rest hdelim hclose kind count hatom ih =>
    have hbounds := closeGroups_bounds h
    have hpos := (atom?_bounds hatom).1
    rcases List.append_eq_cons_iff.1 htext with ⟨rfl, -⟩ | ⟨inside, rfl, rfl⟩
    · simp only [List.length_nil] at hn
      omega
    · have hcount : count ≤ inside.length + 1 := by
        simp only [List.length_cons] at hn hbounds
        omega
      rw [closeGroups_atom hdelim hclose (atom?_append hatom hcount)]
      have hsplit : (c :: inside).drop count ++ behind = (c :: (inside ++ behind)).drop count := by
        rw [← List.cons_append, List.drop_append_of_le_length (by simpa using hcount)]
      refine ih ?_ hsplit h
      simp only [List.length_drop, List.length_cons] at hn ⊢
      omega

/-- A group inside a part is a group of the part. -/
theorem group?_append (h : group? mode delim (inside ++ behind) = some n)
    (hn : n ≤ inside.length + 1) : group? mode delim inside = some n :=
  closeGroups_append h (by omega)

/-- The first lexeme inside a group is found when the inside is read on its own, and the group is
closed behind what is left of the inside. -/
theorem first_inside (h : closeGroups mode [closer] seen (c :: inside ++ closer :: behind) =
      some (seen + (c :: inside).length + 1)) :
    (first mode c inside).1 ≠ .unknown ∧
      closeGroups mode [closer] (seen + (first mode c inside).2)
        ((c :: inside).drop (first mode c inside).2 ++ closer :: behind) =
          some (seen + (first mode c inside).2 +
            ((c :: inside).drop (first mode c inside).2).length + 1) := by
  rw [List.cons_append] at h
  simp only [List.length_cons] at h
  cases hopen : Delim.ofOpener? c with
  | some delim =>
    rw [closeGroups_opener hopen] at h
    have hsplit : delim.closer :: [] ++ [closer] = [delim.closer, closer] := rfl
    obtain ⟨m, hinner, houter⟩ := closeGroups_stack (hsplit ▸ h)
    have hlower := closeGroups_bounds hinner
    have hupper := closeGroups_bounds houter
    simp only [List.length_singleton] at hlower hupper
    have hgroup := closeGroups_append hinner (by omega)
    rw [closeGroups_add] at hgroup
    obtain ⟨n, halone, rfl⟩ := Option.map_eq_some_iff.1 hgroup
    have hfirst : first mode c inside = (.group delim, n) := by
      rw [first, hopen]
      simp only [group?, halone]
    obtain ⟨n, rfl⟩ : ∃ k, n = k + 1 := ⟨n - 1, by omega⟩
    rw [hfirst]
    refine ⟨by simp, ?_⟩
    rw [List.drop_succ_cons, ← List.drop_append_of_le_length (by omega), List.length_drop]
    rw [show seen + (n + 1) - (seen + 1) = n by omega] at houter
    rw [houter]
    congr 1
    omega
  | none =>
    by_cases hclose : Delim.isCloser c = true
    · rw [closeGroups_closer hopen hclose] at h
      split at h
      · rw [closeGroups_nil, Option.some.injEq] at h
        omega
      · cases h
    · cases hatom : atom? mode c (inside ++ closer :: behind) with
      | none =>
        rw [closeGroups_stuck hopen hclose hatom] at h
        cases h
      | some found =>
        obtain ⟨kind, n⟩ := found
        rw [closeGroups_atom hopen hclose hatom] at h
        have hbounds := closeGroups_bounds h
        simp only [List.length_singleton] at hbounds
        have hn : n ≤ inside.length + 1 := by omega
        have hfirst : first mode c inside = (kind, n) := by
          rw [first, hopen]
          simp only [atom?_append hatom hn, Option.getD_some]
        rw [hfirst]
        refine ⟨?_, ?_⟩
        · rintro rfl
          exact absurd (atom?_isAtomic hatom) Bool.false_ne_true
        · rw [← List.drop_append_of_le_length (by simpa using hn), List.cons_append, h,
            List.length_drop, List.length_cons]
          congr 1
          omega

/-- What stands in front of the bracket that closes a group reads without unknown characters. -/
theorem kind_ne_unknown_of_closeGroups {index offset : Nat} {t : Token}
    (h : closeGroups mode [closer] seen (inside ++ closer :: behind) =
      some (seen + inside.length + 1))
    (ht : t ∈ TokenStream.ofChars mode index offset inside) : t.kind ≠ .unknown := by
  induction hlength : inside.length using Nat.strongRecOn generalizing seen index offset inside with
  | ind n ih =>
    cases inside with
    | nil => simp at ht
    | cons c inside =>
      obtain ⟨hkind, hrest⟩ := first_inside h
      have hbounds := first_bounds mode c inside
      rw [TokenStream.ofChars_cons] at ht
      rcases List.mem_cons.1 ht with rfl | ht
      · exact hkind
      · refine ih _ ?_ hrest ht rfl
        simp only [List.length_drop, List.length_cons] at hlength ⊢
        omega

end Lexeme

end CBoundary
