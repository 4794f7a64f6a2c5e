import CBoundary.Proofs.Truncation
import Mathlib.Data.List.Basic
import Mathlib.Data.List.Find

/-!
Text behind a closing parenthesis. No atom goes on over a closing parenthesis that is not inside a
comment, a literal or a directive, so the atoms in front of one are the same whatever stands behind
it. Only a comment that is not closed in front of it could be closed behind it, and that takes a
slash. So a group that is a text of its own is found in front of any text without slashes. Main
statements: `atom?_behind` and `group?_behind`.
-/
namespace CBoundary

namespace Extent

variable {α : Type} [DecidableEq α] {inside : List α} {n : Nat}

/-- A line that is over before the text is stays as it is when the text goes on. -/
theorem line_behind {newline escape : α} (hne : escape ≠ newline)
    (h : line newline escape inside < inside.length) (behind : List α) :
    line newline escape (inside ++ behind) = line newline escape inside := by
  obtain ⟨taken, rest, rfl, hline, hcount⟩ := exists_isLine hne inside
  rw [hcount, List.length_append] at h
  have hlonger : IsLine newline escape taken (rest ++ behind) := by
    refine hline.imp id fun hlast => ?_
    rw [hlast.1, List.length_nil] at h
    omega
  rw [hcount, List.append_assoc, hlonger.line_eq hne]

/-- A literal that is closed stays as it is when the text goes on. -/
theorem quoted_behind {quote escape : α} (hne : escape ≠ quote)
    (h : quoted quote escape inside = some n) (behind : List α) :
    quoted quote escape (inside ++ behind) = some n := by
  obtain ⟨run, rest, rfl, hrun, rfl⟩ := (quoted_eq_some_iff hne).1 h
  exact (quoted_eq_some_iff hne).2 ⟨run, rest ++ behind, by simp, hrun, rfl⟩

/-- A pair that is found stays the first one when the text goes on. -/
theorem pair_behind {first second : α} (h : pair first second inside = some n) (behind : List α) :
    pair first second (inside ++ behind) = some n := by
  obtain ⟨run, rest, rfl, hrun, rfl⟩ := pair_eq_some_iff.1 h
  exact pair_eq_some_iff.2 ⟨run, rest ++ behind, by simp, hrun, rfl⟩

/-- No pair is completed by a text without its second half. -/
theorem pair_behind_eq_none {first second : α} (h : pair first second inside = none)
    {behind : List α} (hbehind : second ∉ behind) :
    pair first second (inside ++ behind) = none := by
  refine Option.eq_none_iff_forall_ne_some.2 fun n hn => ?_
  obtain ⟨run, rest, hsplit, hrun, rfl⟩ := pair_eq_some_iff.1 hn
  rw [List.append_cons, List.append_cons] at hsplit
  have hfound : ∀ between, inside ≠ run ++ [first] ++ [second] ++ between := by
    rintro between rfl
    have hfirst : pair first second (run ++ [first] ++ [second] ++ between) =
        some (run.length + 2) :=
      pair_eq_some_iff.2 ⟨run, between, by simp, hrun, rfl⟩
    rw [h] at hfirst
    exact absurd hfirst (by simp)
  obtain ⟨more, hmore, rfl⟩ | ⟨between, hbetween, -⟩ := List.append_eq_append_iff.1 hsplit
  · rcases List.eq_nil_or_concat more with rfl | ⟨front, last, rfl⟩
    · exact hfound [] (by rw [hmore, List.append_nil, List.append_nil])
    · rw [List.concat_eq_append, ← List.append_assoc] at hmore
      obtain rfl := (List.cons.inj (List.append_inj' hmore rfl).2).1
      exact hbehind (by simp)
  · exact hfound between hbetween

end Extent

namespace Lexeme

open CharacterClass

variable {mode : Mode} {inside : List Char} {kind : TokenKind} {n : Nat} {c : Char}

theorem takeWhile_behind {p : Char → Bool} (hp : p ')' = false) (inside behind : List Char) :
    (inside ++ ')' :: behind).takeWhile p = (inside ++ [')']).takeWhile p := by
  rw [List.takeWhile_append, List.takeWhile_append, List.takeWhile_cons_of_neg (by simp [hp]),
    List.takeWhile_cons_of_neg (by simp [hp])]

/-- No operator has a closing parenthesis in it. -/
theorem operator?_behind (inside behind : List Char) :
    operator? (inside ++ ')' :: behind) = operator? (inside ++ [')']) := by
  have hnone : ∀ op ∈ operators, ')' ∉ op := by decide
  have hstarts : ∀ op ∈ operators,
      op.isPrefixOf (inside ++ ')' :: behind) = op.isPrefixOf (inside ++ [')']) := by
    intro op hop
    rw [Bool.eq_iff_iff, List.isPrefixOf_iff_prefix, List.isPrefixOf_iff_prefix, List.append_cons]
    refine ⟨fun h => ?_, fun h => h.trans (List.prefix_append ..)⟩
    by_cases hle : op.length ≤ (inside ++ [')']).length
    · exact List.prefix_of_prefix_length_le h (List.prefix_append ..) hle
    · have hwhole := List.prefix_of_prefix_length_le (List.prefix_append (inside ++ [')']) behind) h
        (by omega)
      exact absurd (hwhole.subset (by simp)) (hnone op hop)
  rw [operator?, operator?, List.find?_congr hstarts]

theorem operatorOrWord?_behind (inside behind : List Char) :
    operatorOrWord? (inside ++ ')' :: behind) = operatorOrWord? (inside ++ [')']) := by
  rw [operatorOrWord?, operatorOrWord?, operator?_behind, word?, word?,
    takeWhile_behind (by decide)]

theorem atom?_default_behind (hdouble : c ≠ '"') (hsingle : c ≠ '\'') (hnewline : c ≠ '\n')
    (hnumber : c ≠ '#') (hescape : c ≠ '\\') (hslash : c = '/' → inside.head? ≠ some '/')
    (hstar : c = '/' → inside.head? ≠ some '*') (behind : List Char) :
    atom? mode c (inside ++ ')' :: behind) = atom? mode c (inside ++ [')']) := by
  have hpart {mark : Char} (hmark : ')' ≠ mark) (h : c = '/' → inside.head? ≠ some mark)
      (rest : List Char) : ∀ tail, c = '/' → inside ++ ')' :: rest = mark :: tail → False := by
    intro tail hc htail
    cases inside with
    | nil => exact hmark (List.cons.inj htail).1
    | cons next inside => exact h hc (congrArg some (List.cons.inj htail).1)
  rw [atom?_default hdouble hsingle hnewline hnumber hescape (hpart (by decide) hslash behind)
      (hpart (by decide) hstar behind),
    atom?_default hdouble hsingle hnewline hnumber hescape (hpart (by decide) hslash [])
      (hpart (by decide) hstar []), takeWhile_behind (by decide), ← List.cons_append,
    operatorOrWord?_behind, List.cons_append]

/-- A slash in front of a closing parenthesis opens a comment, or none, whatever stands behind
that. -/
theorem atom?_slash_behind (h : atom? mode '/' (inside ++ [')']) = some (kind, n))
    (hn : n ≤ inside.length + 1) {behind : List Char} (hslash : '/' ∉ behind) :
    atom? mode '/' (inside ++ ')' :: behind) = some (kind, n) := by
  by_cases hline : inside.head? = some '/'
  · obtain ⟨tail, rfl⟩ := List.head?_eq_some_iff.1 hline
    simp only [List.cons_append, atom?, Option.some.injEq, Prod.mk.injEq] at h ⊢
    obtain ⟨rfl, rfl⟩ := h
    have hover : Extent.line '\n' '\\' ('/' :: (tail ++ [')'])) <
        ('/' :: (tail ++ [')'])).length := by
      simp only [List.length_cons, List.length_append, List.length_nil] at hn ⊢
      omega
    replace hover := Extent.line_behind (by decide) hover behind
    rw [List.cons_append, List.append_assoc, List.singleton_append] at hover
    rw [hover]
    exact ⟨rfl, rfl⟩
  · by_cases hblock : inside.head? = some '*'
    · obtain ⟨tail, rfl⟩ := List.head?_eq_some_iff.1 hblock
      simp only [List.cons_append, atom?] at h ⊢
      cases hpair : Extent.pair '*' '/' (tail ++ [')']) with
      | some m =>
        have hlonger := Extent.pair_behind hpair behind
        rw [List.append_assoc, List.singleton_append] at hlonger
        rw [hpair] at h
        rw [hlonger]
        exact h
      | none =>
        have hlonger := Extent.pair_behind_eq_none hpair hslash
        rw [List.append_assoc, List.singleton_append] at hlonger
        rw [hpair] at h
        rw [hlonger]
        exact (operator?_behind ('/' :: '*' :: tail) behind).trans h
    · rw [atom?_default_behind (by decide) (by decide) (by decide) (by decide) (by decide)
        (fun _ => hline) (fun _ => hblock), h]

/-- An atom in front of a closing parenthesis stays as it is when the text goes on behind that. -/
theorem atom?_behind (h : atom? mode c (inside ++ [')']) = some (kind, n))
    (hn : n ≤ inside.length + 1) {behind : List Char} (hslash : '/' ∉ behind) :
    atom? mode c (inside ++ ')' :: behind) = some (kind, n) := by
  have hwhole : inside ++ ')' :: behind = inside ++ [')'] ++ behind := List.append_cons ..
  by_cases hc : c = '/'
  · subst hc
    exact atom?_slash_behind h hn hslash
  by_cases hescape : c = '\\'
  · subst hescape
    cases inside with
    | nil =>
      -- a backslash takes the parenthesis along
      simp only [List.nil_append, atom?, Option.some.injEq, Prod.mk.injEq] at h
      simp only [List.length_nil] at hn
      omega
    | cons next tail => exact h
  unfold atom?
  split
  · exact absurd rfl hc
  · exact absurd rfl hc
  · simp only [atom?, Option.map_eq_some_iff, Prod.mk.injEq] at h ⊢
    obtain ⟨m, hm, rfl, rfl⟩ := h
    exact ⟨m, hwhole ▸ Extent.quoted_behind (by decide) hm behind, rfl, rfl⟩
  · simp only [atom?, Option.map_eq_some_iff, Prod.mk.injEq] at h ⊢
    obtain ⟨m, hm, rfl, rfl⟩ := h
    exact ⟨m, hwhole ▸ Extent.quoted_behind (by decide) hm behind, rfl, rfl⟩
  · exact h
  · exact absurd rfl hescape
  · exact absurd rfl hescape
  · by_cases hmode : mode = .source
    · simp only [atom?, hmode, if_true, Option.some.injEq, Prod.mk.injEq] at h ⊢
      obtain ⟨rfl, rfl⟩ := h
      rw [hwhole, Extent.line_behind (by decide) (by simp; omega)]
      exact ⟨rfl, rfl⟩
    · simp only [atom?, hmode, if_false] at h ⊢
      exact (operatorOrWord?_behind ('#' :: inside) behind).trans h
  · rename_i hdouble hsingle hnewline hnumber hline hblock _ _
    have hdefault : atom? mode _ (inside ++ ')' :: behind) = _ :=
      atom?_default hdouble hsingle hnewline hnumber hescape hline hblock
    rw [← hdefault, atom?_default_behind hdouble hsingle hnewline hnumber hescape
      (fun hslash => absurd hslash hc) (fun hslash => absurd hslash hc), h]

variable {closers : List Char} {seen : Nat}

/-- Brackets that are closed by a last parenthesis are closed by it when the text goes on. -/
theorem closeGroups_behind
    (h : closeGroups mode closers seen (inside ++ [')']) = some (seen + inside.length + 1))
    {behind : List Char} (hslash : '/' ∉ behind) :
    closeGroups mode closers seen (inside ++ ')' :: behind) =
      some (seen + inside.length + 1) := by
  generalize htext : inside ++ [')'] = text at h
  fun_induction closeGroups mode closers seen text generalizing inside with
  | case1 =>
    simp only [Option.some.injEq] at h
    omega
  | case2 => simp at htext
  | case3 seen closer outer c rest delim hdelim ih =>
    cases inside with
    | nil =>
      obtain ⟨rfl, rfl⟩ := List.cons.inj htext
      simp [Delim.ofOpener?] at hdelim
    | cons d inside =>
      rw [List.cons_append] at htext
      obtain ⟨rfl, rfl⟩ := List.cons.inj htext
      rw [List.length_cons] at h ⊢
      rw [List.cons_append, closeGroups_opener hdelim, ih rfl (by rw [h]; congr 1; omega)]
      congr 1
      omega
  | case4 seen outer c rest hdelim hclose ih =>
    cases inside with
    | nil =>
      obtain ⟨rfl, rfl⟩ := List.cons.inj htext
      have houter : outer = [] := by
        have hbounds := (closeGroups_bounds h).1
        rw [List.length_nil] at hbounds
        exact List.length_eq_zero_iff.1 (by omega)
      rw [houter, List.nil_append, closeGroups_closer hdelim hclose, if_pos rfl, closeGroups_nil]
      rfl
    | cons d inside =>
      rw [List.cons_append] at htext
      obtain ⟨rfl, rfl⟩ := List.cons.inj htext
      rw [List.length_cons] at h ⊢
      rw [List.cons_append, closeGroups_closer hdelim hclose, if_pos rfl,
        ih rfl (by rw [h]; congr 1; omega)]
      congr 1
      omega
  | case5 => simp at h
  | case6 => simp at h
  | case7 seen closer outer c rest hdelim hclose kind n hatom ih =>
    cases inside with
    | nil =>
      obtain ⟨rfl, rfl⟩ := List.cons.inj htext
      exact absurd (by decide) hclose
    | cons d inside =>
      rw [List.cons_append] at htext
      obtain ⟨rfl, rfl⟩ := List.cons.inj htext
      have hn : n ≤ inside.length + 1 := by
        by_contra hover
        have hnone : (d :: (inside ++ [')'])).drop n = [] := List.drop_of_length_le (by
          rw [List.length_cons, List.length_append, List.length_singleton]
          omega)
        rw [hnone, closeGroups] at h
        exact absurd h (by simp)
      have hdrop (more : List Char) : (d :: (inside ++ ')' :: more)).drop n =
          (d :: inside).drop n ++ ')' :: more := by
        rw [← List.cons_append, List.drop_append_of_le_length (by simpa using hn)]
      have hlength : seen + n + ((d :: inside).drop n).length + 1 =
          seen + (d :: inside).length + 1 := by
        rw [List.length_drop, List.length_cons]
        omega
      rw [List.cons_append, closeGroups_atom hdelim hclose (atom?_behind hatom hn hslash), hdrop,
        ih (hdrop []).symm (by rw [h, hlength]), hlength]

/-- A group that is a text of its own is found in front of a text without slashes. -/
theorem group?_behind
    (h : group? mode .paren (inside ++ [')']) = some (inside.length + 2)) {behind : List Char}
    (hslash : '/' ∉ behind) : group? mode .paren (inside ++ ')' :: behind) =
      some (inside.length + 2) := by
  have hcount : inside.length + 2 = 1 + inside.length + 1 := by omega
  rw [group?, hcount] at h ⊢
  exact closeGroups_behind h hslash

end Lexeme

end CBoundary
