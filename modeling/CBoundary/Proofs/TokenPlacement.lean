import CBoundary.Proofs.TokenCoverage
import CBoundary.Statement

/-!
Tokens know where they stand. A token read from a text stands in the text at its range, and a
bracket group has its two brackets at its ends, so the inside of a group stands in the text one
byte further in on both sides. Reading the inside again in place gives tokens that stand in the
text, too, and so on at any depth.
-/
namespace CBoundary

open TextPosition

namespace Lexeme

/-- A group that is closed ends in the bracket that closes the outermost one. -/
theorem closeGroups_ends {mode : Mode} {closers : List Char} {seen n : Nat} {text : List Char}
    (h : closeGroups mode closers seen text = some n) {outermost : Char}
    (hlast : closers.getLast? = some outermost) :
    ∃ inside, text.take (n - seen) = inside ++ [outermost] := by
  fun_induction closeGroups mode closers seen text with
  | case1 => simp at hlast
  | case2 => simp at h
  | case3 seen closer outer c rest delim hdelim ih =>
    obtain ⟨inside, hinside⟩ := ih h (by simpa using hlast)
    have hbounds := closeGroups_bounds h
    refine ⟨c :: inside, ?_⟩
    rw [show n - seen = (n - (seen + 1)) + 1 by simp at hbounds; omega, List.take_succ_cons,
      hinside, List.cons_append]
  | case4 seen outer c rest hdelim hclose ih =>
    have hbounds := closeGroups_bounds h
    have htake : (c :: rest).take (n - seen) = c :: rest.take (n - (seen + 1)) := by
      rw [show n - seen = (n - (seen + 1)) + 1 by omega, List.take_succ_cons]
    cases outer with
    | nil =>
      rw [closeGroups, Option.some.injEq] at h
      obtain rfl : c = outermost := by simpa using hlast
      refine ⟨[], ?_⟩
      rw [htake, h]
      simp
    | cons next outer =>
      obtain ⟨inside, hinside⟩ := ih h (by simpa using hlast)
      exact ⟨c :: inside, by rw [htake, hinside, List.cons_append]⟩
  | case5 => simp at h
  | case6 => simp at h
  | case7 seen closer outer c rest hdelim hclose kind count hatom ih =>
    obtain ⟨inside, hinside⟩ := ih h hlast
    have hbounds := closeGroups_bounds h
    refine ⟨(c :: rest).take count ++ inside, ?_⟩
    rw [show n - seen = count + (n - (seen + count)) by omega, List.take_add, hinside,
      List.append_assoc]

theorem ofOpener?_eq_some {c : Char} {delim : Delim} (h : Delim.ofOpener? c = some delim) :
    c = delim.opener := by
  unfold Delim.ofOpener? at h
  split at h <;> first | (obtain rfl := Option.some.inj h; rfl) | simp at h

/-- Kinds of lexemes that are no bracket groups and of which it is known what they are. -/
def isAtomic : TokenKind → Bool
  | .group _ | .unknown => false
  | _ => true

theorem operator?_isAtomic {text : List Char} {kind : TokenKind} {n : Nat}
    (h : operator? text = some (kind, n)) : isAtomic kind = true := by
  obtain ⟨op, -, hop⟩ := Option.map_eq_some_iff.1 h
  rw [← (Prod.mk.inj hop).1]
  rfl

theorem operatorOrWord?_isAtomic {text : List Char} {kind : TokenKind} {n : Nat}
    (h : operatorOrWord? text = some (kind, n)) : isAtomic kind = true := by
  rcases Option.or_eq_some_iff.1 h with h | ⟨-, h⟩
  · exact operator?_isAtomic h
  · unfold word? at h
    split at h
    · cases h
    · cases h
      rfl

theorem atom?_isAtomic {mode : Mode} {c : Char} {rest : List Char} {kind : TokenKind} {n : Nat}
    (h : atom? mode c rest = some (kind, n)) : isAtomic kind = true := by
  unfold atom? at h
  split at h
  · cases h
    rfl
  · split at h
    · cases h
      rfl
    · exact operator?_isAtomic h
  · obtain ⟨m, -, hm⟩ := Option.map_eq_some_iff.1 h
    cases hm
    rfl
  · obtain ⟨m, -, hm⟩ := Option.map_eq_some_iff.1 h
    cases hm
    rfl
  · cases h
    rfl
  · cases h
  · cases h
    rfl
  · split at h
    · cases h
      rfl
    · exact operatorOrWord?_isAtomic h
  · split at h
    · cases h
      rfl
    · exact operatorOrWord?_isAtomic h

theorem group?_of_first {mode : Mode} {c : Char} {rest : List Char} {delim : Delim} {n : Nat}
    (h : first mode c rest = (.group delim, n)) :
    c = delim.opener ∧ group? mode delim rest = some n := by
  unfold first at h
  split at h
  · rename_i opened hopen
    split at h
    · rename_i m hgroup
      obtain ⟨hkind, rfl⟩ := Prod.mk.inj h
      obtain rfl := TokenKind.group.inj hkind
      exact ⟨ofOpener?_eq_some hopen, hgroup⟩
    · simp at h
  · cases hatom : atom? mode c rest with
    | none => simp [hatom] at h
    | some found =>
      obtain ⟨kind, m⟩ := found
      rw [hatom, Option.getD_some] at h
      rw [h] at hatom
      exact absurd (atom?_isAtomic hatom) Bool.false_ne_true

/-- A group is its inside and the bracket that closes it. -/
theorem group?_split {mode : Mode} {delim : Delim} {rest : List Char} {n : Nat}
    (h : group? mode delim rest = some n) :
    ∃ inside behind, rest = inside ++ delim.closer :: behind ∧ n = inside.length + 2 := by
  obtain ⟨inside, hinside⟩ := closeGroups_ends h List.getLast?_singleton
  have hbounds := group?_bounds h
  have hlength := congrArg List.length hinside
  simp only [List.length_take, List.length_append, List.length_singleton] at hlength
  refine ⟨inside, rest.drop (n - 1), ?_, by omega⟩
  have hsplit := List.take_append_drop (n - 1) rest
  rw [hinside, List.append_assoc] at hsplit
  exact hsplit.symm

/-- A group lexeme starts with its opening bracket and ends with the closing one. -/
theorem first_group {mode : Mode} {c : Char} {rest : List Char} {delim : Delim} {n : Nat}
    (h : first mode c rest = (.group delim, n)) :
    ∃ inside, (c :: rest).take n = delim.opener :: inside ++ [delim.closer] := by
  obtain ⟨rfl, hgroup⟩ := group?_of_first h
  obtain ⟨inside, behind, rfl, rfl⟩ := group?_split hgroup
  refine ⟨inside, ?_⟩
  rw [List.take_succ_cons, ← List.singleton_append (l := behind), ← List.append_assoc,
    List.take_left' (by simp), List.cons_append]

end Lexeme

namespace Token

/-- The token stands in a text that starts at byte `base` of its file: its range holds its
characters. -/
def StandsIn (base : Nat) (text : List Char) (t : Token) : Prop :=
  ∃ before behind, text = before ++ t.chars ++ behind ∧
    t.span = ⟨base + byteLength before, base + byteLength before + byteLength t.chars⟩

/-- If the token is a group, its brackets are its ends. -/
def Bracketed (t : Token) : Prop :=
  ∀ delim, t.kind = .group delim → ∃ inside, t.chars = delim.opener :: inside ++ [delim.closer]

/-- What every token has that is read from a text, or from the inside of a group in it. -/
structure ReadFrom (base : Nat) (text : List Char) (t : Token) : Prop where
  stands : t.StandsIn base text
  bracketed : t.Bracketed

variable {base : Nat} {text : List Char} {t inner : Token}

theorem StandsIn.standsAt (h : t.StandsIn base text) :
    base ≤ t.span.start ∧ TextSlice.StandsAt text (t.span.start - base)
      (t.span.start - base + byteLength t.chars) t.chars := by
  obtain ⟨before, behind, htext, hspan⟩ := h
  rw [hspan]
  refine ⟨Nat.le_add_right _ _, before, behind, htext, ?_, ?_⟩
  · exact Nat.add_sub_cancel_left _ _
  · rw [Nat.add_sub_cancel_left]

theorem interior?_of_bracketed {delim : Delim} {inside : List Char} (hkind : t.kind = .group delim)
    (hchars : t.chars = delim.opener :: inside ++ [delim.closer]) :
    t.interior? = some { t with
      span := ⟨t.span.start + 1, t.span.stop - 1⟩
      text := String.ofList inside } := by
  unfold interior?
  rw [hkind, hchars]
  cases inside with
  | nil => rfl
  | cons c rest =>
    simp only [List.cons_append]
    rw [← List.cons_append, List.dropLast_concat]

/-- The inside of a group stands in the text that the group stands in. -/
theorem ReadFrom.interior (h : t.ReadFrom base text) (hinner : t.interior? = some inner) :
    inner.StandsIn base text := by
  obtain ⟨before, behind, htext, hspan⟩ := h.stands
  cases hkind : t.kind with
  | group delim =>
    obtain ⟨inside, hchars⟩ := h.bracketed delim hkind
    rw [interior?_of_bracketed hkind hchars, Option.some.injEq] at hinner
    have hopener : delim.opener.utf8Size = 1 := by cases delim <;> rfl
    have hcloser : delim.closer.utf8Size = 1 := by cases delim <;> rfl
    have hinside : inner.chars = inside := by
      rw [← hinner, chars, String.toList_ofList]
    have hlength : byteLength t.chars = byteLength inside + 2 := by
      rw [hchars, byteLength_append, byteLength_cons, byteLength_cons, hopener, hcloser,
        byteLength_nil]
      omega
    refine ⟨before ++ [delim.opener], delim.closer :: behind, ?_, ?_⟩
    · rw [htext, hchars, hinside]
      simp
    · rw [hinside, ← hinner, hspan, hlength, byteLength_append, byteLength_cons, hopener,
        byteLength_nil]
      simp only [Span.mk.injEq]
      omega
  | _ => simp [interior?, hkind] at hinner

theorem bracketed_of_mem_ofChars {mode : Lexeme.Mode} {index offset : Nat} {part : List Char}
    (h : t ∈ TokenStream.ofChars mode index offset part) : t.Bracketed := by
  induction hn : part.length using Nat.strongRecOn generalizing index offset part with
  | ind n ih =>
    match part with
    | [] => simp at h
    | c :: rest =>
      rw [TokenStream.ofChars_cons] at h
      rcases List.mem_cons.1 h with rfl | h
      · intro delim hkind
        obtain ⟨inside, hinside⟩ := Lexeme.first_group (Prod.ext hkind rfl)
        exact ⟨inside, by rw [chars, String.toList_ofList, hinside]⟩
      · have hfirst := Lexeme.first_bounds mode c rest
        have hlt : ((c :: rest).drop (Lexeme.first mode c rest).2).length < n := by
          simp only [List.length_drop, List.length_cons] at hn ⊢
          omega
        exact ih _ hlt h rfl

/-- The tokens of a part of a text, read in place, stand in the text. -/
theorem readFrom_of_mem_ofChars {mode : Lexeme.Mode} {index : Nat} {before part behind : List Char}
    (htext : text = before ++ part ++ behind)
    (h : t ∈ TokenStream.ofChars mode index (base + byteLength before) part) :
    t.ReadFrom base text := by
  refine ⟨?_, bracketed_of_mem_ofChars h⟩
  have htiles := TokenCoverage.tiles_ofChars mode index (base + byteLength before) part
  obtain ⟨earlier, later, hsplit⟩ := List.append_of_mem h
  rw [hsplit] at htiles
  obtain ⟨hpart, -, -, hstart, hstop⟩ := htiles.at_split
  refine ⟨before ++ earlier.flatMap chars, later.flatMap chars ++ behind, ?_, ?_⟩
  · rw [htext, hpart]
    simp only [List.append_assoc]
  · rw [byteLength_append, ← Nat.add_assoc, ← hstart, ← hstop]

theorem readFrom_of_mem_ofSource {source : String} (h : t ∈ TokenStream.ofSource base source) :
    t.ReadFrom base source.toList := by
  have hwhole : source.toList = [] ++ source.toList ++ [] := by simp
  exact readFrom_of_mem_ofChars hwhole h

/-- The tokens of a token's text, read again in place, stand where the token does. -/
theorem StandsIn.within (h : inner.StandsIn base text) (ht : t ∈ TokenStream.within inner) :
    t.ReadFrom base text := by
  obtain ⟨before, behind, htext, hspan⟩ := h
  rw [TokenStream.within, TokenStream.ofSource, TokenStream.ofText, hspan] at ht
  exact readFrom_of_mem_ofChars htext ht

end Token

namespace Statement

variable {base : Nat} {text : List Char} {s : Statement} {tokens : List Token} {t inner : Token}

theorem mem_of_mem_ofTokens (hs : s ∈ ofTokens tokens) (ht : t ∈ s.tokens) : t ∈ tokens := by
  rw [← flatMap_tokens_ofTokens tokens]
  exact List.mem_flatMap.2 ⟨s, hs, ht⟩

theorem readFrom_of_mem_ofSource {source : String} (hs : s ∈ ofSource base source)
    (ht : t ∈ s.tokens) : t.ReadFrom base source.toList :=
  Token.readFrom_of_mem_ofSource (mem_of_mem_ofTokens hs ht)

theorem readFrom_of_mem_within (h : inner.StandsIn base text) (hs : s ∈ within inner)
    (ht : t ∈ s.tokens) : t.ReadFrom base text :=
  h.within (mem_of_mem_ofTokens hs ht)

end Statement

end CBoundary
