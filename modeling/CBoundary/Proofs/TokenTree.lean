import CBoundary.Proofs.Truncation
import CBoundary.RecordDecl
import Mathlib.Logic.Relation

/-!
Tokens as a tree. A group is a token of its own, and its inside can be read again in place, which
gives the tokens below it, and so on as long as there are groups. Nothing inside a group is
unknown, at any depth, although the group was found by counting brackets in the whole text and its
inside is read as a text of its own. Written out with its brackets, the tree gives the text back,
each piece at its offset. Main statement: `groups_clean`.
-/
namespace CBoundary

open TextPosition TokenCoverage Relation

namespace Token

variable {mode : Lexeme.Mode} {index offset : Nat} {text : List Char} {t inner : Token}
  {delim : Delim}

/-- A token that is read from the inside of a group, in place. -/
def FoundInside (mode : Lexeme.Mode) (group t : Token) : Prop :=
  ∃ inner, group.interior? = some inner ∧
    t ∈ TokenStream.ofText mode inner.span.start inner.text

/-- The group is its brackets around an inside that reads without unknown characters. -/
structure CleanGroup (mode : Lexeme.Mode) (delim : Delim) (t inner : Token) : Prop where
  interior : t.interior? = some inner
  chars : t.chars = delim.opener :: inner.chars ++ [delim.closer]
  span : inner.span = ⟨t.span.start + 1, t.span.stop - 1⟩
  known : ∀ u ∈ TokenStream.ofText mode inner.span.start inner.text, u.kind ≠ .unknown

theorem cleanGroup_of_group? {inside behind : List Char} (hkind : t.kind = .group delim)
    (hchars : t.chars = delim.opener :: inside ++ [delim.closer])
    (hgroup : Lexeme.group? mode delim (inside ++ delim.closer :: behind) =
      some (inside.length + 2)) :
    ∃ inner, CleanGroup mode delim t inner := by
  have hinner : (String.ofList inside).toList = inside := String.toList_ofList
  refine ⟨_, interior?_of_bracketed hkind hchars, ?_, rfl, ?_⟩
  · rw [hchars, chars, hinner]
  · intro u hu
    rw [TokenStream.ofText, hinner] at hu
    refine Lexeme.kind_ne_unknown_of_closeGroups (hgroup.trans ?_) hu
    rw [Nat.add_comm 1]

/-- Every group that is read from a text is clean. -/
theorem exists_cleanGroup (h : t ∈ TokenStream.ofChars mode index offset text)
    (hkind : t.kind = .group delim) : ∃ inner, CleanGroup mode delim t inner := by
  induction hn : text.length using Nat.strongRecOn generalizing index offset text with
  | ind n ih =>
    match text with
    | [] => simp at h
    | c :: rest =>
      have hfirst := Lexeme.first_bounds mode c rest
      rw [TokenStream.ofChars_cons] at h
      rcases List.mem_cons.1 h with rfl | h
      · have hlexeme : Lexeme.first mode c rest = (.group delim, (Lexeme.first mode c rest).2) :=
          Prod.ext hkind rfl
        obtain ⟨rfl, hgroup⟩ := Lexeme.group?_of_first hlexeme
        obtain ⟨inside, behind, rfl, hlength⟩ := Lexeme.group?_split hgroup
        rw [hlength] at hgroup
        refine cleanGroup_of_group? hkind ?_ hgroup
        rw [chars, String.toList_ofList, hlength, List.take_succ_cons, List.append_cons,
          List.take_left' (by simp), List.cons_append]
      · refine ih _ ?_ h rfl
        simp only [List.length_drop, List.length_cons] at hn ⊢
        omega

end Token

/-- Tokens with what is read from the insides of those that are groups. -/
inductive TokenTree where
  | leaf (token : Token)
  | group (delim : Delim) (token : Token) (inside : List TokenTree)

/-- A part of a text and where it stands. -/
structure PlacedText where
  span : Span
  chars : List Char

namespace TokenTree

theorem size_inside_lt {mode : Lexeme.Mode} {t inner : Token} (h : t.interior? = some inner)
    (rest : List Token) :
    Record.size (TokenStream.ofText mode inner.span.start inner.text) <
      Record.size (t :: rest) := by
  have hlt := Record.size_interior h
  have hle : t.chars.length ≤ Record.size (t :: rest) := Record.size_mem List.mem_cons_self
  have hinner : Record.size (TokenStream.ofText mode inner.span.start inner.text) =
      inner.chars.length :=
    congrArg List.length (TokenStream.flatMap_chars_ofChars mode 0 inner.span.start inner.chars)
  omega

theorem size_tail_le (t : Token) (rest : List Token) :
    Record.size rest ≤ Record.size (t :: rest) := by
  simp [Record.size]

/-- Reads the insides of groups, and of the groups in them. -/
def ofTokens (mode : Lexeme.Mode) : List Token → List TokenTree
  | [] => []
  | t :: rest =>
      match t.kind, _h : t.interior? with
      | .group delim, some inner =>
          group delim t (ofTokens mode (TokenStream.ofText mode inner.span.start inner.text)) ::
            ofTokens mode rest
      | _, _ => leaf t :: ofTokens mode rest
termination_by tokens => (Record.size tokens, tokens.length)
decreasing_by
  · exact Prod.Lex.left _ _ (size_inside_lt _h rest)
  · rcases Nat.lt_or_eq_of_le (size_tail_le t rest) with h | h
    · exact Prod.Lex.left _ _ h
    · rw [h]
      exact Prod.Lex.right _ (by simp)
  · rcases Nat.lt_or_eq_of_le (size_tail_le t rest) with h | h
    · exact Prod.Lex.left _ _ h
    · rw [h]
      exact Prod.Lex.right _ (by simp)

/-- The tree written out: a group as its brackets around what is inside. -/
def pieces : TokenTree → List PlacedText
  | leaf t => [⟨t.span, t.chars⟩]
  | group delim t inside =>
      ⟨⟨t.span.start, t.span.start + 1⟩, [delim.opener]⟩ :: inside.flatMap pieces ++
        [⟨⟨t.span.stop - 1, t.span.stop⟩, [delim.closer]⟩]

/-- The pieces stand side by side from byte `offset` on and make up the text. -/
def Abut : Nat → List Char → List PlacedText → Prop
  | _, text, [] => text = []
  | offset, text, p :: rest =>
      p.span = ⟨offset, offset + byteLength p.chars⟩ ∧
        ∃ behind, text = p.chars ++ behind ∧ Abut (offset + byteLength p.chars) behind rest

theorem Abut.append {offset : Nat} {first second : List Char} {xs ys : List PlacedText}
    (hxs : Abut offset first xs) (hys : Abut (offset + byteLength first) second ys) :
    Abut offset (first ++ second) (xs ++ ys) := by
  induction xs generalizing offset first with
  | nil =>
    obtain rfl := hxs
    exact hys
  | cons p xs ih =>
    obtain ⟨hspan, behind, rfl, hrest⟩ := hxs
    refine ⟨hspan, behind ++ second, List.append_assoc .., ih hrest ?_⟩
    rwa [byteLength_append, ← Nat.add_assoc] at hys

theorem abut_group {mode : Lexeme.Mode} {delim : Delim} {t inner : Token} {offset : Nat}
    {inside : List TokenTree} (hclean : t.CleanGroup mode delim inner)
    (hspan : t.span = ⟨offset, offset + byteLength t.chars⟩)
    (hinside : Abut inner.span.start inner.chars (inside.flatMap pieces)) :
    Abut offset t.chars (group delim t inside).pieces := by
  have hopener : byteLength [delim.opener] = 1 := by cases delim <;> rfl
  have hcloser : byteLength [delim.closer] = 1 := by cases delim <;> rfl
  have hstart : inner.span.start = offset + byteLength [delim.opener] := by
    rw [hclean.span, hspan, hopener]
  have hlength : byteLength t.chars = byteLength inner.chars + 2 := by
    rw [hclean.chars, ← List.singleton_append, byteLength_append, byteLength_append, hopener,
      hcloser]
    omega
  rw [hstart] at hinside
  rw [hclean.chars, pieces]
  refine ⟨?_, inner.chars ++ [delim.closer], rfl, hinside.append ⟨?_, [], rfl, rfl⟩⟩
  · rw [hspan, hopener]
  · simp only [hspan, hopener, hcloser, hlength, Span.mk.injEq]
    omega

/-- The tokens of a text and all that is inside them, written out, make up the text. -/
theorem abut_ofTokens {mode : Lexeme.Mode} {index offset : Nat} {text : List Char}
    {tokens : List Token} (htiles : Tiles index offset text tokens)
    (hclean : ∀ t ∈ tokens, ∀ delim, t.kind = .group delim →
      ∃ inner, t.CleanGroup mode delim inner) :
    Abut offset text ((ofTokens mode tokens).flatMap pieces) := by
  fun_induction ofTokens mode tokens generalizing index offset text with
  | case1 => exact htiles
  | case2 t rest delim inner hinner hkind ihinside ihrest =>
    obtain ⟨-, hspan, -, behind, rfl, hrest⟩ := htiles
    obtain ⟨inner', hgroup⟩ := hclean t List.mem_cons_self delim hkind
    obtain rfl : inner = inner' := Option.some.inj (hinner.symm.trans hgroup.interior)
    have hinside := ihinside (tiles_ofChars mode 0 inner.span.start inner.chars)
      fun u hu delim hu' => Token.exists_cleanGroup hu hu'
    rw [List.flatMap_cons]
    exact (abut_group hgroup hspan hinside).append
      (ihrest hrest fun u hu => hclean u (List.mem_cons_of_mem t hu))
  | case3 t rest hleaf ihrest =>
    obtain ⟨-, hspan, -, behind, rfl, hrest⟩ := htiles
    rw [List.flatMap_cons, pieces, List.singleton_append]
    refine ⟨hspan, behind, rfl, ?_⟩
    exact ihrest hrest fun u hu => hclean u (List.mem_cons_of_mem t hu)

/-- However deep a group lies in a text, its inside reads in place without unknown characters, and
the tree of all tokens, written out with the brackets, is the text, each piece at its offset. -/
theorem groups_clean (mode : Lexeme.Mode) (base : Nat) (text : String) :
    (∀ t ∈ TokenStream.ofText mode base text, ∀ u,
      ReflTransGen (Token.FoundInside mode) t u → ∀ delim, u.kind = .group delim →
        ∃ inner, u.CleanGroup mode delim inner) ∧
      Abut base text.toList
        ((ofTokens mode (TokenStream.ofText mode base text)).flatMap pieces) := by
  refine ⟨?_, ?_⟩
  · intro t ht u hreach delim hkind
    rcases ReflTransGen.cases_tail hreach with rfl | ⟨group, -, inner, -, hu⟩
    · exact Token.exists_cleanGroup ht hkind
    · exact Token.exists_cleanGroup hu hkind
  · exact abut_ofTokens (tiles_ofChars mode 0 base text.toList)
      fun t ht delim hkind => Token.exists_cleanGroup ht hkind

end TokenTree

end CBoundary
