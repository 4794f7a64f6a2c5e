import CBoundary.Proofs.Signatures
import CBoundary.Proofs.TokenRole

/-!
Declarators that are written alike. Two lists of tokens are read side by side that differ in their
positions, and in the text of one parenthesized group. A declarator is read token by token, and what
a token adds to it depends on its role, and, for a pointer declarator, on the name inside. So both
lists declare the same name, and with the same type, unless the group is a part of the type. Main
statement: `ofTokens?_map`.
-/
namespace CBoundary

open Keyword Classification DeclaratorState

theorem Token.kind_of_placeless {t u : Token} (h : t.placeless = u.placeless) : t.kind = u.kind :=
  (congrArg Token.kind h :)

theorem Token.text_of_placeless {t u : Token} (h : t.placeless = u.placeless) : t.text = u.text :=
  (congrArg Token.text h :)

/-- The declarator without the positions of its tokens. -/
def Variable.placeless (v : Variable) : Variable where
  typename := v.typename.map Token.placeless
  name := v.name.placeless
  preComment := v.preComment.map Token.placeless
  postComment := v.postComment.map Token.placeless
  terminator := v.terminator

/-- The second token does in a declarator what the first does, and but for its position it is the
first, unless this is `g`. -/
structure ReadsLike (g t u : Token) : Prop where
  role : role t = role u
  name : (nameInPointer? t).map Token.placeless = (nameInPointer? u).map Token.placeless
  qualifier : isQualifier t.text = isQualifier u.text
  same : t = g ∨ t.placeless = u.placeless

namespace ReadsLike

variable {g t u : Token}

theorem kind (h : ReadsLike g t u) : t.kind = u.kind := by
  rw [← keepsRole_role.kind, h.role, keepsRole_role.kind]

theorem isGroup (h : ReadsLike g t u) (d : Delim) : t.isGroup d = u.isGroup d := by
  rw [Token.isGroup, Token.isGroup, h.kind]

theorem isPunct (h : ReadsLike g t u) (p : String) : t.isPunct p = u.isPunct p := by
  rw [← keepsRole_role.isPunct, h.role, keepsRole_role.isPunct]

theorem isSeparator (h : ReadsLike g t u) : t.isSeparator = u.isSeparator := by
  rw [Token.isSeparator, Token.isSeparator, h.isPunct, h.isPunct]

theorem isName (h : ReadsLike g t u) : Keyword.isName t = Keyword.isName u := by
  rw [← keepsRole_role.isName, h.role, keepsRole_role.isName]

theorem isPointerGroup (h : ReadsLike g t u) :
    Classification.isPointerGroup t = Classification.isPointerGroup u := by
  rw [← keepsRole_role.pointer, h.role, keepsRole_role.pointer]

/-- Only a parenthesized group may have another text. -/
theorem placeless (h : ReadsLike g t u) (hg : g.kind = .group .paren)
    (ht : t.isGroup .paren = false) : t.placeless = u.placeless := by
  refine h.same.resolve_left fun heq => ?_
  rw [heq, Token.isGroup, hg] at ht
  cases ht

end ReadsLike

section Parallel

variable {α : Type} {f f' : α → Token} {g : Token}

namespace AdjacentComment

theorem exists_leading_map (h : ∀ a, ReadsLike g (f a) (f' a)) (l : List α) :
    ∃ found start, leading (l.map f) = (Option.map f found, start) ∧
      leading (l.map f') = (Option.map f' found, start) ∧
      ∀ a ∈ found, (f a).kind.isComment = true := by
  have hspace : (fun t : Token => t.kind.isSpace) ∘ f = (fun t => t.kind.isSpace) ∘ f' :=
    funext fun a => congrArg TokenKind.isSpace (h a).kind
  unfold leading
  simp only [List.takeWhile_map, List.length_map, hspace, ← List.map_drop]
  cases l.drop (l.takeWhile ((fun t : Token => t.kind.isSpace) ∘ f')).length with
  | nil => exact ⟨none, _, rfl, rfl, by simp⟩
  | cons a rest =>
    simp only [List.map_cons, (h a).kind]
    cases hcomment : (f' a).kind.isComment with
    | false => exact ⟨none, _, rfl, rfl, by simp⟩
    | true =>
      refine ⟨some a, _, rfl, rfl, ?_⟩
      rintro b ⟨⟩
      rw [(h a).kind, hcomment]

theorem exists_trailing?_map (h : ∀ a, ReadsLike g (f a) (f' a)) (start : Nat) (l : List α) :
    ∃ found, trailing? start (l.map f) = Option.map f found ∧
      trailing? start (l.map f') = Option.map f' found ∧
      ∀ a ∈ found, (f a).kind.isComment = true := by
  have hspace : (fun t : Token => !t.kind.isSpace) ∘ f = (fun t => !t.kind.isSpace) ∘ f' :=
    funext fun a => congrArg (fun kind => !TokenKind.isSpace kind) (h a).kind
  unfold trailing?
  simp only [← List.map_drop, ← List.map_reverse, List.find?_map, hspace]
  cases (l.drop start).reverse.find? ((fun t : Token => !t.kind.isSpace) ∘ f') with
  | none => exact ⟨none, rfl, rfl, by simp⟩
  | some a =>
    simp only [Option.map_some, Option.filter_some, (h a).kind]
    cases hcomment : (f' a).kind.isComment with
    | false => exact ⟨none, rfl, rfl, by simp⟩
    | true =>
      refine ⟨some a, rfl, rfl, ?_⟩
      rintro b ⟨⟩
      rw [(h a).kind, hcomment]

end AdjacentComment

/-- Comments are the same but for their positions. -/
theorem map_placeless_comment (h : ∀ a, ReadsLike g (f a) (f' a)) (hg : g.kind = .group .paren)
    {found : Option α} (hcomment : ∀ a ∈ found, (f a).kind.isComment = true) :
    (found.map f').map Token.placeless = (found.map f).map Token.placeless := by
  cases found with
  | none => rfl
  | some a =>
    have hkind := hcomment a rfl
    have hgroup : (f a).isGroup .paren = false := by
      cases hparen : (f a).isGroup .paren with
      | false => rfl
      | true => rw [eq_of_beq hparen] at hkind; cases hkind
    exact congrArg some ((h a).placeless hg hgroup).symm

namespace DeclaratorState

/-- Both states come from the same tokens, of which no pointer declarator has been collected. -/
structure SideBySide (f f' : α → Token) (d d' : DeclaratorState) : Prop where
  collected : ∃ c : List α, d.collected = c.map f ∧ d'.collected = c.map f' ∧
    ∀ a ∈ c, isPointerGroup (f a) = false
  pointerName : d.pointerName.map Token.placeless = d'.pointerName.map Token.placeless
  collecting : d.collecting = d'.collecting

variable {d d' : DeclaratorState} {a : α}

theorem SideBySide.start : SideBySide f f' start start :=
  ⟨⟨[], rfl, rfl, by simp⟩, rfl, rfl⟩

theorem SideBySide.stop (h : SideBySide f f' d d') :
    SideBySide f f' { d with collecting := false } { d' with collecting := false } :=
  ⟨h.collected, h.pointerName, rfl⟩

theorem SideBySide.collect (h : SideBySide f f' d d') (ha : isPointerGroup (f a) = false) :
    SideBySide f f' { d with collected := d.collected ++ [f a] }
      { d' with collected := d'.collected ++ [f' a] } := by
  obtain ⟨c, hc, hc', hplain⟩ := h.collected
  refine ⟨⟨c ++ [a], by simp [hc], by simp [hc'], ?_⟩, h.pointerName, h.collecting⟩
  intro b hb
  rcases List.mem_append.1 hb with hb | hb
  · exact hplain b hb
  · rwa [List.mem_singleton.1 hb]

theorem SideBySide.isSome_pointerName (h : SideBySide f f' d d') :
    d.pointerName.isSome = d'.pointerName.isSome := by
  simpa using congrArg Option.isSome h.pointerName

/-- One more token is read in both lists. -/
theorem SideBySide.step (h : SideBySide f f' d d') (hread : ∀ a, ReadsLike g (f a) (f' a))
    (a : α) : Option.Rel (SideBySide f f') (d.step (f a)) (d'.step (f' a)) := by
  obtain ⟨collected', name', collecting'⟩ := d'
  obtain rfl : d.collecting = collecting' := h.collecting
  have ha := hread a
  have hlast : d.collected.getLast?.any (·.kind == .word) =
      collected'.getLast?.any (·.kind == .word) := by
    obtain ⟨c, hc, hc', -⟩ := h.collected
    rw [hc, show collected' = c.map f' from hc', List.getLast?_map, List.getLast?_map]
    cases c.getLast? with
    | none => rfl
    | some b => exact congrArg (· == TokenKind.word) (hread b).kind
  have hsome : d.pointerName.isSome = name'.isSome := h.isSome_pointerName
  unfold DeclaratorState.step
  simp only [← ha.kind, ← ha.isGroup, ← ha.isPunct, ← ha.isPointerGroup, ← hsome, ← hlast]
  split
  · exact .some h
  · split
    · split
      · exact .some h.stop
      · split
        · -- the group is a pointer declarator in both lists, with the same name or with none
          have hname := ha.name
          revert hname
          cases nameInPointer? (f a) <;> cases nameInPointer? (f' a) <;> intro hname
          · exact .none
          · cases hname
          · cases hname
          · exact .some ⟨h.collected, hname, h.collecting⟩
        · rename_i hplain
          split
          · exact .some (h.collect (by simpa using hplain))
          · exact .some h.stop
    · rename_i hgroup
      have hplain : isPointerGroup (f a) = false := by
        rw [isPointerGroup, Bool.eq_false_iff.2 hgroup, Bool.false_and]
      split
      · exact .some h
      · split
        · exact .some h.stop
        · split
          · exact .some (h.collect hplain)
          · exact .none

/-- Both lists are read to their ends. -/
theorem SideBySide.foldlM (h : SideBySide f f' d d') (hread : ∀ a, ReadsLike g (f a) (f' a))
    (l : List α) :
    Option.Rel (SideBySide f f') ((l.map f).foldlM DeclaratorState.step d)
      ((l.map f').foldlM DeclaratorState.step d') := by
  induction l generalizing d d' with
  | nil => exact .some h
  | cons a l ih =>
    have hstep := h.step hread a
    rw [List.map_cons, List.map_cons, List.foldlM_cons, List.foldlM_cons]
    revert hstep
    cases d.step (f a) <;> cases d'.step (f' a) <;> intro hstep
    · exact .none
    · cases hstep
    · cases hstep
    · obtain hnext := Option.rel_some_some.1 hstep
      exact ih hnext

/-- The type is read off the same tokens of both lists, and the name is the same. -/
theorem SideBySide.typeAndName? (h : SideBySide f f' d d') (hread : ∀ a, ReadsLike g (f a) (f' a))
    (hg : g.kind = .group .paren) :
    (d.typeAndName? = none ∧ d'.typeAndName? = none) ∨
      ∃ (c : List α) (name name' : Token), d.typeAndName? = some (c.map f, name) ∧
        d'.typeAndName? = some (c.map f', name') ∧ name'.placeless = name.placeless ∧
        ∀ a ∈ c, isPointerGroup (f a) = false := by
  obtain ⟨c, hc, hc', hplain⟩ := h.collected
  have hgroup : (fun t : Token => t.isGroup .paren) ∘ f = (fun t => t.isGroup .paren) ∘ f' :=
    funext fun a => (hread a).isGroup .paren
  have hname := h.pointerName
  unfold DeclaratorState.typeAndName?
  cases hfound : d.pointerName with
  | some name =>
    cases hfound' : d'.pointerName with
    | none => simp [hfound, hfound'] at hname
    | some name' =>
      simp only [hfound, hfound', Option.map_some, Option.some.injEq] at hname
      exact .inr ⟨c, name, name', by rw [hc], by rw [hc'], hname.symm, hplain⟩
  | none =>
    cases hfound' : d'.pointerName with
    | some name' => simp [hfound, hfound'] at hname
    | none =>
      simp only [hc, hc', ← List.map_reverse, List.dropWhile_map, hgroup]
      have hsub := (List.dropWhile_suffix (l := c.reverse)
        ((fun t : Token => t.isGroup .paren) ∘ f')).subset
      cases hrest : c.reverse.dropWhile ((fun t : Token => t.isGroup .paren) ∘ f') with
      | nil => exact .inl ⟨rfl, rfl⟩
      | cons a before =>
        rw [hrest] at hsub
        have hparen : (f' a).isGroup .paren = false := by
          have hhead := List.head_dropWhile_not ((fun t : Token => t.isGroup .paren) ∘ f')
            (l := c.reverse) (by simp [hrest])
          simpa [hrest] using hhead
        simp only [List.map_cons, (hread a).isName, ← List.map_reverse]
        cases hisName : isName (f' a) with
        | false => exact .inl ⟨rfl, rfl⟩
        | true =>
          refine .inr ⟨before.reverse, f a, f' a, rfl, rfl, ?_, fun b hb => ?_⟩
          · exact ((hread a).placeless hg (by rw [(hread a).isGroup, hparen])).symm
          · have hmem := hsub (List.mem_cons_of_mem a (List.mem_reverse.1 hb))
            exact hplain b (List.mem_reverse.1 hmem)

end DeclaratorState

namespace Variable

open AdjacentComment

/-- The separator is the same token but for its position. -/
theorem text_find?_separator (hread : ∀ a, ReadsLike g (f a) (f' a)) (hg : g.kind = .group .paren)
    (l : List α) : ((l.map f').find? Token.isSeparator).map Token.text =
      ((l.map f).find? Token.isSeparator).map Token.text := by
  have hsame : Token.isSeparator ∘ f = Token.isSeparator ∘ f' :=
    funext fun a => (hread a).isSeparator
  rw [List.find?_map, List.find?_map, hsame]
  cases hfound : l.find? (Token.isSeparator ∘ f') with
  | none => rfl
  | some a =>
    have hgroup : (f a).isGroup .paren = false := by
      have hseparator : (f a).isSeparator = true := by
        rw [(hread a).isSeparator]
        exact List.find?_some (p := Token.isSeparator ∘ f') hfound
      cases hparen : (f a).isGroup .paren with
      | false => rfl
      | true => simp [Token.isSeparator, Token.isPunct, eq_of_beq hparen] at hseparator
    exact congrArg some (Token.text_of_placeless ((hread a).placeless hg hgroup)).symm

/-- Types without qualifiers are alike if the group is no part of them. -/
theorem map_placeless_withoutQualifiers (hread : ∀ a, ReadsLike g (f a) (f' a)) {c : List α}
    (hc : g ∉ withoutQualifiers (c.map f)) :
    (withoutQualifiers (c.map f')).map Token.placeless =
      (withoutQualifiers (c.map f)).map Token.placeless := by
  have hsame : (fun t : Token => !isQualifier t.text) ∘ f = (fun t => !isQualifier t.text) ∘ f' :=
    funext fun a => congrArg Bool.not (hread a).qualifier
  rw [withoutQualifiers, withoutQualifiers, List.filter_map, List.filter_map] at *
  rw [hsame] at hc ⊢
  rw [List.map_map, List.map_map]
  refine List.map_congr_left fun a ha => ?_
  have hne : f a ≠ g := fun heq => hc (List.mem_map.2 ⟨a, ha, heq⟩)
  exact ((hread a).same.resolve_left hne).symm

theorem ofTokens?_map (hread : ∀ a, ReadsLike g (f a) (f' a)) (hg : g.kind = .group .paren)
    (l : List α)
    (hkept : isPointerGroup g = true ∨ ∀ v ∈ ofTokens? (l.map f), g ∉ v.typename) :
    (ofTokens? (l.map f')).map placeless = (ofTokens? (l.map f)).map placeless := by
  obtain ⟨pre, start, hpre, hpre', hprecomment⟩ := exists_leading_map hread l
  obtain ⟨post, hpost, hpost', hpostcomment⟩ := exists_trailing?_map hread start l
  have hsame : (fun t : Token => !t.isSeparator) ∘ f = (fun t => !t.isSeparator) ∘ f' :=
    funext fun a => congrArg Bool.not (hread a).isSeparator
  have hfold := SideBySide.start.foldlM hread
    ((l.drop start).takeWhile ((fun t : Token => !t.isSeparator) ∘ f'))
  unfold ofTokens? at hkept ⊢
  simp only [hpre, hpre', hpost, hpost', ← List.map_drop, List.takeWhile_map, hsame,
    text_find?_separator hread hg, Option.bind_eq_bind, Option.pure_def] at hkept ⊢
  revert hfold hkept
  cases (List.map f ((l.drop start).takeWhile _)).foldlM DeclaratorState.step _ <;>
    cases (List.map f' ((l.drop start).takeWhile _)).foldlM DeclaratorState.step _ <;>
    intro hfold hkept
  · rfl
  · cases hfold
  · cases hfold
  · rename_i d d'
    have hstates : SideBySide f f' d d' := Option.rel_some_some.1 hfold
    rcases hstates.typeAndName? hread hg with ⟨hnone, hnone'⟩ |
      ⟨c, name, name', htype, htype', hname, hplain⟩
    · simp only [Option.bind_some, hnone, hnone', Option.bind_none]
    · have hc : g ∉ withoutQualifiers (c.map f) := by
        rcases hkept with hpointer | hkept
        · intro hmem
          obtain ⟨a, ha, rfl⟩ := List.mem_map.1 (List.mem_filter.1 hmem).1
          rw [hplain a ha] at hpointer
          cases hpointer
        · exact hkept _ (by simp only [Option.bind_some, htype]; rfl)
      simp only [Option.bind_some, htype, htype', Option.map_some, placeless,
        map_placeless_withoutQualifiers hread hc, hname, map_placeless_comment hread hg hprecomment,
        map_placeless_comment hread hg hpostcomment]

end Variable

end Parallel

end CBoundary
