import CBoundary.Proofs.DefinitionHead
import CBoundary.Proofs.TokenPlacement

/-!
Where the parts of a definition stand in the file. The name and the parameters are written at their
ranges. The body has as many bytes as its range, and each of them is the byte of the file at that
place, unless it belongs to a line continuation or to a comment: such a byte is a blank or a newline
in the body. The comments are those outside bracket groups. Main statement: `spans_in_file`.
-/
namespace CBoundary

open CharacterClass TextPosition TextSlice

namespace Token

/-- What stands in a part of a text stands in the text. -/
theorem StandsIn.of_part {base : Nat} {text before part behind : List Char} {t : Token}
    (htext : text = before ++ part ++ behind)
    (h : t.StandsIn (base + byteLength before) part) : t.StandsIn base text := by
  obtain ⟨front, rest, rfl, hspan⟩ := h
  refine ⟨before ++ front, rest ++ behind, by simp [htext], ?_⟩
  rw [hspan, byteLength_append, ← Nat.add_assoc]

end Token

namespace MacroDefinition

/-- The parameter is written at its range; three dots stand for a name that they are not. -/
def WrittenIn (base : Nat) (text : List Char) (p : Token) : Prop :=
  p.StandsIn base text ∨
    (p.text = variadicName ∧ ({ p with text := "..." } : Token).StandsIn base text)

theorem WrittenIn.of_part {base : Nat} {text before part behind : List Char} {p : Token}
    (htext : text = before ++ part ++ behind)
    (h : WrittenIn (base + byteLength before) part p) : WrittenIn base text p :=
  h.imp (fun h => h.of_part htext) fun ⟨hname, h⟩ => ⟨hname, h.of_part htext⟩

theorem withoutDots?_eq_some {text stem : List Char} (h : withoutDots? text = some stem) :
    text = stem ++ ['.', '.', '.'] := by
  unfold withoutDots? at h
  split at h
  · rename_i rest hreverse
    obtain rfl := Option.some.inj h
    rw [← List.reverse_reverse text, hreverse]
    simp
  · simp at h

theorem head?_trim {text : List Char} {c : Char} (h : (trim text).head? = some c) :
    isWhitespace c = false := by
  obtain ⟨behind, hbehind⟩ := trimEnd_prefix (trimStart text)
  have hfirst : (trimStart text).head? = some c := by
    rw [← hbehind, List.head?_append, ← trim, h, Option.some_or]
  exact head?_dropWhile hfirst

theorem isWhitespace_of_trimEnd_eq_nil {text : List Char} (h : trimEnd text = []) :
    ∀ c ∈ text, isWhitespace c = true := by
  rw [trimEnd, List.reverse_eq_nil_iff, List.dropWhile_eq_nil_iff] at h
  exact fun c hc => h c (List.mem_reverse.2 hc)

theorem parameterOf_writtenIn (index offset : Nat) (piece : List Char) :
    WrittenIn offset piece (parameterOf index offset piece).1 := by
  obtain ⟨front, behind, hpiece, -, -, hfront⟩ := exists_trim piece
  unfold parameterOf
  simp only [hfront]
  split
  · exact Or.inl ⟨front, behind, by simpa [Token.chars] using hpiece, by simp [Token.chars]⟩
  · rename_i stem hdots
    have hwritten := withoutDots?_eq_some hdots
    split
    · rename_i hstem
      have hnil : stem = [] := by
        cases stem with
        | nil => rfl
        | cons c rest =>
          have hblank := isWhitespace_of_trimEnd_eq_nil hstem c List.mem_cons_self
          have hfirst : isWhitespace c = false :=
            head?_trim (by rw [hwritten]; rfl)
          simp [hfirst] at hblank
      rw [hwritten, hnil] at hpiece
      exact Or.inr ⟨rfl, front, behind, by simpa [Token.chars] using hpiece,
        by simp [Token.chars]; rfl⟩
    · obtain ⟨tail, htail⟩ := trimEnd_prefix stem
      refine Or.inl ⟨front, tail ++ ['.', '.', '.'] ++ behind, ?_, by simp [Token.chars]⟩
      rw [hwritten, ← htail] at hpiece
      simpa [Token.chars] using hpiece

/-- A text without a comma is one piece; otherwise the first piece ends at a comma. -/
theorem splitAtCommas_cases (text : List Char) :
    splitAtCommas text = [text] ∨ ∃ piece later, text = piece ++ ',' :: later ∧
      splitAtCommas text = piece :: splitAtCommas later := by
  induction text with
  | nil => exact Or.inl rfl
  | cons c rest ih =>
    by_cases hcomma : c = ','
    · subst hcomma
      exact Or.inr ⟨[], rest, rfl, by simp [splitAtCommas]⟩
    · rcases ih with hrest | ⟨piece, later, rfl, hrest⟩
      · exact Or.inl (by simp [splitAtCommas, hcomma, hrest])
      · exact Or.inr ⟨c :: piece, later, rfl, by simp [splitAtCommas, hcomma, hrest]⟩

theorem parametersFrom_writtenIn (index offset : Nat) (inside : List Char) :
    ∀ p ∈ parametersFrom index offset (splitAtCommas inside), WrittenIn offset inside p.1 := by
  induction hn : inside.length using Nat.strongRecOn generalizing index offset inside with
  | ind n ih =>
    intro p hp
    rcases splitAtCommas_cases inside with hpieces | ⟨piece, later, rfl, hpieces⟩
    · rw [hpieces] at hp
      obtain rfl := List.mem_singleton.1 hp
      exact parameterOf_writtenIn index offset inside
    · rw [hpieces, parametersFrom] at hp
      rcases List.mem_cons.1 hp with rfl | hp
      · have hfront : piece ++ ',' :: later = [] ++ piece ++ ',' :: later := by simp
        exact WrittenIn.of_part hfront (parameterOf_writtenIn index offset piece)
      · have hlater : later.length < n := by
          rw [← hn, List.length_append, List.length_cons]
          omega
        have hstart : offset + byteLength (piece ++ [',']) = offset + byteLength piece + 1 := by
          rw [byteLength_append, ← Nat.add_assoc]
          rfl
        have hback : piece ++ ',' :: later = (piece ++ [',']) ++ later ++ [] := by simp
        exact WrittenIn.of_part hback (hstart ▸ ih _ hlater _ _ _ rfl p hp)

theorem readParameters_writtenIn (offset : Nat) (inside : List Char) :
    ∀ p ∈ (readParameters offset inside).1, WrittenIn offset inside p := by
  intro p hp
  unfold readParameters at hp
  split at hp
  · simp at hp
  · obtain ⟨q, hq, rfl⟩ := List.mem_map.1 hp
    exact parametersFrom_writtenIn 0 offset inside q hq

/-- The body stands in what is read of the text, with line continuations and comments blanked. -/
theorem readBody_standsIn {offset : Nat} {text : List Char} {b : Token}
    (h : readBody offset text = some b) :
    b.StandsIn offset (CommentBlanking.blankChars (joinLines text)) := by
  obtain ⟨front, behind, htext, -, -, hfront⟩ :=
    exists_trim (CommentBlanking.blankChars (joinLines text))
  unfold readBody at h
  simp only [hfront] at h
  split at h
  · simp at h
  · obtain rfl := Option.some.inj h
    exact ⟨front, behind, by simpa [Token.chars] using htext, by simp [Token.chars]⟩

/-- The second text is the first one with the bytes in some places overwritten by blanks and
newlines. -/
structure Overwrites (text result : List Char) (places : Nat → Prop) : Prop where
  byteLength_eq : byteLength result = byteLength text
  blank : ∀ i < byteLength text, places i →
    (utf8 result)[i]? = some 32 ∨ (utf8 result)[i]? = some 10
  kept : ∀ i, ¬ places i → (utf8 result)[i]? = (utf8 text)[i]?

namespace Overwrites

variable {text result first second : List Char} {places others : Nat → Prop}

theorem refl (text : List Char) : Overwrites text text fun _ => False where
  byteLength_eq := rfl
  blank _ _ h := h.elim
  kept _ _ := rfl

theorem of_blank (hlength : byteLength result = byteLength text)
    (hblank : ∀ c ∈ result, c = ' ' ∨ c = '\n') : Overwrites text result fun _ => True where
  byteLength_eq := hlength
  blank i hi _ := by
    have hbyte : ∀ byte ∈ utf8 result, byte = 32 ∨ byte = 10 := by
      intro byte hbyte
      obtain ⟨c, hc, hbyte⟩ := List.mem_flatMap.1 hbyte
      rcases hblank c hc with rfl | rfl
      · exact Or.inl (List.mem_singleton.1 hbyte)
      · exact Or.inr (List.mem_singleton.1 hbyte)
    rw [← hlength, ← length_utf8] at hi
    rw [List.getElem?_eq_getElem hi]
    exact (hbyte _ (List.getElem_mem hi)).imp (congrArg some) (congrArg some)
  kept _ h := absurd trivial h

theorem trans (h : Overwrites text first places) (h' : Overwrites first second others) :
    Overwrites text second fun i => places i ∨ others i where
  byteLength_eq := h'.byteLength_eq.trans h.byteLength_eq
  blank i hi hplaces := by
    by_cases hother : others i
    · exact h'.blank i (h.byteLength_eq ▸ hi) hother
    · rw [h'.kept i hother]
      exact h.blank i hi (hplaces.resolve_right hother)
  kept i hplaces := by
    rw [not_or] at hplaces
    rw [h'.kept i hplaces.2, h.kept i hplaces.1]

theorem append {text' result' : List Char} {all : Nat → Prop} (h : Overwrites text result places)
    (h' : Overwrites text' result' others)
    (hall : ∀ i, all i ↔ (i < byteLength text ∧ places i) ∨
      (byteLength text ≤ i ∧ others (i - byteLength text))) :
    Overwrites (text ++ text') (result ++ result') all where
  byteLength_eq := by rw [byteLength_append, byteLength_append, h.byteLength_eq, h'.byteLength_eq]
  blank i hi hplaces := by
    rw [byteLength_append] at hi
    rw [utf8_append]
    rcases (hall i).1 hplaces with ⟨hlt, hfirst⟩ | ⟨hle, hsecond⟩
    · rw [List.getElem?_append_left (by rwa [length_utf8, h.byteLength_eq])]
      exact h.blank i hlt hfirst
    · rw [List.getElem?_append_right (by rwa [length_utf8, h.byteLength_eq]), length_utf8,
        h.byteLength_eq]
      exact h'.blank _ (by omega) hsecond
  kept i hplaces := by
    rw [hall, not_or] at hplaces
    rw [utf8_append, utf8_append]
    by_cases hlt : i < byteLength text
    · rw [List.getElem?_append_left (by rwa [length_utf8, h.byteLength_eq]),
        List.getElem?_append_left (by rwa [length_utf8])]
      exact h.kept i fun hfirst => hplaces.1 ⟨hlt, hfirst⟩
    · have hle := Nat.le_of_not_lt hlt
      rw [List.getElem?_append_right (by rwa [length_utf8, h.byteLength_eq]),
        List.getElem?_append_right (by rwa [length_utf8]), length_utf8, length_utf8,
        h.byteLength_eq]
      exact h'.kept _ fun hsecond => hplaces.2 ⟨hle, hsecond⟩

end Overwrites

/-- The two spellings of a line continuation. -/
def continuations : List (List Char) := [['\\', '\n'], ['\\', '\x0d', '\n']]

/-- The byte at `i` of a text belongs to a line continuation. -/
def InContinuation (text : List Char) (i : Nat) : Prop :=
  ∃ mark ∈ continuations, ∃ start stop, StandsAt text start stop mark ∧ start ≤ i ∧ i < stop

/-- The byte at `i` of a text belongs to a comment outside bracket groups. -/
def InComment (text : List Char) (i : Nat) : Prop :=
  ∃ t ∈ TokenStream.ofChars .definitionBody 0 0 text, t.kind.isComment = true ∧
    t.span.start ≤ i ∧ i < t.span.stop

theorem inContinuation_cons_iff {c : Char} {text : List Char} {i : Nat} :
    InContinuation (c :: text) i ↔
      (∃ mark ∈ continuations, mark <+: c :: text ∧ i < byteLength mark) ∨
        (c.utf8Size ≤ i ∧ InContinuation text (i - c.utf8Size)) := by
  constructor
  · rintro ⟨mark, hmark, start, stop, ⟨before, behind, htext, rfl, rfl⟩, hstart, hstop⟩
    cases before with
    | nil => exact Or.inl ⟨mark, hmark, ⟨behind, by simpa using htext.symm⟩, by simpa using hstop⟩
    | cons d before =>
      obtain ⟨rfl, rfl⟩ := List.cons_eq_cons.1 htext
      rw [byteLength_cons] at hstart hstop
      exact Or.inr ⟨by omega, mark, hmark, _, _, ⟨before, behind, rfl, rfl, rfl⟩, by omega,
        by omega⟩
  · rintro (⟨mark, hmark, ⟨behind, hbehind⟩, hi⟩ | ⟨hi, mark, hmark, _, _, hstands, hstart, hstop⟩)
    · exact ⟨mark, hmark, 0, byteLength mark, ⟨[], behind, hbehind.symm, rfl, by simp⟩,
        by omega, hi⟩
    · obtain ⟨before, behind, rfl, rfl, rfl⟩ := hstands
      refine ⟨mark, hmark, _, _, ⟨c :: before, behind, by simp, rfl, rfl⟩, ?_, ?_⟩
      · rw [byteLength_cons]
        omega
      · rw [byteLength_cons]
        omega

/-- No line continuation starts inside another one. -/
theorem inContinuation_append_iff {mark text : List Char} (hmark : mark ∈ continuations) {i : Nat} :
    InContinuation (mark ++ text) i ↔ (i < byteLength mark ∧ True) ∨
      (byteLength mark ≤ i ∧ InContinuation text (i - byteLength mark)) := by
  obtain ⟨hbackslash, hreturn, hnewline⟩ :
      '\\'.utf8Size = 1 ∧ '\x0d'.utf8Size = 1 ∧ '\n'.utf8Size = 1 := ⟨rfl, rfl, rfl⟩
  simp only [continuations, List.mem_cons, List.not_mem_nil, or_false] at hmark
  rcases hmark with rfl | rfl
  · have hcons : InContinuation ('\\' :: '\n' :: text) i ↔
        i < 2 ∨ 1 ≤ i ∧ 1 ≤ i - 1 ∧ InContinuation text (i - 1 - 1) := by
      simp [inContinuation_cons_iff, continuations, hbackslash, hnewline]
    rw [Nat.sub_sub] at hcons
    refine hcons.trans (or_congr ?_ ?_)
    · simp [hbackslash, hnewline]
    · simp only [byteLength_cons, byteLength_nil, hbackslash, hnewline]
      exact ⟨fun ⟨_, _, h⟩ => ⟨by omega, h⟩, fun ⟨_, h⟩ => ⟨by omega, by omega, h⟩⟩
  · have hcons : InContinuation ('\\' :: '\x0d' :: '\n' :: text) i ↔
        i < 3 ∨ 1 ≤ i ∧ 1 ≤ i - 1 ∧ 1 ≤ i - 1 - 1 ∧ InContinuation text (i - 1 - 1 - 1) := by
      simp [inContinuation_cons_iff, continuations, hbackslash, hreturn, hnewline]
    rw [Nat.sub_sub, Nat.sub_sub] at hcons
    refine hcons.trans (or_congr ?_ ?_)
    · simp [hbackslash, hreturn, hnewline]
    · simp only [byteLength_cons, byteLength_nil, hbackslash, hreturn, hnewline]
      exact ⟨fun ⟨_, _, _, h⟩ => ⟨by omega, h⟩, fun ⟨_, h⟩ => ⟨by omega, by omega, by omega, h⟩⟩

/-- Joining lines overwrites the line continuations. -/
theorem overwrites_joinLines (text : List Char) :
    Overwrites text (joinLines text) (InContinuation text) := by
  fun_induction joinLines text with
  | case1 rest ih =>
    have hmark : Overwrites ['\\', '\x0d', '\n'] [' ', ' ', ' '] fun _ => True :=
      .of_blank rfl (by simp)
    exact hmark.append ih fun i => inContinuation_append_iff (.tail _ (.head _))
  | case2 rest ih =>
    have hmark : Overwrites ['\\', '\n'] [' ', ' '] fun _ => True := .of_blank rfl (by simp)
    exact hmark.append ih fun i => inContinuation_append_iff (.head _)
  | case3 c rest hreturn hnewline ih =>
    refine (Overwrites.refl [c]).append ih fun i => ?_
    have hnone : ¬ ∃ mark ∈ continuations, mark <+: c :: rest ∧ i < byteLength mark := by
      simp only [continuations, List.mem_cons, List.not_mem_nil, or_false]
      rintro ⟨_, rfl | rfl, ⟨behind, hbehind⟩, -⟩
      · obtain ⟨rfl, rfl⟩ := List.cons_eq_cons.1 hbehind
        exact hnewline behind rfl rfl
      · obtain ⟨rfl, rfl⟩ := List.cons_eq_cons.1 hbehind
        exact hreturn behind rfl rfl
    rw [inContinuation_cons_iff]
    simp [hnone]
  | case4 => exact ⟨rfl, fun i hi => absurd hi (Nat.not_lt_zero i), fun _ _ => rfl⟩

theorem overwrites_blankToken (t : Token) :
    Overwrites t.chars (CommentBlanking.blankToken t) fun _ => t.kind.isComment = true := by
  cases hcomment : t.kind.isComment with
  | false => simpa [CommentBlanking.blankToken, hcomment] using Overwrites.refl t.chars
  | true =>
    have hblank : ∀ c ∈ CommentBlanking.blankToken t, c = ' ' ∨ c = '\n' := by
      intro c hc
      rw [CommentBlanking.blankToken, if_pos hcomment] at hc
      obtain ⟨d, -, hd⟩ := List.mem_flatMap.1 hc
      unfold CommentBlanking.blankChar at hd
      split at hd
      · exact Or.inr (List.mem_singleton.1 hd)
      · exact Or.inl (List.eq_of_mem_replicate hd)
    simpa using Overwrites.of_blank (CommentBlanking.byteLength_blankToken t) hblank

/-- Among tokens that tile a text, the comments are overwritten. -/
theorem overwrites_tiles {index offset : Nat} {text : List Char} {tokens : List Token}
    (h : TokenCoverage.Tiles index offset text tokens) :
    Overwrites text (tokens.flatMap CommentBlanking.blankToken) fun i =>
      ∃ t ∈ tokens, t.kind.isComment = true ∧ t.span.start ≤ offset + i ∧
        offset + i < t.span.stop := by
  induction tokens generalizing index offset text with
  | nil =>
    obtain rfl := h
    exact ⟨rfl, fun i hi => absurd hi (Nat.not_lt_zero i), fun _ _ => rfl⟩
  | cons t rest ih =>
    obtain ⟨-, hspan, -, behind, rfl, hrest⟩ := h
    refine (overwrites_blankToken t).append (ih hrest) fun i => ?_
    rw [List.exists_mem_cons_iff, hspan]
    constructor
    · rintro (⟨hcomment, hstart, hstop⟩ | ⟨u, hu, hcomment, hstart, hstop⟩)
      · exact Or.inl ⟨by dsimp only at hstop; omega, hcomment⟩
      · have hlater := (hrest.standsAt hu).1
        exact Or.inr ⟨by omega, u, hu, hcomment, by omega, by omega⟩
    · rintro (⟨hlt, hcomment⟩ | ⟨hle, u, hu, hcomment, hstart, hstop⟩)
      · exact Or.inl ⟨hcomment, by dsimp only; omega, by dsimp only; omega⟩
      · exact Or.inr ⟨u, hu, hcomment, by omega, by omega⟩

/-- Blanking overwrites the comments. -/
theorem overwrites_blankChars (text : List Char) :
    Overwrites text (CommentBlanking.blankChars text) (InComment text) := by
  have h := overwrites_tiles (TokenCoverage.tiles_ofChars .definitionBody 0 0 text)
  simp only [Nat.zero_add] at h
  exact h

/-- The byte at `i` of the text that a body is read from is blanked: it belongs to a line
continuation, or to a comment once lines are joined. -/
def Blanked (text : List Char) (i : Nat) : Prop :=
  InContinuation text i ∨ InComment (joinLines text) i

theorem overwrites_cleaned (text : List Char) :
    Overwrites text (CommentBlanking.blankChars (joinLines text)) (Blanked text) :=
  (overwrites_joinLines text).trans (overwrites_blankChars (joinLines text))

theorem getElem?_utf8_of_part {text before part behind : List Char}
    (htext : text = before ++ part ++ behind) {i : Nat} (hi : i < byteLength part) :
    (utf8 text)[byteLength before + i]? = (utf8 part)[i]? := by
  rw [htext, utf8_append, utf8_append, List.append_assoc, List.getElem?_append_right
    (by rw [length_utf8]; omega), length_utf8, Nat.add_sub_cancel_left,
    List.getElem?_append_left (by rwa [length_utf8])]

/-- The body of a definition has the bytes of the file in its range, but for those that are blanked.
The text that it is read from starts at byte `start`. -/
structure BodyBytes (base : Nat) (text : List Char) (start : Nat) (behind : List Char) (b : Token) :
    Prop where
  length_eq : b.span.length = byteLength b.chars
  start_le : start ≤ b.span.start
  kept : ∀ i < b.span.length, ¬ Blanked behind (b.span.start - start + i) →
    (utf8 b.chars)[i]? = (utf8 text)[b.span.start - base + i]?
  blank : ∀ i < b.span.length, Blanked behind (b.span.start - start + i) →
    (utf8 b.chars)[i]? = some 32 ∨ (utf8 b.chars)[i]? = some 10

theorem bodyBytes_of_readBody {base : Nat} {text before behind rest : List Char} {b : Token}
    (htext : text = before ++ rest ++ behind)
    (h : readBody (base + byteLength before) rest = some b) :
    BodyBytes base text (base + byteLength before) rest b := by
  obtain ⟨front, tail, hcleaned, hspan⟩ := readBody_standsIn h
  have hover := overwrites_cleaned rest
  have hlength : b.span.length = byteLength b.chars := by
    rw [hspan, Span.length]
    exact Nat.add_sub_cancel_left _ _
  have hinside : byteLength front + byteLength b.chars ≤ byteLength rest := by
    rw [← hover.byteLength_eq, hcleaned, byteLength_append, byteLength_append]
    omega
  have hstart : b.span.start = base + byteLength before + byteLength front := by rw [hspan]
  have hbyte (i : Nat) (hi : i < b.span.length) :
      (utf8 (CommentBlanking.blankChars (joinLines rest)))[byteLength front + i]? =
        (utf8 b.chars)[i]? :=
    getElem?_utf8_of_part hcleaned (hlength ▸ hi)
  have hoffset (i : Nat) :
      b.span.start - (base + byteLength before) + i = byteLength front + i := by
    omega
  refine ⟨hlength, by omega, fun i hi hkept => ?_, fun i hi hblank => ?_⟩
  · have hplace : b.span.start - base + i = byteLength before + (byteLength front + i) := by omega
    rw [← hbyte i hi, hover.kept _ (hoffset i ▸ hkept), hplace]
    exact (getElem?_utf8_of_part htext (by omega)).symm
  · rw [← hbyte i hi]
    exact hover.blank _ (by omega) (hoffset i ▸ hblank)

/-- The name of a definition and its parameters are written in the file at their ranges. The body
has the bytes that stand there, but for blanks and newlines in place of line continuations and of
the comments that are outside bracket groups. -/
theorem spans_in_file {base : Nat} {text : List Char} {t : Token} {m : MacroDefinition}
    (ht : t.StandsIn base text) (hm : ofDirective? t = some m) :
    m.name.StandsIn base text ∧
      (∀ parameters, m.parameters = some parameters →
        ∀ p ∈ parameters, WrittenIn base text p) ∧
      ∃ (head : DefinitionHead) (rest : List Char), t.chars = head.written ++ rest ∧
        head.Fits rest ∧ ∀ b, m.body = some b →
          BodyBytes base text (t.span.start + byteLength head.written) rest b := by
  obtain ⟨head, rest, hchars, hrest, rfl⟩ := DefinitionHead.ofDirective?_eq_some_iff.1 hm
  obtain ⟨before, behind, htext, hspan⟩ := ht
  have hstart : t.span.start = base + byteLength before := by rw [hspan]
  refine ⟨?_, ?_, head, rest, hchars, hrest, ?_⟩
  · have hname : text = (before ++ head.lead) ++ head.name ++ (head.parens ++ rest ++ behind) := by
      rw [htext, hchars, DefinitionHead.written]
      simp only [List.append_assoc]
    refine ⟨before ++ head.lead, head.parens ++ rest ++ behind, ?_, ?_⟩
    · simpa [DefinitionHead.definition, Token.chars] using hname
    · simp [DefinitionHead.definition, Token.chars, hstart, Nat.add_assoc]
  · intro parameters hparameters p hp
    obtain ⟨inside, hlist, rfl⟩ := Option.map_eq_some_iff.1 hparameters
    have hinside : text = (before ++ head.lead ++ head.name ++ ['(']) ++ inside ++
        (')' :: rest ++ behind) := by
      rw [htext, hchars, DefinitionHead.written, DefinitionHead.parens, hlist]
      simp
    have hlistStart : base + byteLength (before ++ head.lead ++ head.name ++ ['(']) =
        head.listStart t.span.start := by
      simp only [DefinitionHead.listStart, byteLength_append, byteLength_cons, byteLength_nil,
        hstart]
      rw [show '('.utf8Size = 1 from rfl]
      omega
    have hwritten := readParameters_writtenIn _ _ p hp
    rw [← hlistStart] at hwritten
    exact hwritten.of_part hinside
  · intro b hb
    have hbehind : text = (before ++ head.written) ++ rest ++ behind := by
      rw [htext, hchars, ← List.append_assoc]
    have hbodyStart : t.span.start + byteLength head.written =
        base + byteLength (before ++ head.written) := by
      rw [byteLength_append, hstart, Nat.add_assoc]
    rw [hbodyStart]
    exact bodyBytes_of_readBody hbehind (hbodyStart ▸ hb)

/-- A macro with a name for its surplus arguments, a comment and a line continuation. -/
theorem variadic_macro_in_file :
    let text := "#define F(a, ...) 1 /* x */ \\\n + a"
    ∃ t m b, t ∈ TokenStream.ofSource 0 text ∧ ofDirective? t = some m ∧
      m.name.StandsIn 0 text.toList ∧
      m.parameters.map TokenList.texts = some ["a", variadicName] ∧
      (∀ p ∈ m.parameters.getD [], WrittenIn 0 text.toList p) ∧
      m.body = some b ∧ b.text = "1            + a" ∧
      ∃ start rest, BodyBytes 0 text.toList start rest b := by
  intro text
  let t := (TokenStream.ofSource 0 text).head?.getD default
  let m := (ofDirective? t).getD default
  let b := m.body.getD default
  obtain ⟨hmem, hm, hparameters, hbody, htext⟩ : t ∈ TokenStream.ofSource 0 text ∧
      ofDirective? t = some m ∧ m.parameters.map TokenList.texts = some ["a", variadicName] ∧
      m.body = some b ∧ b.text = "1            + a" := by
    decide +kernel
  obtain ⟨hname, hwritten, head, rest, -, -, hbytes⟩ :=
    spans_in_file (Token.readFrom_of_mem_ofSource hmem).stands hm
  obtain ⟨parameters, hlist, -⟩ := Option.map_eq_some_iff.1 hparameters
  refine ⟨t, m, b, hmem, hm, hname, hparameters, ?_, hbody, htext, _, rest, hbytes b hbody⟩
  rw [hlist]
  exact hwritten parameters hlist

/-- A comment inside a bracket group stays in the body, where one outside is blanked. -/
theorem comment_in_parentheses_kept :
    let body := fun text => ((TokenStream.ofSource 0 text).head?.bind ofDirective?).bind fun m =>
      m.body.map fun b => (b.span, b.text)
    body "#define X 1 /* one */ + 1" = some (⟨10, 25⟩, "1           + 1") ∧
      body "#define X (1 /* one */)" = some (⟨10, 23⟩, "(1 /* one */)") ∧
      (TokenStream.ofSource 11 "1 /* one */").map (fun t => (t.kind.isComment, t.span)) =
        [(false, ⟨11, 12⟩), (false, ⟨12, 13⟩), (true, ⟨13, 22⟩)] := by
  decide +kernel

end MacroDefinition

end CBoundary
