import CBoundary.Proofs.TextBehind
import CBoundary.Proofs.WordRuns

/-!
Bodies that mention their parameter once, plain or quoted, and have nothing else to expand: in front
of the mention and behind it stand words that name no macro, and characters that start no literal,
comment, directive or joining. The argument is put into this frame, and a scan leaves the frame as
it is, whatever macros are set aside. Main statements: `Inert.expand_append`,
`Frame.substituted_plain` and `Frame.substituted_quoted`.
-/
namespace CBoundary.MacroExpansion

open CharacterClass Substitution

/-- A character that is no part of a word and starts no literal, comment, directive or joining. -/
def isNeutral (c : Char) : Bool := !isWordChar c && !List.contains ['"', '\'', '/', '#'] c

/-- A text of words that are allowed and of neutral characters. -/
inductive Inert (allowed : List Char → Prop) : List Char → Prop
  | nil : Inert allowed []
  | word {word rest : List Char} (hword : IsWord word rest) (hallowed : allowed word)
      (hrest : Inert allowed rest) : Inert allowed (word ++ rest)
  | neutral {c : Char} {rest : List Char} (hc : isNeutral c = true) (hrest : Inert allowed rest) :
      Inert allowed (c :: rest)

variable {allowed : List Char → Prop} {table : MacroTable} {aside : List String}
  {text left right front back behind word : List Char}

theorem isNeutral_iff {c : Char} :
    isNeutral c = true ↔ isWordChar c = false ∧ c ≠ '"' ∧ c ≠ '\'' ∧ c ≠ '/' ∧ c ≠ '#' := by
  simp [isNeutral]

/-- What starts nothing is a stretch of its own, whatever stands behind it. -/
theorem neutral_stands {c : Char} (hc : isNeutral c = true) (table : MacroTable)
    (aside : List String) (behind : List Char) : (Stretch.mark c).Stands table aside behind := by
  obtain ⟨hword, hdouble, hsingle, hslash, hsign⟩ := isNeutral_iff.1 hc
  refine ⟨hword, fun part after hpart heq => ?_⟩
  cases part with
  | lineComment line => exact hslash (List.cons.inj heq).1
  | blockComment inside => exact hslash (List.cons.inj heq).1
  | literal quote inside =>
    obtain rfl := (List.cons.inj heq).1
    exact hpart.1.elim hdouble hsingle
  | directive line => exact hsign (List.cons.inj heq).1

/-- Two texts that are apart are apart from the last part of the first one on. -/
theorem Apart.of_append (h : Apart (left ++ right) behind) : Apart right behind :=
  fun a ha => h a (List.mem_getLast?_append_of_mem_getLast? ha)

theorem Apart.of_cons {c : Char} (h : Apart (c :: right) behind) : Apart right behind :=
  of_append (List.singleton_append ▸ h)

theorem Apart.append_right (h : Apart left right) (hne : right ≠ []) (behind : List Char) :
    Apart left (right ++ behind) := by
  intro a ha b hb
  rw [List.head?_append_of_ne_nil _ hne] at hb
  exact h a ha b hb

/-- A word ends where it did when the text behind it goes on, unless that goes on with the word. -/
theorem IsWord.append {rest : List Char} (hw : IsWord word rest) (h : Apart (word ++ rest) behind) :
    IsWord word (rest ++ behind) := by
  refine ⟨hw.nonempty, hw.wordChars, fun c hc => ?_⟩
  cases rest with
  | cons d rest => exact hw.stops c hc
  | nil =>
    obtain ⟨last, hlast, hchar⟩ := hw.getLast?
    rw [List.append_nil] at h
    exact (h last hlast c hc).resolve_left (by simp [hchar])

namespace Inert

theorem append (hleft : Inert allowed left) (hright : Inert allowed right)
    (h : Apart left right) : Inert allowed (left ++ right) := by
  induction hleft with
  | nil => exact hright
  | word hword hallowed hrest ih =>
    rw [List.append_assoc]
    exact .word (hword.append h) hallowed (ih h.of_append)
  | @neutral c rest hc hrest ih => exact .neutral hc (ih (Apart.of_cons h))

theorem mono {other : List Char → Prop} (h : Inert allowed text)
    (hother : ∀ word, allowed word → other word) : Inert other text := by
  induction h with
  | nil => exact .nil
  | word hword hallowed hrest ih => exact .word hword (hother _ hallowed) ih
  | neutral hc hrest ih => exact .neutral hc ih

/-- The characters of an inert text start no comment, directive or joining. -/
theorem not_mem (h : Inert allowed text) : '/' ∉ text ∧ '#' ∉ text := by
  induction h with
  | nil => simp
  | word hword hallowed hrest ih =>
    have hslash : '/' ∉ _ := fun hmem => absurd (hword.wordChars '/' hmem) (by decide)
    have hsign : '#' ∉ _ := fun hmem => absurd (hword.wordChars '#' hmem) (by decide)
    exact ⟨by simp [hslash, ih.1], by simp [hsign, ih.2]⟩
  | neutral hc hrest ih =>
    obtain ⟨-, -, -, hslash, hsign⟩ := isNeutral_iff.1 hc
    exact ⟨by simp [Ne.symm hslash, ih.1], by simp [Ne.symm hsign, ih.2]⟩

/-- Arguments are put in behind an inert text that mentions no parameter as if it were not there. -/
theorem substitute_append {bindings : List Binding} (h : Inert allowed front)
    (hnone : ∀ word, allowed word → find? bindings word = none) (hapart : Apart front behind)
    (hsign : ¬ ['#', '#'] <:+: front ++ behind) :
    substitute bindings (front ++ behind) = front ++ substitute bindings behind := by
  induction h with
  | nil => rfl
  | @word word rest hword hallowed hrest ih =>
    rw [List.append_assoc] at hsign ⊢
    have hless : ¬ ['#', '#'] <:+: rest ++ behind :=
      fun hinside => hsign (hinside.trans (List.suffix_append ..).isInfix)
    rw [substitute_word (hword.append hapart) hless, ih hapart.of_append hless, plain,
      hnone word hallowed, List.append_assoc]
    rfl
  | @neutral c rest hc hrest ih =>
    obtain ⟨hword, hdouble, hsingle, -, hnumber⟩ := isNeutral_iff.1 hc
    have hless : ¬ ['#', '#'] <:+: rest ++ behind :=
      fun hinside => hsign (hinside.trans (List.suffix_cons ..).isInfix)
    have hopen : IsQuote c → Extent.quoted c '\\' (rest ++ behind) = none :=
      fun hquote => hquote.elim (absurd · hdouble) (absurd · hsingle)
    rw [List.cons_append, substitute, step_mark bindings hword hopen hnumber]
    exact congrArg (c :: ·) (ih (Apart.of_cons hapart) hless)

/-- A scan copies an inert text that names no macro, and goes on behind it. -/
theorem expand_append (h : Inert allowed front)
    (hforeign : ∀ word, allowed word → table.get? (String.ofList word) = none)
    (hapart : Apart front behind) (aside : List String) :
    expand table aside (front ++ behind) =
      Expansion.join [Expansion.copied front, expand table aside behind] := by
  induction h with
  | nil => simp [Expansion.join, Expansion.copied]
  | @word word rest hword hallowed hrest ih =>
    have hstands : (Stretch.word word).Stands table aside (rest ++ behind) :=
      word_stands_of_unregistered (hword.append hapart) (hforeign word hallowed)
    rw [List.append_assoc]
    refine (expand_stretch hstands).trans ?_
    rw [ih hapart.of_append]
    simp [Expansion.join, Expansion.copied, Stretch.expansion, Stretch.written]
  | @neutral c rest hc hrest ih =>
    refine (expand_stretch (neutral_stands hc table aside (rest ++ behind))).trans ?_
    rw [ih (Apart.of_cons hapart)]
    simp [Expansion.join, Expansion.copied, Stretch.expansion, Stretch.written]

theorem expand_eq (h : Inert allowed text)
    (hforeign : ∀ word, allowed word → table.get? (String.ofList word) = none)
    (aside : List String) : expand table aside text = Expansion.copied text := by
  have hwhole := h.expand_append hforeign apart_nil aside
  rw [List.append_nil, expand_nil] at hwhole
  rw [hwhole]
  simp [Expansion.join, Expansion.copied]

end Inert

/-- A word that neither names a macro nor is the parameter. -/
def Foreign (table : MacroTable) (parameter : Token) (word : List Char) : Prop :=
  table.get? (String.ofList word) = none ∧ word ≠ parameter.chars

/-- A body around a mention of the parameter. -/
structure Frame (table : MacroTable) (parameter : Token) (mention front back : List Char) :
    Prop where
  inertFront : Inert (Foreign table parameter) front
  frontApart : Apart front mention
  inertBack : Inert (Foreign table parameter) back
  backApart : Apart mention back

section Frame

variable {definition : MacroDefinition} {parameter body : Token}

theorem find?_eq_none_of_foreign (argument : List Char × List Char) {word : List Char}
    (h : Foreign table parameter word) : find? (bound [parameter] [argument]) word = none := by
  simp [bound, find?, Ne.symm h.2]

/-- The parameter is a word in front of the rest of the body. -/
theorem OneParameter.isWord (h : OneParameter table word definition parameter body)
    (hapart : Apart parameter.chars back) : IsWord parameter.chars back := by
  have hw : IsWord parameter.chars [] := ⟨h.nonempty, h.wordChars, by simp⟩
  exact hw.append (by rwa [List.append_nil])

/-- A body with one number sign at most has nothing to join. -/
theorem not_join_of_inert {mention : List Char} (hfront : Inert allowed front)
    (hback : Inert allowed back) (hmention : mention.count '#' ≤ 1) :
    ¬ ['#', '#'] <:+: front ++ (mention ++ back) := by
  intro hinside
  have hcount := hinside.sublist.count_le '#'
  rw [List.count_append, List.count_append, List.count_eq_zero.2 hfront.not_mem.2,
    List.count_eq_zero.2 hback.not_mem.2] at hcount
  have htwo : ['#', '#'].count '#' = 2 := rfl
  omega

theorem Inert.substitute_eq {argument : List Char × List Char}
    (h : Inert (Foreign table parameter) text) :
    substitute (bound [parameter] [argument]) text = text := by
  have hnone : ¬ ['#', '#'] <:+: text ++ [] := by
    rw [List.append_nil]
    exact fun hinside => h.not_mem.2 (hinside.subset List.mem_cons_self)
  have hwhole := h.substitute_append (fun _ => find?_eq_none_of_foreign argument) apart_nil hnone
  rwa [substitute, List.append_nil] at hwhole

/-- A mention that is plain becomes the argument expanded, in the frame of the body. -/
theorem Frame.substituted_plain (h : OneParameter table word definition parameter body)
    (hframe : Frame table parameter parameter.chars front back)
    (argument : List Char × List Char) :
    substituted [parameter] [argument] (front ++ (parameter.chars ++ back)) =
      front ++ (argument.2 ++ back) := by
  have hword := h.isWord hframe.backApart
  have hmention : parameter.chars.count '#' = 0 :=
    List.count_eq_zero.2 fun hmem => absurd (h.wordChars '#' hmem) (by decide)
  have hnone : ¬ ['#', '#'] <:+: back :=
    fun hinside => hframe.inertBack.not_mem.2 (hinside.subset List.mem_cons_self)
  have hapart := hframe.frontApart.append_right h.nonempty back
  rw [substituted, hframe.inertFront.substitute_append (fun _ => find?_eq_none_of_foreign argument)
    hapart (not_join_of_inert hframe.inertFront hframe.inertBack (by omega)),
    substitute_word hword hnone, hframe.inertBack.substitute_eq, plain]
  simp [bound, find?]

/-- A number sign in front of the parameter makes it the literal of the argument as written. -/
theorem substitute_quotation (h : OneParameter table word definition parameter body)
    (hapart : Apart parameter.chars back) (argument : List Char × List Char) :
    substitute (bound [parameter] [argument]) ('#' :: (parameter.chars ++ back)) =
      LiteralEscape.quote argument.1 ++ substitute (bound [parameter] [argument]) back := by
  have hword := h.isWord hapart
  obtain ⟨c, rest, hchars⟩ := List.exists_cons_of_ne_nil h.nonempty
  have hc : isWordChar c = true := h.wordChars c (by simp [hchars])
  have hblank : (parameter.chars ++ back).dropWhile isBlank = parameter.chars ++ back := by
    simp [hchars, isBlank_of_isWordChar hc]
  have hnext : ∀ more, parameter.chars ++ back ≠ '#' :: more := by
    intro more heq
    rw [hchars] at heq
    exact ne_of_isWordChar hc (by decide) (List.cons.inj heq).1
  rw [substitute, step_number_sign _ hnext, hblank, takeWhile_of_isWord hword,
    dropWhile_of_isWord hword, if_neg h.nonempty]
  simp [quoted, bound, find?]

/-- A mention that is quoted becomes the literal of the argument as written, in the frame of the
body. -/
theorem Frame.substituted_quoted (h : OneParameter table word definition parameter body)
    (hframe : Frame table parameter ('#' :: parameter.chars) front back)
    (argument : List Char × List Char) :
    substituted [parameter] [argument] (front ++ ('#' :: parameter.chars ++ back)) =
      front ++ (LiteralEscape.quote argument.1 ++ back) := by
  have hmention : ('#' :: parameter.chars).count '#' ≤ 1 := by
    rw [List.count_cons_self, List.count_eq_zero.2
      fun hmem => absurd (h.wordChars '#' hmem) (by decide)]
  have hapart := hframe.frontApart.append_right (List.cons_ne_nil _ _) back
  rw [substituted, hframe.inertFront.substitute_append
      (fun _ => find?_eq_none_of_foreign argument) hapart
      (not_join_of_inert hframe.inertFront hframe.inertBack hmention), List.cons_append,
    substitute_quotation h hframe.backApart.of_cons, hframe.inertBack.substitute_eq]

variable {argument : List Char}

end Frame

section Frame

variable {definition : MacroDefinition} {parameter body : Token}

/-- Nothing goes on with a word of the frame in front of a plain mention. -/
theorem Frame.apart_front (h : OneParameter table word definition parameter body)
    (hframe : Frame table parameter parameter.chars front back) (right : List Char) :
    Apart front right := by
  obtain ⟨c, rest, hchars⟩ := List.exists_cons_of_ne_nil h.nonempty
  intro a ha b _
  refine .inl ((hframe.frontApart a ha c (by simp [hchars])).resolve_right ?_)
  simp [h.wordChars c (by simp [hchars])]

/-- No word goes on in the frame behind a plain mention. -/
theorem Frame.apart_back (h : OneParameter table word definition parameter body)
    (hframe : Frame table parameter parameter.chars front back) (left : List Char) :
    Apart left back := by
  intro a _ b hb
  have hlast := List.getLast?_eq_some_getLast h.nonempty
  refine .inr ((hframe.backApart _ hlast b hb).resolve_left ?_)
  simp [h.wordChars _ (List.getLast_mem h.nonempty)]

end Frame

/-- A text between words that name no macro and neutral characters. -/
def Framed (table : MacroTable) (core text : List Char) : Prop :=
  ∃ front back, text = front ++ (core ++ back) ∧
    (Inert (fun word => table.get? (String.ofList word) = none) front ∧ Apart front core) ∧
    Inert (fun word => table.get? (String.ofList word) = none) back ∧ Apart core back

theorem apart_append_left (hleft : Apart left behind) (hright : Apart right behind) :
    Apart (left ++ right) behind := by
  intro a ha
  rcases List.eq_nil_or_concat right with rfl | ⟨right, last, rfl⟩
  · exact hleft a (by rwa [List.append_nil] at ha)
  · refine hright a ?_
    rw [List.concat_eq_append] at ha ⊢
    rw [← List.append_assoc, List.getLast?_concat] at ha
    rwa [List.getLast?_concat]

theorem apart_append_right (hleft : Apart front left) (hright : Apart front right) :
    Apart front (left ++ right) := by
  cases left with
  | nil => exact hright
  | cons c left => exact fun a ha b hb => hleft a ha b hb

namespace Framed

variable {core : List Char}

theorem refl (table : MacroTable) (core : List Char) : Framed table core core :=
  ⟨[], [], by simp, ⟨.nil, by intro a ha; simp at ha⟩, .nil, apart_nil⟩

/-- What is put in for a plain mention stays framed. -/
theorem around (h : Framed table core text) {definition : MacroDefinition} {parameter body : Token}
    (hone : OneParameter table word definition parameter body)
    (hframe : Frame table parameter parameter.chars front back) :
    Framed table core (front ++ (text ++ back)) := by
  obtain ⟨inFront, behind, rfl, ⟨hinFront, hfrontApart⟩, hbehind, hbackApart⟩ := h
  refine ⟨front ++ inFront, behind ++ back, by simp, ⟨?_, ?_⟩, ?_, ?_⟩
  · exact (hframe.inertFront.mono fun _ h => h.1).append hinFront (hframe.apart_front hone _)
  · exact apart_append_left (hframe.apart_front hone _) hfrontApart
  · exact hbehind.append (hframe.inertBack.mono fun _ h => h.1) (hframe.apart_back hone _)
  · exact apart_append_right hbackApart (hframe.apart_back hone _)

/-- So does the literal that is put in for a quoted one. -/
theorem quotation {parameter : Token} {mention : List Char}
    (hframe : Frame table parameter mention front back) (written : List Char) :
    Framed table (LiteralEscape.quote written)
      (front ++ (LiteralEscape.quote written ++ back)) := by
  refine ⟨front, back, rfl, ⟨hframe.inertFront.mono fun _ h => h.1, apart_mark (by decide)⟩,
    hframe.inertBack.mono fun _ h => h.1, ?_⟩
  exact apart_append_mark ('"' :: LiteralEscape.escapeChars written) (by decide)

/-- A scan leaves the frame as it is. -/
theorem expand_eq (h : Framed table core text) (hne : core ≠ []) {errors : List ArityError}
    (hcore : ∀ behind, '/' ∉ behind → expand table aside (core ++ behind) =
      Expansion.join [⟨core, errors⟩, expand table aside behind]) :
    expand table aside text = ⟨text, errors⟩ := by
  obtain ⟨front, back, rfl, ⟨hfront, hapart⟩, hback, -⟩ := h
  rw [hfront.expand_append (fun _ h => h) (hapart.append_right hne back) aside,
    hcore back hback.not_mem.1, hback.expand_eq (fun _ h => h) aside]
  simp [Expansion.join, Expansion.copied]

end Framed

end CBoundary.MacroExpansion
