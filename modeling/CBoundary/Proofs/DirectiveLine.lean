import CBoundary.Proofs.InvocationRange

/-!
Directive lines under expansion. A directive is a line whose first character that is no blank is a
number sign, and it goes on to its first newline that is not escaped, or to the end of the text.
Where no comment, literal or call reaches over the number sign, and there is a newline behind it,
the directive is one that expansion skips, or the rest of one whose newlines so far were escaped;
either way it is copied. Main statement: `directive_copied`. Without a newline behind it the number
sign is a single character like others, and names behind it are expanded: `last_directive_expanded`.
-/
namespace CBoundary

open CharacterClass

namespace Extent

variable {α : Type} {stop escape u : α} {run rest behind units : List α}

theorem IsLine.of_plain (hstop : u ≠ stop) (hescape : u ≠ escape)
    (h : IsLine stop escape (u :: run) behind) : IsLine stop escape run behind := by
  rcases h with ⟨body, hbody, hpasses⟩ | ⟨rfl, hnever⟩
  · cases hpasses with
    | nil => exact absurd (List.cons.inj hbody).1 hstop
    | plain hstop' hescape' hrest => exact .inl ⟨_, (List.cons.inj hbody).2, hrest⟩
    | escaped v hrest => exact absurd (List.cons.inj hbody).1 hescape
  · refine .inr ⟨rfl, fun body hbody hpre => ?_⟩
    exact hnever (u :: body) (hbody.plain hstop hescape) (List.cons_prefix_cons.2 ⟨rfl, hpre⟩)

theorem IsLine.of_escaped (hne : escape ≠ stop)
    (h : IsLine stop escape (escape :: u :: run) behind) : IsLine stop escape run behind := by
  rcases h with ⟨body, hbody, hpasses⟩ | ⟨rfl, hnever⟩
  · cases hpasses with
    | nil => exact absurd (List.cons.inj hbody).1 hne
    | plain hstop hescape hrest => exact absurd (List.cons.inj hbody).1.symm hescape
    | escaped v hrest => exact .inl ⟨_, (List.cons.inj (List.cons.inj hbody).2).2, hrest⟩
  · refine .inr ⟨rfl, fun body hbody hpre => ?_⟩
    exact hnever (escape :: u :: body) (hbody.escaped u)
      (List.cons_prefix_cons.2 ⟨rfl, List.cons_prefix_cons.2 ⟨rfl, hpre⟩⟩)

theorem Passes.append (h : Passes stop escape run) (h' : Passes stop escape rest) :
    Passes stop escape (run ++ rest) := by
  induction h with
  | nil => exact h'
  | plain hstop hescape _ ih => exact ih.plain hstop hescape
  | escaped u _ ih => exact ih.escaped u

theorem passes_of_plain (hstop : stop ∉ run) (hescape : escape ∉ run) :
    Passes stop escape run := by
  induction run with
  | nil => exact .nil
  | cons u run ih =>
    rw [List.mem_cons, not_or] at hstop hescape
    exact .plain (Ne.symm hstop.1) (Ne.symm hescape.1) (ih hstop.2 hescape.2)

theorem neverStops_of_not_mem (h : stop ∉ units) : NeverStops stop escape units := by
  intro run hrun hpre
  exact h (hpre.subset (by simp))

/-- A line is over with a newline that nothing stands in front of. -/
theorem IsLine.eq_nil_of_stop (hne : escape ≠ stop) (h : IsLine stop escape (stop :: run) behind) :
    run = [] := by
  rcases h with ⟨body, hbody, hpasses⟩ | ⟨rfl, hnever⟩
  · cases hpasses with
    | nil => exact (List.cons.inj hbody).2
    | plain hstop hescape hrest => exact absurd (List.cons.inj hbody).1.symm hstop
    | escaped v hrest => exact absurd (List.cons.inj hbody).1.symm hne
  · exact absurd (List.cons_prefix_cons.2 ⟨rfl, List.nil_prefix⟩) (hnever [] .nil)

/-- A newline inside a line is escaped, so what stands behind it is the rest of the line. -/
theorem IsLine.behind_newline (hne : escape ≠ stop) (hrest : rest ≠ [])
    (h : IsLine stop escape (run ++ stop :: rest) behind) : IsLine stop escape rest behind := by
  induction hn : run.length using Nat.strongRecOn generalizing run with
  | ind n ih =>
    subst hn
    match run with
    | [] => exact absurd (h.eq_nil_of_stop hne) hrest
    | [u] =>
      by_cases hescape : u = escape
      · subst hescape
        exact h.of_escaped hne
      · by_cases hstop : u = stop
        · subst hstop
          exact absurd (h.eq_nil_of_stop hne) (by simp)
        · exact absurd ((h.of_plain hstop hescape).eq_nil_of_stop hne) hrest
    | u :: v :: run =>
      by_cases hescape : u = escape
      · subst hescape
        exact ih run.length (by simp only [List.length_cons]; omega) (h.of_escaped hne) rfl
      · by_cases hstop : u = stop
        · subst hstop
          exact absurd (h.eq_nil_of_stop hne) (by simp)
        · exact ih (v :: run).length (by simp) (h.of_plain hstop hescape) rfl

theorem IsLine.behind_plain (hplain : ∀ c ∈ run, c ≠ stop ∧ c ≠ escape)
    (h : IsLine stop escape (run ++ rest) behind) : IsLine stop escape rest behind := by
  induction run with
  | nil => exact h
  | cons u run ih =>
    obtain ⟨hstop, hescape⟩ := hplain u List.mem_cons_self
    exact ih (fun c hc => hplain c (List.mem_cons_of_mem u hc)) (h.of_plain hstop hescape)

/-- A text starts with one line only. -/
theorem IsLine.unique [DecidableEq α] {other after : List α} (hne : escape ≠ stop)
    (h : IsLine stop escape run behind) (h' : IsLine stop escape other after)
    (hsplit : run ++ behind = other ++ after) : run = other ∧ behind = after := by
  have hlength : run.length = other.length := by
    rw [← h.line_eq hne, hsplit, h'.line_eq hne]
  exact List.append_inj hsplit hlength

end Extent

/-- The text that a piece stands for. -/
def Piece.written : Piece → List Char
  | copied written => written
  | name macroName _ => macroName.toList
  | call _ _ _ written _ => written

namespace MacroExpansion

open Extent

/-- Nothing but blanks stands between the start of a line and the end of `front`. -/
def StartsLine (front : List Char) : Prop :=
  ∃ lines blanks, front = lines ++ blanks ∧ (lines = [] ∨ lines.getLast? = some '\n') ∧
    ∀ c ∈ blanks, isBlank c = true

/-- The text has a directive behind `front`: a number sign that is the first character of its line
but for blanks, and what follows it up to a newline that is not escaped or to the end. -/
structure IsDirective (text front line behind : List Char) : Prop where
  split : text = front ++ '#' :: (line ++ behind)
  startsLine : StartsLine front
  isLine : IsLine '\n' '\\' line behind

/-- The character behind `front` belongs to the stretch. -/
def Holds (table : MacroTable) (text front : List Char) (s : Stretch) : Prop :=
  ∃ before lead c tail after, Reads table [] text (before ++ s :: after) ∧
    front = before.flatMap Stretch.written ++ lead ∧ s.written = lead ++ c :: tail

/-- The stretch is a comment, a literal or a call. -/
def Stretch.encloses : Stretch → Prop
  | skipped (.lineComment _) | skipped (.blockComment _) | skipped (.literal _ _) => True
  | skipped (.directive _) => False
  | invocation (.call _ _ _ _ _) => True
  | invocation (.name _ _) => False
  | word _ | mark _ => False

variable {table : MacroTable} {aside : List String} {text front line behind : List Char}
  {s : Stretch}

theorem blank_ne {c : Char} (h : isBlank c = true) : c ≠ '\n' ∧ c ≠ '\\' ∧ c ≠ '#' := by
  refine ⟨?_, ?_, ?_⟩ <;> rintro rfl <;> exact absurd h (by decide)

theorem exists_part_around {parts : List Stretch} {c : Char} {rest : List Char}
    (h : parts.flatMap Stretch.written = front ++ c :: rest) :
    ∃ before s after lead tail, parts = before ++ s :: after ∧
      front = before.flatMap Stretch.written ++ lead ∧ s.written = lead ++ c :: tail := by
  induction parts generalizing front with
  | nil => simp at h
  | cons p parts ih =>
    rw [List.flatMap_cons, List.append_eq_append_iff] at h
    -- the character stands behind the first part, or in it
    have hbehind (front' : List Char) (hfront : front = p.written ++ front')
        (hrest : parts.flatMap Stretch.written = front' ++ c :: rest) :
        ∃ before s after lead tail, p :: parts = before ++ s :: after ∧
          front = before.flatMap Stretch.written ++ lead ∧ s.written = lead ++ c :: tail := by
      obtain ⟨before, s, after, lead, tail, rfl, rfl, hs⟩ := ih hrest
      exact ⟨p :: before, s, after, lead, tail, rfl, by simp [hfront], hs⟩
    rcases h with ⟨front', hfront, hrest⟩ | ⟨tail, hp, hrest⟩
    · exact hbehind front' hfront hrest
    · cases tail with
      | nil => exact hbehind [] (by simpa using hp.symm) hrest.symm
      | cons d tail =>
        obtain ⟨rfl, -⟩ := List.cons.inj hrest
        exact ⟨[], p, parts, front, tail, rfl, rfl, hp⟩

/-- Each character of a text belongs to some stretch. -/
theorem exists_holds (table : MacroTable) {c : Char} {rest : List Char}
    (h : text = front ++ c :: rest) : ∃ s, Holds table text front s := by
  obtain ⟨parts, hparts⟩ := exists_reads table [] text
  obtain ⟨before, s, after, lead, tail, rfl, hfront, hs⟩ :=
    exists_part_around (hparts.flatMap_written.trans h)
  exact ⟨s, before, lead, c, tail, after, hparts, hfront, hs⟩

/-- What starts a line of its own inside a line goes on to the end of that line. -/
theorem StartsLine.isLine_inside {before inside : List Char}
    (hstart : StartsLine (before ++ '#' :: inside)) (hline : line ≠ [])
    (h : IsLine '\n' '\\' (inside ++ line) behind) : IsLine '\n' '\\' line behind := by
  have hbackslash : '\\' ≠ '\n' := by decide
  obtain ⟨lines, blanks, hfront, hlines, hblanks⟩ := hstart
  have hplain : ∀ c ∈ blanks, c ≠ '\n' ∧ c ≠ '\\' := fun c hc =>
    ⟨(blank_ne (hblanks c hc)).1, (blank_ne (hblanks c hc)).2.1⟩
  rw [List.append_eq_append_iff] at hfront
  rcases hfront with ⟨mid, rfl, hinside⟩ | ⟨mid, -, hblank⟩
  · cases mid with
    | nil =>
      rw [List.nil_append] at hinside
      exact absurd rfl (blank_ne (hblanks '#' (hinside ▸ List.mem_cons_self))).2.2
    | cons d mid =>
      obtain ⟨rfl, rfl⟩ := List.cons.inj hinside
      have hlast : ('#' :: mid).getLast? = some '\n' := by
        simpa [List.getLast?_append] using hlines
      obtain ⟨run, hrun⟩ := List.getLast?_eq_some_iff.1 hlast
      cases run with
      | nil => simp at hrun
      | cons d run =>
        obtain ⟨-, rfl⟩ := List.cons.inj hrun
        have hrest : blanks ++ line ≠ [] := by simp [hline]
        have hrun : IsLine '\n' '\\' (run ++ '\n' :: (blanks ++ line)) behind := by simpa using h
        exact IsLine.behind_plain hplain (IsLine.behind_newline hbackslash hrest hrun)
  · exact absurd rfl (blank_ne (hblanks '#' (by simp [hblank]))).2.2

/-- What stands behind some stretches of a reading is read on its own in the same way. -/
theorem Reads.of_append {before after : List Stretch}
    (h : Reads table aside text (before ++ after)) :
    Reads table aside (after.flatMap Stretch.written) after := by
  induction before generalizing text with
  | nil =>
    rw [List.nil_append] at h
    rwa [h.flatMap_written]
  | cons p before ih =>
    cases h with
    | cons hp hrest => exact ih hrest

/-- A number sign outside comments, literals and calls, with a newline on its directive, is part of
a directive that is skipped. -/
theorem exists_skipped_around (h : IsDirective text front line behind)
    (hopen : ∀ s, Holds table text front s → ¬ s.encloses) (hnewline : '\n' ∈ line) :
    ∃ before inside lead tail after, Reads table [] text
        (before ++ .skipped (.directive inside) :: after) ∧
      front = before.flatMap Stretch.written ++ lead ∧ '#' :: inside = lead ++ '#' :: tail ∧
      line ++ behind = tail ++ after.flatMap Stretch.written := by
  obtain ⟨s, hs⟩ := exists_holds table h.split
  have hs' := hopen s hs
  obtain ⟨before, lead, c, tail, after, hreads, hfront, hwritten⟩ := hs
  have hbehind : '#' :: (line ++ behind) = c :: (tail ++ after.flatMap Stretch.written) := by
    have hall := hreads.flatMap_written
    rw [h.split, hfront, List.flatMap_append, List.flatMap_cons, hwritten] at hall
    simpa using hall.symm
  obtain ⟨rfl, hrest⟩ := List.cons.inj hbehind
  have hstands := (hreads.stands_of_mem).1
  have hword {w : List Char} (hw : IsWord w (after.flatMap Stretch.written))
      (heq : w = lead ++ '#' :: tail) : False :=
    absurd (hw.wordChars '#' (by simp [heq])) (by decide)
  cases s with
  | skipped p =>
    cases p with
    | directive inside => exact ⟨before, inside, lead, tail, after, hreads, hfront, hwritten, hrest⟩
    | lineComment | blockComment | literal => exact absurd trivial hs'
  | invocation i =>
    cases i with
    | call => exact absurd trivial hs'
    | name w definition =>
      exact (hword hstands.isWord (by simpa [Stretch.written, Invocation.written, Invocation.list]
        using hwritten)).elim
  | word w => exact (hword hstands.1 hwritten).elim
  | mark d =>
    -- with a newline behind it, the number sign would start a directive
    obtain ⟨rfl, hd⟩ := List.append_eq_cons_iff.1 hwritten.symm |>.resolve_right (by simp)
    obtain ⟨rfl, rfl⟩ := List.cons.inj hd
    exact absurd (by rw [Skipped.written, List.cons_append, hrest, List.nil_append])
      (hstands.2 (.directive line) behind ⟨h.isLine, List.mem_append_left behind hnewline⟩)

theorem Stretch.written_piece (s : Stretch) : s.piece.written = s.written := by
  cases s with
  | invocation i =>
    cases i <;> simp [piece, Invocation.piece, Piece.written, written, Invocation.written,
      Invocation.word, Invocation.list]
  | skipped | word | mark => rfl

theorem flatMap_written_piece (parts : List Stretch) :
    (parts.map Stretch.piece).flatMap Piece.written = parts.flatMap Stretch.written := by
  rw [List.flatMap_map]
  exact congrArg (parts.flatMap ·) (funext Stretch.written_piece)

/-- Nothing that encloses starts with a number sign. -/
theorem not_encloses_of_written {written : List Char} (hs : s.Stands table aside behind)
    (h : s.written = '#' :: written) : ¬ s.encloses := by
  cases s with
  | skipped p =>
    cases p with
    | directive => exact not_false
    | lineComment | blockComment => exact absurd (List.cons.inj h).1 (by decide)
    | literal quote inside =>
      have hquote : quote = '#' := (List.cons.inj h).1
      rcases hs.1 with rfl | rfl <;> exact absurd hquote (by decide)
  | invocation i =>
    have hword : IsWord i.word (i.list ++ behind) := hs.isWord
    obtain ⟨c, rest, hc⟩ := List.exists_cons_of_ne_nil hword.nonempty
    have hsign : c = '#' := by
      rw [Stretch.written, Invocation.written, hc] at h
      exact (List.cons.inj h).1
    have := hword.wordChars c (hc ▸ List.mem_cons_self)
    rw [hsign] at this
    exact absurd this (by decide)
  | word | mark => exact not_false

/-- A number sign that starts a piece lies in no comment, literal or call. -/
theorem not_encloses_of_pieces {first later : List Piece} {written : List Char}
    (hpieces : pieces table [] text = first ++ .copied ('#' :: written) :: later)
    (hfirst : first.flatMap Piece.written = front) (h : Holds table text front s) :
    ¬ s.encloses := by
  obtain ⟨before, lead, c, tail, after, hreads, hfront, hwritten⟩ := h
  have hstands := (hreads.stands_of_mem).1
  have hsame : s.piece = .copied ('#' :: written) → ¬ s.encloses := by
    intro hpiece
    have hs : s.written = '#' :: written := by rw [← s.written_piece, hpiece, Piece.written]
    exact not_encloses_of_written hstands hs
  have hall := hreads.pieces_eq.symm.trans hpieces
  rw [List.map_append, List.map_cons, List.append_eq_append_iff] at hall
  -- the stretch is the piece, since it starts neither earlier nor later
  rcases hall with ⟨between, hbefore, hrest⟩ | ⟨between, hbefore, hrest⟩
  · cases between with
    | nil => exact hsame (List.cons.inj hrest).1
    | cons p between =>
      obtain ⟨rfl, -⟩ := List.cons.inj hrest
      have hlength := congrArg List.length hfirst
      rw [hbefore, List.flatMap_append, flatMap_written_piece, List.flatMap_cons, s.written_piece,
        hwritten, hfront] at hlength
      simp at hlength
  · cases between with
    | nil => exact hsame (List.cons.inj hrest).1.symm
    | cons p between =>
      obtain ⟨rfl, -⟩ := List.cons.inj hrest
      have hlength := congrArg List.length hfront
      rw [← flatMap_written_piece, hbefore, List.flatMap_append, hfirst] at hlength
      simp [Piece.written] at hlength

/-- A directive outside comments, literals and calls is copied if there is a newline on it, be it at
its end or escaped, and what follows it is the expansion of what follows it in the text. -/
theorem directive_copied (table : MacroTable) (text : String) {front line behind : List Char}
    (hdirective : IsDirective text.toList front line behind)
    (hopen : ∀ s, Holds table text.toList front s → ¬ s.encloses)
    (hnewline : '\n' ∈ line) :
    ∃ before, (table.expand text).text =
      before ++ '#' :: line ++ (expand table [] behind).text := by
  obtain ⟨before, inside, lead, tail, after, hreads, hfront, hinside, hrest⟩ :=
    exists_skipped_around hdirective hopen hnewline
  have hstands : IsLine '\n' '\\' inside (after.flatMap Stretch.written) :=
    (hreads.stands_of_mem).1.1
  -- the directive that is skipped and the one that was asked for end at the same newline
  have htail : IsLine '\n' '\\' tail (after.flatMap Stretch.written) := by
    cases lead with
    | nil =>
      obtain ⟨-, rfl⟩ := List.cons.inj hinside
      exact hstands
    | cons d lead =>
      obtain ⟨rfl, rfl⟩ := List.cons.inj hinside
      have hstart : StartsLine (before.flatMap Stretch.written ++ '#' :: lead) :=
        hfront ▸ hdirective.startsLine
      exact (hstart.isLine_inside (by simp) hstands).of_plain (by decide) (by decide)
  obtain ⟨rfl, rfl⟩ := hdirective.isLine.unique (by decide) htail hrest
  have hafter : Reads table [] (after.flatMap Stretch.written) after := by
    rw [List.append_cons] at hreads
    exact hreads.of_append
  refine ⟨(Expansion.join (before.map (Stretch.expansion table []))).text ++ lead, ?_⟩
  rw [MacroTable.expand, hreads.expand_eq, hafter.expand_eq]
  simp [Expansion.join, Stretch.expansion, Expansion.copied, Skipped.written, Stretch.written,
    hinside]

/-- A directive behind a comment with a number sign, with a newline escaped and names of macros on
both of its lines. -/
theorem directive_behind_comment_copied :
    let table := (MacroTable.empty.insert (MacroDefinition.make "F" (some ["x"]) "x")).insert
      (MacroDefinition.make "A" none "1")
    let text := "/* # */ A\n  # define X \\\n F(A) // A\nF(A)"
    let line := " define X \\\n F(A) // A\n".toList
    IsDirective text.toList "/* # */ A\n  ".toList line "F(A)".toList ∧
      (∀ s, Holds table text.toList "/* # */ A\n  ".toList s → ¬ s.encloses) ∧
      '\n' ∈ line ∧
      ∃ before, (table.expand text).text =
        before ++ '#' :: line ++ (expand table [] "F(A)".toList).text := by
  intro table text line
  have hdirective : IsDirective text.toList "/* # */ A\n  ".toList line "F(A)".toList := by
    refine ⟨by decide, ⟨"/* # */ A\n".toList, "  ".toList, by decide, .inr (by decide),
      List.all_eq_true.1 (by decide)⟩, .inl ⟨" define X ".toList ++
        ('\\' :: '\n' :: " F(A) // A".toList), by decide, ?_⟩⟩
    exact (passes_of_plain (by decide) (by decide)).append
      (.escaped '\n' (passes_of_plain (by decide) (by decide)))
  have hpieces : pieces table [] text.toList =
      [.copied "/* # */".toList, .copied [' '], .name "A" (MacroDefinition.make "A" none "1"),
        .copied ['\n'], .copied [' '], .copied [' ']] ++
      .copied ('#' :: line) :: pieces table [] "F(A)".toList := by decide +kernel
  have hopen : ∀ s, Holds table text.toList "/* # */ A\n  ".toList s → ¬ s.encloses :=
    fun s => not_encloses_of_pieces hpieces (by decide)
  exact ⟨hdirective, hopen, by decide, directive_copied table text hdirective hopen (by decide)⟩

/-- Without a newline behind the number sign, names on the line are expanded, although it is a
directive up to the end of the text. -/
theorem last_directive_expanded :
    let table := MacroTable.empty.insert (MacroDefinition.make "A" none "1")
    IsDirective "#define X A".toList [] "define X A".toList [] ∧
      (∀ s, Holds table "#define X A".toList [] s → ¬ s.encloses) ∧
      (table.expand "#define X A").text = "#define X 1".toList ∧
      ¬ "#define X A".toList <:+: (table.expand "#define X A").text := by
  intro table
  have hpieces : pieces table [] "#define X A".toList =
      [] ++ .copied ['#'] :: pieces table [] "define X A".toList := by decide +kernel
  have hline : pieces table [] "define X A".toList =
      [.copied "define".toList, .copied [' '], .copied ['X'], .copied [' '],
        .name "A" (MacroDefinition.make "A" none "1")] := by decide +kernel
  have hbody : pieces table ["A"] "1".toList = [['1']].map .copied := by decide +kernel
  have hname : pieceExpansion table [] (.name "A" (MacroDefinition.make "A" none "1")) =
      Expansion.copied "1".toList :=
    (pieceExpansion_name "1".toList (by decide +kernel) (by decide +kernel)).trans
      (expand_of_pieces_copied hbody)
  have htext : (table.expand "#define X A").text = "#define X 1".toList := by
    rw [MacroTable.expand, expand_eq_join, hpieces, hline]
    simp only [List.nil_append, List.map_cons, List.map_nil, hname]
    rfl
  refine ⟨⟨rfl, ⟨[], [], rfl, .inl rfl, by simp⟩, .inr ⟨rfl, ?_⟩⟩,
    fun s => not_encloses_of_pieces hpieces rfl, htext, ?_⟩
  · exact neverStops_of_not_mem (by decide)
  · rw [htext]
    exact fun h => absurd (h.eq_of_length (by decide)) (by decide)

end MacroExpansion

end CBoundary
