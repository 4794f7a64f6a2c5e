import CBoundary.Proofs.StatementFront

/-!
Statements read off a stream one at a time. Tokens are pulled from the stream as they are needed.
Looking ahead past trivia leaves what was looked at in a queue in front of the stream, and a
directive behind unfinished code goes back to the front of that queue, to be read again as a
statement of its own. Wherever the tokens wait, they are read in their order, so the statements are
those of the stream as a whole. They lose, repeat and move no token, and each is cut as a statement
is. Main statement: `yields_iff_segmentation`.
-/
namespace CBoundary

open Keyword

/-- Tokens that were looked at ahead of time, and the stream behind them. -/
structure StatementReader where
  pending : List Token
  stream : List Token

namespace StatementReader

/-- No token was looked at yet. -/
def start (tokens : List Token) : StatementReader := ⟨[], tokens⟩

/-- The tokens that are still to be read, in order. -/
def rest (r : StatementReader) : List Token := r.pending ++ r.stream

/-- The next token: from the queue, or else from the stream. -/
def nextToken? (r : StatementReader) : Option (Token × StatementReader) :=
  match r.pending, r.stream with
  | t :: pending, stream => some (t, ⟨pending, stream⟩)
  | [], t :: stream => some (t, ⟨[], stream⟩)
  | [], [] => none

/-- Puts a token in front of all others. -/
def putBack (t : Token) (r : StatementReader) : StatementReader :=
  { r with pending := t :: r.pending }

theorem nextToken?_eq_some {r later : StatementReader} {t : Token}
    (h : r.nextToken? = some (t, later)) : r.rest = t :: later.rest := by
  obtain ⟨pending, stream⟩ := r
  cases pending with
  | cons u pending =>
    obtain ⟨rfl, rfl⟩ := Prod.mk.inj (Option.some.inj h)
    rfl
  | nil =>
    cases stream with
    | nil => simp [nextToken?] at h
    | cons u stream =>
      obtain ⟨rfl, rfl⟩ := Prod.mk.inj (Option.some.inj h)
      rfl

theorem nextToken?_eq_none {r : StatementReader} (h : r.nextToken? = none) : r.rest = [] := by
  obtain ⟨pending, stream⟩ := r
  cases pending with
  | cons u pending => simp [nextToken?] at h
  | nil =>
    cases stream with
    | nil => rfl
    | cons u stream => simp [nextToken?] at h

@[simp] theorem rest_putBack (t : Token) (r : StatementReader) :
    (r.putBack t).rest = t :: r.rest := rfl

/-- Looks for the next `wanted` tokens that are no trivia, up to a directive. On the queue, `passed`
was looked at and `waiting` was not; tokens that the stream has to give join the queue. -/
def lookFrom (wanted : Nat) (passed waiting stream : List Token) : List Token × StatementReader :=
  match wanted, waiting, stream with
  | 0, waiting, stream => ([], ⟨passed ++ waiting, stream⟩)
  | _ + 1, [], [] => ([], ⟨passed, []⟩)
  | wanted + 1, [], t :: stream => lookFrom (wanted + 1) passed [t] stream
  | wanted + 1, t :: waiting, stream =>
      if t.kind = .directive then ([], ⟨passed ++ t :: waiting, stream⟩)
      else if t.kind.isTrivia then lookFrom (wanted + 1) (passed ++ [t]) waiting stream
      else (lookFrom wanted (passed ++ [t]) waiting stream).map (t :: ·) id
termination_by 2 * stream.length + waiting.length

def lookahead (wanted : Nat) (r : StatementReader) : List Token × StatementReader :=
  lookFrom wanted [] r.pending r.stream

/-- The tokens in front of the first directive that are no trivia. -/
def ahead (tokens : List Token) : List Token :=
  (tokens.takeWhile (·.kind != .directive)).filter fun t => !t.kind.isTrivia

/-- Looking ahead moves no token past another. -/
theorem rest_lookFrom (wanted : Nat) (passed waiting stream : List Token) :
    (lookFrom wanted passed waiting stream).2.rest = passed ++ waiting ++ stream := by
  fun_induction lookFrom wanted passed waiting stream <;> simp_all [rest]

theorem lookFrom_fst (wanted : Nat) (passed waiting stream : List Token) :
    (lookFrom wanted passed waiting stream).1 = (ahead (waiting ++ stream)).take wanted := by
  fun_induction lookFrom wanted passed waiting stream <;> simp_all [ahead]

/-- Do two tokens start a declaration, if they are the next ones that are no trivia? -/
def startsDeclaration : List Token → Bool
  | [] => false
  | first :: others =>
      first.kind == .word &&
        if isReserved first.text then !isControlWord first.text
        else others.head?.any fun t => t.kind == .word || t.isPunct "*"

/-- Does the next line start a declaration? -/
def declarationFollows (r : StatementReader) : Bool × StatementReader :=
  (r.lookahead 2).map startsDeclaration id

theorem declarationFollows_fst (r : StatementReader) :
    r.declarationFollows.1 = Statement.declarationFollows r.rest := by
  have hfound : (r.lookahead 2).1 = (ahead r.rest).take 2 := lookFrom_fst 2 [] r.pending r.stream
  rw [declarationFollows, Prod.map_fst, hfound]
  unfold Statement.declarationFollows
  rw [← ahead]
  -- the second token decides, so two of them are enough
  match ahead r.rest with
  | [] => rfl
  | [_] => rfl
  | _ :: _ :: _ => rfl

theorem declarationFollows_rest (r : StatementReader) : r.declarationFollows.2.rest = r.rest :=
  rest_lookFrom 2 [] r.pending r.stream

/-- Takes blanks and comments that continue the line into a statement. -/
def absorbTrailing (taken : List Token) (r : StatementReader) : List Token × StatementReader :=
  match _h : r.nextToken? with
  | none => (taken, r)
  | some (t, later) =>
      match t.kind with
      | .blanks | .blockComment => absorbTrailing (taken ++ [t]) later
      | .lineComment => (taken ++ [t], later)
      | _ => (taken, r)
termination_by r.rest.length
decreasing_by all_goals simp [nextToken?_eq_some _h]

/-- Reads on until the statement that starts with `taken` ends. -/
def readOn (taken : List Token) (r : StatementReader) : List Token × StatementReader :=
  match _h : r.nextToken? with
  | none => (taken, r)
  | some (t, later) =>
      if t.kind = .directive then
        if taken.any Token.isCode then (taken, later.putBack t) else (taken ++ [t], later)
      else if t.isSeparator then later.absorbTrailing (taken ++ [t])
      else if t.isGroup .brace && Statement.closesStatement (taken ++ [t]) then
        later.absorbTrailing (taken ++ [t])
      else if t.kind = .newline && Statement.isBareCall (taken ++ [t]) then
        if later.declarationFollows.1 then (taken ++ [t], later.declarationFollows.2)
        else readOn (taken ++ [t]) later.declarationFollows.2
      else readOn (taken ++ [t]) later
termination_by r.rest.length
decreasing_by
  · simp [nextToken?_eq_some _h, declarationFollows_rest]
  · simp [nextToken?_eq_some _h]

/-- The next statement, unless nothing is left. -/
def next? (r : StatementReader) : Option (Statement × StatementReader) :=
  if (r.readOn []).1.isEmpty then none else some (⟨(r.readOn []).1⟩, (r.readOn []).2)

/-- The reader gives the statements one by one and then no more. -/
inductive Yields : StatementReader → List Statement → Prop
  | done {r : StatementReader} : r.next? = none → Yields r []
  | more {r later : StatementReader} {s : Statement} {statements : List Statement} :
      r.next? = some (s, later) → Yields later statements → Yields r (s :: statements)

theorem absorbTrailing_eq (taken : List Token) (r : StatementReader) :
    (absorbTrailing taken r).1 = taken ++ (Statement.splitTrailing r.rest).1 ∧
      (absorbTrailing taken r).2.rest = (Statement.splitTrailing r.rest).2 := by
  fun_induction absorbTrailing taken r with
  | case1 taken r hnone => simp [nextToken?_eq_none hnone, Statement.splitTrailing]
  | case2 taken r t later hnext hkind ih =>
    simp [nextToken?_eq_some hnext, Statement.splitTrailing, hkind, ih]
  | case3 taken r t later hnext hkind ih =>
    simp [nextToken?_eq_some hnext, Statement.splitTrailing, hkind, ih]
  | case4 taken r t later hnext hkind =>
    simp [nextToken?_eq_some hnext, Statement.splitTrailing, hkind]
  | case5 taken r t later hnext hblanks hblock hline =>
    simp [nextToken?_eq_some hnext, Statement.splitTrailing]

/-- Reading a statement is splitting it off all the tokens that wait. -/
theorem readOn_eq (taken : List Token) (r : StatementReader) :
    (readOn taken r).1 = (Statement.split taken r.rest).1 ∧
      (readOn taken r).2.rest = (Statement.split taken r.rest).2 := by
  fun_induction readOn taken r with
  | case1 taken r hnone => simp [nextToken?_eq_none hnone, Statement.split]
  | case2 taken r t later hnext hkind hcode =>
    simp [nextToken?_eq_some hnext, Statement.split, hkind, hcode]
  | case3 taken r t later hnext hkind hcode =>
    simp [nextToken?_eq_some hnext, Statement.split, hkind, hcode]
  | case4 taken r t later hnext hkind hseparator =>
    have htrailing := absorbTrailing_eq (taken ++ [t]) later
    simpa [nextToken?_eq_some hnext, Statement.split, hkind, hseparator] using htrailing
  | case5 taken r t later hnext hkind hseparator hcloses =>
    have htrailing := absorbTrailing_eq (taken ++ [t]) later
    simpa [nextToken?_eq_some hnext, Statement.split, hkind, hseparator, hcloses] using htrailing
  | case6 taken r t later hnext hkind hseparator hcloses hcall hfollows =>
    have hend := not_or_intro hseparator hcloses
    rw [declarationFollows_fst] at hfollows
    rw [nextToken?_eq_some hnext, Statement.split, if_neg hkind, if_neg (by simpa using hend),
      if_pos (by simpa [hfollows] using hcall), declarationFollows_rest]
    exact ⟨rfl, rfl⟩
  | case7 taken r t later hnext hkind hseparator hcloses hcall hfollows ih =>
    have hend := not_or_intro hseparator hcloses
    rw [declarationFollows_fst] at hfollows
    rw [nextToken?_eq_some hnext, Statement.split, if_neg hkind, if_neg (by simpa using hend),
      if_neg (by simp [hfollows]), ← declarationFollows_rest later]
    exact ih
  | case8 taken r t later hnext hkind hseparator hcloses hcall ih =>
    have hend := not_or_intro hseparator hcloses
    have hbare : ¬ (t.kind = .newline && Statement.isBareCall (taken ++ [t]) &&
        Statement.declarationFollows later.rest) = true := by
      rw [Bool.and_eq_true]
      exact fun h => hcall h.1
    rw [nextToken?_eq_some hnext, Statement.split, if_neg hkind, if_neg (by simpa using hend),
      if_neg hbare]
    exact ih

/-- The next statement is split off all the tokens that wait, and the others wait further on. -/
theorem next?_eq (r : StatementReader) :
    r.next?.map (Prod.map id rest) =
      match r.rest with
      | [] => none
      | t :: others =>
          some (⟨(Statement.split [] (t :: others)).1⟩, (Statement.split [] (t :: others)).2) := by
  obtain ⟨htokens, hlater⟩ := readOn_eq [] r
  unfold next?
  rw [htokens]
  cases hrest : r.rest with
  | nil => rfl
  | cons t others =>
    have hpos := Statement.split_pos t others
    rw [hrest] at hlater
    rw [if_neg (by simpa using List.ne_nil_of_length_pos hpos)]
    simp [hlater]

theorem yields_ofTokens (r : StatementReader) : Yields r (Statement.ofTokens r.rest) := by
  induction hn : r.rest.length using Nat.strongRecOn generalizing r with
  | ind n ih =>
    have hnext := next?_eq r
    cases hrest : r.rest with
    | nil =>
      rw [hrest, Option.map_eq_none_iff] at hnext
      rw [Statement.ofTokens]
      exact .done hnext
    | cons t others =>
      rw [hrest, Option.map_eq_some_iff] at hnext
      obtain ⟨⟨s, later⟩, hsome, hsplit⟩ := hnext
      obtain ⟨rfl, hlater⟩ := Prod.mk.inj hsplit
      have hlt := Statement.length_split_lt t others
      rw [Statement.ofTokens, ← hlater]
      refine .more hsome (ih _ ?_ later rfl)
      rw [← hn, hrest, hlater]
      exact hlt

/-- A reader gives one list of statements and no other. -/
theorem Yields.unique {r : StatementReader} {first second : List Statement} (h : Yields r first)
    (h' : Yields r second) : first = second := by
  induction h generalizing second with
  | done hnone =>
    cases h' with
    | done => rfl
    | more hsome => simp [hnone] at hsome
  | more hsome _ ih =>
    cases h' with
    | done hnone => simp [hsome] at hnone
    | more hsome' hothers =>
      obtain ⟨rfl, rfl⟩ := Prod.mk.inj (Option.some.inj (hsome.symm.trans hsome'))
      rw [ih hothers]

end StatementReader

namespace Statement

/-- Blanks and block comments, and perhaps a line comment behind them: what may stand behind a token
before the next newline token. -/
def ContinuesLine (tokens : List Token) : Prop :=
  ∃ lead last, tokens = lead ++ last ∧
    (∀ t ∈ lead, t.kind = .blanks ∨ t.kind = .blockComment) ∧
    (last = [] ∨ ∃ t, last = [t] ∧ t.kind = .lineComment)

/-- The statements cut a stream into pieces. -/
structure Segmentation (tokens : List Token) (statements : List Statement) : Prop where
  /-- The statements, put together, are the stream. -/
  whole : statements.flatMap Statement.tokens = tokens
  nonempty : ∀ s ∈ statements, s.tokens ≠ []
  /-- A directive ends its statement and has only trivia in front of it. -/
  directive : ∀ s ∈ statements, ∀ lead d behind, s.tokens = lead ++ d :: behind →
    d.kind = .directive → (∀ t ∈ lead, t.kind.isTrivia = true) ∧ behind = []
  /-- A comma or a semicolon is the only one of its statement, and only what continues its line
  stands behind it. -/
  separator : ∀ s ∈ statements, ∀ lead t behind, s.tokens = lead ++ t :: behind →
    t.isSeparator = true → (∀ u ∈ lead ++ behind, u.isSeparator = false) ∧ ContinuesLine behind

theorem continuesLine_nil : ContinuesLine [] := ⟨[], [], rfl, by simp, Or.inl rfl⟩

theorem continuesLine_splitTrailing (tokens : List Token) :
    ContinuesLine (splitTrailing tokens).1 := by
  fun_induction splitTrailing tokens with
  | case1 => exact continuesLine_nil
  | case2 t rest hkind ih =>
    obtain ⟨lead, last, htokens, hlead, hlast⟩ := ih
    exact ⟨t :: lead, last, by simp [htokens], by simpa [hkind] using hlead, hlast⟩
  | case3 t rest hkind ih =>
    obtain ⟨lead, last, htokens, hlead, hlast⟩ := ih
    exact ⟨t :: lead, last, by simp [htokens], by simpa [hkind] using hlead, hlast⟩
  | case4 t rest hkind => exact ⟨[], [t], rfl, by simp, Or.inr ⟨t, rfl, hkind⟩⟩
  | case5 => exact continuesLine_nil

/-- A separator can only be the token that ends the open part of a statement. -/
theorem Open.eq_of_isSeparator {taken trailing lead behind : List Token} {t u : Token}
    (h : Open taken) (htrailing : ∀ v ∈ trailing, v.kind.isTrivia = true)
    (heq : taken ++ t :: trailing = lead ++ u :: behind) (hu : u.isSeparator = true) :
    behind = trailing := by
  rcases List.append_eq_append_iff.1 heq with ⟨between, -, hrest⟩ | ⟨between, htaken, hrest⟩
  · cases between with
    | nil => exact (List.cons.inj hrest).2.symm
    | cons v between =>
      have hmem : u ∈ trailing := (List.cons.inj hrest).2 ▸ List.mem_append_cons_self
      have hnone := isSeparator_of_isTrivia (htrailing u hmem)
      simp [hu] at hnone
  · cases between with
    | nil => exact (List.cons.inj hrest).2
    | cons v between =>
      obtain ⟨rfl, -⟩ := List.cons.inj hrest
      have hnone := (h u (htaken ▸ List.mem_append_cons_self)).2
      simp [hu] at hnone

/-- Behind a separator a statement only continues its line. -/
theorem continuesLine_split {taken lead behind : List Token} {u : Token} (tokens : List Token)
    (h : Open taken) (hsplit : (split taken tokens).1 = lead ++ u :: behind)
    (hu : u.isSeparator = true) : ContinuesLine behind := by
  have hopen {taken : List Token} (h : Open taken) (htaken : taken = lead ++ u :: behind) :
      ContinuesLine behind := by
    have hnone := (h u (htaken ▸ List.mem_append_cons_self)).2
    simp [hu] at hnone
  fun_induction split taken tokens with
  | case1 => exact hopen h hsplit
  | case2 => exact hopen h hsplit
  | case3 taken t rest hkind hcode =>
    rw [h.eq_of_isSeparator (by simp) hsplit hu]
    exact continuesLine_nil
  | case4 taken t rest hkind hend =>
    rw [h.eq_of_isSeparator (splitTrailing_isTrivia rest) hsplit hu]
    exact continuesLine_splitTrailing rest
  | case5 taken t rest hkind hend hcall =>
    rw [h.eq_of_isSeparator (by simp) hsplit hu]
    exact continuesLine_nil
  | case6 taken t rest hkind hend hcall ih =>
    simp only [Bool.or_eq_true, not_or, Bool.not_eq_true] at hend
    exact ih (h.concat hkind hend.1) hsplit

/-- Each statement is split off a part of the stream, from its start. -/
theorem exists_split_of_mem_ofTokens {tokens : List Token} {s : Statement}
    (h : s ∈ ofTokens tokens) : ∃ t rest, s.tokens = (split [] (t :: rest)).1 := by
  fun_induction ofTokens tokens with
  | case1 => simp at h
  | case2 t rest ih =>
    rcases List.mem_cons.1 h with rfl | h
    · exact ⟨t, rest, rfl⟩
    · exact ih h

theorem segmentation_ofTokens (tokens : List Token) : Segmentation tokens (ofTokens tokens) := by
  refine ⟨flatMap_tokens_ofTokens tokens, ?_, ?_, ?_⟩
  · intro s hs
    obtain ⟨t, rest, htokens⟩ := exists_split_of_mem_ofTokens hs
    rw [htokens]
    exact List.ne_nil_of_length_pos (split_pos t rest)
  · intro s hs lead d behind htokens hkind
    have hcut := cut_of_mem_ofTokens hs
    rw [htokens] at hcut
    obtain ⟨-, hbehind, hlead⟩ := List.pairwise_append.1 hcut
    refine ⟨fun t ht => (hlead t ht d List.mem_cons_self).2.2 hkind, ?_⟩
    rw [List.eq_nil_iff_forall_not_mem]
    intro u hu
    exact (List.rel_of_pairwise_cons hbehind hu).1 hkind
  · intro s hs lead t behind htokens hseparator
    have hcut := cut_of_mem_ofTokens hs
    rw [htokens] at hcut
    obtain ⟨-, hbehind, hlead⟩ := List.pairwise_append.1 hcut
    refine ⟨?_, ?_⟩
    · intro u hu
      rcases List.mem_append.1 hu with hu | hu
      · cases hother : u.isSeparator with
        | false => rfl
        | true =>
          have htrivia := (hlead u hu t List.mem_cons_self).2.1 hother
          simp [isSeparator_of_isTrivia htrivia] at hseparator
      · exact isSeparator_of_isTrivia ((List.rel_of_pairwise_cons hbehind hu).2.1 hseparator)
    · obtain ⟨first, rest, hsplit⟩ := exists_split_of_mem_ofTokens hs
      have hnone : Open [] := fun _ hu => absurd hu List.not_mem_nil
      exact continuesLine_split (first :: rest) hnone (hsplit.symm.trans htokens) hseparator

/-- Every token stream is cut into the statements that a reader gives for it, and these lose,
repeat and move no token, are not empty, and end behind directives and separators. -/
theorem yields_iff_segmentation (tokens : List Token) :
    (∀ statements, StatementReader.Yields (.start tokens) statements ↔
      statements = ofTokens tokens) ∧ Segmentation tokens (ofTokens tokens) := by
  have hyields : StatementReader.Yields (.start tokens) (ofTokens tokens) :=
    StatementReader.yields_ofTokens (.start tokens)
  refine ⟨fun statements => ⟨fun h => h.unique hyields, ?_⟩, segmentation_ofTokens tokens⟩
  rintro rfl
  exact hyields

end Statement

end CBoundary
