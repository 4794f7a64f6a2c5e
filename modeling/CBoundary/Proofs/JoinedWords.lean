import CBoundary.Proofs.BodyUnit

/-!
Joining operators. In the body of a macro with parameters a double number sign between two words
outside literals is carried out: it lies inside a chain, which turns into its words, or the
arguments as they are written, with nothing between them. The one exception is a word that is quoted
by a number sign; it is not joined to anything. The text that comes out is scanned again, so joined
words may be expanded. Operators next to anything but words are copied, and the body of a macro
without a parameter list is not substituted into at all. Main statements: `quoted_or_joined` and
`call_joins_words`.
-/
namespace CBoundary.Substitution

section Split

variable {p : BodyPart} {parts before after front back : List BodyPart} {left w : List Char}
  {others : List Join} {j : Join}

/-- Every part of a list of pieces lies in one of them. -/
theorem exists_piece_around {α β : Type} {f : α → List β} {pieces : List α} {p : β}
    {before after : List β} (h : pieces.flatMap f = before ++ p :: after) :
    ∃ vs u ws front back, pieces = vs ++ u :: ws ∧ before = vs.flatMap f ++ front ∧
      f u = front ++ p :: back ∧ after = back ++ ws.flatMap f := by
  induction pieces generalizing before with
  | nil => simp at h
  | cons u us ih =>
    rw [List.flatMap_cons] at h
    rcases List.append_eq_append_iff.1 h with ⟨rest, rfl, hrest⟩ | ⟨rest, hu, hrest⟩
    · obtain ⟨vs, v, ws, front, back, rfl, rfl, hparts, rfl⟩ := ih hrest
      exact ⟨u :: vs, v, ws, front, back, rfl, by simp, hparts, rfl⟩
    · cases rest with
      | nil =>
        -- the part is the first one behind the piece
        rw [List.append_nil] at hu
        obtain ⟨vs, v, ws, front, back, rfl, hbefore, hparts, rfl⟩ := @ih [] hrest.symm
        refine ⟨u :: vs, v, ws, front, back, rfl, ?_, hparts, rfl⟩
        rw [List.flatMap_cons, List.append_assoc, ← hbefore, hu, List.append_nil]
      | cons q back =>
        obtain ⟨rfl, rfl⟩ := List.cons.inj hrest
        exact ⟨[], u, us, before, back, rfl, rfl, hu, rfl⟩

/-- A word behind parts that are no words is the only one. -/
theorem eq_of_single_word (hfront : ∀ p ∈ parts, ∀ v, p ≠ BodyPart.word v)
    (h : parts ++ [.word w] = front ++ .word left :: back) :
    front = parts ∧ left = w ∧ back = [] := by
  rcases List.eq_nil_or_concat back with rfl | ⟨back, q, rfl⟩
  · obtain ⟨rfl, hword⟩ := List.append_inj' h rfl
    obtain rfl : w = left := by simpa using hword
    exact ⟨rfl, rfl, rfl⟩
  · rw [List.concat_eq_append, ← List.cons_append, ← List.append_assoc] at h
    obtain ⟨rfl, -⟩ := List.append_inj' h rfl
    exact absurd rfl (hfront (.word left) (by simp) left)

theorem ne_word_of_isBlank (h : p.isBlank = true) (v : List Char) : p ≠ .word v := by
  rintro rfl
  simp [BodyPart.isBlank] at h

theorem Join.Blank.eq_of_parts (hj : j.Blank) (h : j.parts = front ++ .word left :: back) :
    front ++ [.word left] = j.parts ∧ back = [] := by
  have hfront : ∀ p ∈ j.front ++ .mark '#' :: .mark '#' :: j.back, ∀ v, p ≠ BodyPart.word v := by
    intro p hp v
    simp only [List.mem_append, List.mem_cons] at hp
    rcases hp with hp | rfl | rfl | hp
    · exact ne_word_of_isBlank (hj p (List.mem_append_left _ hp)) v
    · exact BodyPart.noConfusion
    · exact BodyPart.noConfusion
    · exact ne_word_of_isBlank (hj p (List.mem_append_right _ hp)) v
  have hparts : j.parts =
      j.front ++ .mark '#' :: .mark '#' :: j.back ++ [.word j.word] := by simp [Join.parts]
  rw [hparts] at h ⊢
  obtain ⟨rfl, rfl, rfl⟩ := eq_of_single_word hfront h
  exact ⟨rfl, rfl⟩

/-- A word in a chain behind the first one is one of those that are joined. -/
theorem exists_join_around (hblank : ∀ j ∈ others, j.Blank)
    (h : others.flatMap Join.parts = front ++ .word left :: back) :
    ∃ xs ys, others = xs ++ ys ∧ front ++ [.word left] = xs.flatMap Join.parts ∧
      back = ys.flatMap Join.parts := by
  obtain ⟨xs, j, ys, front, back, rfl, rfl, hj, rfl⟩ := exists_piece_around h
  obtain ⟨hwhole, rfl⟩ := (hblank j (by simp)).eq_of_parts hj
  refine ⟨xs ++ [j], ys, by simp, ?_, rfl⟩
  rw [List.append_assoc, hwhole, List.flatMap_append, List.flatMap_singleton]

/-- A word of a chain is the first one or one of those that are joined to it. -/
theorem exists_joins_of_chain {first : List Char} (hblank : ∀ j ∈ others, j.Blank)
    (h : .word first :: others.flatMap Join.parts = front ++ .word left :: back) :
    ∃ xs ys, others = xs ++ ys ∧
      front ++ [.word left] = .word first :: xs.flatMap Join.parts ∧
      back = ys.flatMap Join.parts := by
  cases front with
  | nil =>
    obtain ⟨hfirst, rfl⟩ := List.cons.inj h
    exact ⟨[], others, rfl, by rw [hfirst]; rfl, rfl⟩
  | cons q front =>
    obtain ⟨rfl, hothers⟩ := List.cons.inj h
    obtain ⟨xs, ys, hsplit, hxs, hback⟩ := exists_join_around hblank hothers
    exact ⟨xs, ys, hsplit, by rw [List.cons_append, hxs], hback⟩

/-- A chain does not end in front of an operator that joins another word to it. -/
theorem exists_next_join {ys : List Join} (hblank : ∀ k ∈ ys, k.Blank)
    (hnone : firstJoin? back = none) (hj : j.Blank)
    (h : j.parts ++ after = ys.flatMap Join.parts ++ back) :
    ∃ zs, ys = j :: zs ∧ after = zs.flatMap Join.parts ++ back := by
  have hjoin : firstJoin? (j.parts ++ after) = some (j, after) :=
    firstJoin?_eq_some_iff.2 ⟨rfl, hj⟩
  cases ys with
  | nil =>
    rw [h] at hjoin
    exact absurd (hnone.symm.trans hjoin) (by simp)
  | cons k zs =>
    rw [List.flatMap_cons, List.append_assoc] at h
    have hnext := firstJoin?_eq_some_iff.2 ⟨h, hblank k List.mem_cons_self⟩
    obtain ⟨rfl, rfl⟩ := Prod.mk.inj (Option.some.inj (hjoin.symm.trans hnext))
    exact ⟨zs, rfl, rfl⟩

/-- The word at the end of `before ++ [.word left]` is quoted by a number sign. -/
def IsQuoted (parts before : List BodyPart) (left : List Char) : Prop :=
  ∃ us gap vs, units parts = us ++ .quotation gap left :: vs ∧
    before = us.flatMap BodyUnit.parts ++ .mark '#' :: gap

/-- A double number sign between two words is inside a chain, unless it stands behind a word that is
quoted. -/
theorem quoted_or_joined (h : parts = before ++ .word left :: (j.parts ++ after)) (hj : j.Blank) :
    IsQuoted parts before left ∨
      ∃ us first xs ys vs, units parts = us ++ .chain first (xs ++ j :: ys) :: vs ∧
        before ++ [.word left] =
          us.flatMap BodyUnit.parts ++ .word first :: xs.flatMap Join.parts ∧
        after = ys.flatMap Join.parts ++ vs.flatMap BodyUnit.parts := by
  obtain ⟨us, u, vs, front, back, hunits, rfl, hu, hafter⟩ :=
    exists_piece_around ((flatMap_parts_units parts).trans h)
  have hstands := stands_of_mem_units hunits
  cases u with
  | quotation gap w =>
    have hfront : ∀ p ∈ .mark '#' :: gap, ∀ v, p ≠ BodyPart.word v :=
      List.forall_mem_cons.2
        ⟨fun _ => BodyPart.noConfusion, fun p hp => ne_word_of_isBlank (hstands p hp)⟩
    obtain ⟨rfl, rfl, -⟩ := eq_of_single_word hfront hu
    exact .inl ⟨us, gap, vs, hunits, rfl⟩
  | chain first others =>
    obtain ⟨hblank, hnone⟩ := hstands
    obtain ⟨xs, ys, rfl, hfront, rfl⟩ := exists_joins_of_chain hblank hu
    obtain ⟨zs, rfl, rfl⟩ :=
      exists_next_join (fun k hk => hblank k (List.mem_append_right xs hk)) hnone hj hafter
    exact .inr ⟨us, first, xs, zs, vs, hunits, by rw [List.append_assoc, hfront], rfl⟩
  | sign =>
    have hmem : BodyPart.word left ∈ BodyUnit.sign.parts := hu ▸ by simp
    simp [BodyUnit.parts] at hmem
  | copied p =>
    have hmem : BodyPart.word left ∈ (BodyUnit.copied p).parts := hu ▸ by simp
    exact absurd (List.mem_singleton.1 hmem).symm (hstands left)

/-- The words of a chain with nothing between them. -/
theorem value_chain (bindings : List Binding) (first : List Char) (xs ys : List Join) (j : Join) :
    (BodyUnit.chain first (xs ++ j :: ys)).value bindings =
      (first :: xs.map Join.word).flatMap (joined bindings) ++
        (joined bindings j.word ++ (ys.map Join.word).flatMap (joined bindings)) := by
  cases xs with
  | nil => simp [BodyUnit.value]
  | cons x xs => simp [BodyUnit.value]

end Split

end CBoundary.Substitution

namespace CBoundary.MacroExpansion

open Substitution

/-- The text has the word at the end of `before ++ [.word left]` and the word behind the operator
`j` next to each other, each as the call gives it. The chain around them leaves its words and
nothing else. -/
def CarriedOut (values : List Binding) (parts before : List BodyPart) (left : List Char) (j : Join)
    (text : List Char) : Prop :=
  ∃ us first xs words ys vs,
    units parts = us ++ .chain first (xs ++ j :: ys) :: vs ∧
      before ++ [.word left] =
        us.flatMap BodyUnit.parts ++ .word first :: xs.flatMap Join.parts ∧
      first :: xs.map Join.word = words ++ [left] ∧
      text = us.flatMap (BodyUnit.value values) ++
        (words.flatMap (joined values) ++ (joined values left ++ joined values j.word) ++
          (ys.map Join.word).flatMap (joined values)) ++ vs.flatMap (BodyUnit.value values)

section Carried

variable {values : List Binding} {body : List Char} {before after : List BodyPart}
  {first left : List Char} {xs : List Join} {j : Join}

/-- The word in front of an operator is the last one of the chain so far. -/
theorem exists_words_of_chain {front : List BodyPart}
    (h : before ++ [.word left] = front ++ .word first :: xs.flatMap Join.parts) :
    ∃ words, first :: xs.map Join.word = words ++ [left] := by
  rcases List.eq_nil_or_concat xs with rfl | ⟨xs, x, rfl⟩
  · obtain ⟨-, hword⟩ := List.append_inj' h rfl
    obtain rfl : left = first := by simpa using hword
    exact ⟨[], rfl⟩
  · have hend : front ++ .word first :: (xs.concat x).flatMap Join.parts =
        front ++ .word first :: (xs.flatMap Join.parts ++ x.front ++ .mark '#' :: .mark '#' ::
          x.back) ++ [.word x.word] := by simp [Join.parts]
    rw [hend] at h
    obtain ⟨-, hword⟩ := List.append_inj' h rfl
    obtain rfl : left = x.word := by simpa using hword
    exact ⟨first :: xs.map Join.word, by simp⟩

theorem carriedOut_of_not_quoted (values : List Binding)
    (h : bodyParts body = before ++ .word left :: (j.parts ++ after)) (hj : j.Blank)
    (hquoted : ¬ IsQuoted (bodyParts body) before left) :
    CarriedOut values (bodyParts body) before left j (substitute values body) := by
  obtain ⟨us, first, xs, ys, vs, hunits, hbefore, -⟩ := (quoted_or_joined h hj).resolve_left hquoted
  obtain ⟨words, hwords⟩ := exists_words_of_chain hbefore
  refine ⟨us, first, xs, words, ys, vs, hunits, hbefore, hwords, ?_⟩
  rw [substitute_eq, hunits, List.flatMap_append, List.flatMap_cons, value_chain, hwords]
  simp

end Carried

/-- The call of a macro with parameters, in any text and with any macros set aside. The text that is
scanned again in its place has the operands of every joining operator between two words next to each
other; a word that is quoted is no operand. If nothing in it is an invocation, it is what the call
comes to. -/
theorem call_joins_words {table : MacroTable} {aside : List String} {text word gap : List Char}
    {definition : MacroDefinition} {parameters : List Token} {arguments : List Char} {body : Token}
    {before after : List Stretch}
    (hreads : Reads table aside text
      (before ++ .invocation (.call word definition parameters gap arguments) :: after))
    (hbody : definition.body = some body) (hwell : definition.isWellFormed = true)
    (hparameters : parameters ≠ [])
    (henough : fewest definition.isVariadic parameters.length ≤ (entries arguments).length) :
    let outcome := (Stretch.invocation (.call word definition parameters gap arguments)).expansion
      table aside
    let values := bound parameters
      ((passed definition.isVariadic parameters.length (entries arguments)).map
        (prepared table aside))
    let scanned := substitute values body.chars
    expand table aside text = Expansion.join (before.map (Stretch.expansion table aside) ++
        outcome :: after.map (Stretch.expansion table aside)) ∧
      outcome.text = (expand table (String.ofList word :: aside) scanned).text ∧
      (∀ parts, Reads table (String.ofList word :: aside) scanned parts →
        (∀ i, .invocation i ∉ parts) → outcome.text = scanned) ∧
      ∀ front left j behind, bodyParts body.chars = front ++ .word left :: (j.parts ++ behind) →
        j.Blank → ¬ IsQuoted (bodyParts body.chars) front left →
          CarriedOut values (bodyParts body.chars) front left j scanned := by
  intro outcome values scanned
  have houtcome : outcome.text = (expand table (String.ofList word :: aside) scanned).text := by
    have hcall : outcome = applied table aside (String.ofList word) definition parameters body
        (passed definition.isVariadic parameters.length (entries arguments)) :=
      pieceExpansion_of_enough hbody henough
    rw [hcall, applied, if_neg (by simp [hwell]), if_neg (by simpa using hparameters)]
    rfl
  refine ⟨?_, houtcome, ?_, ?_⟩
  · rw [hreads.expand_eq, List.map_append, List.map_cons]
  · intro parts hparts hnone
    rw [houtcome, hparts.expand_of_no_invocation hnone]
    rfl
  · intro front left j behind hparts hj hquoted
    exact carriedOut_of_not_quoted values hparts hj hquoted

/-- Arguments with blanks and a comment around them, and a body with blanks around the operator. -/
theorem arguments_joined :
    ∃ (table : MacroTable) (definition : MacroDefinition) (parameters : List Token) (body : Token),
      table.get? "CAT" = some definition ∧ definition.parameters = some parameters ∧
      definition.body = some body ∧ body.chars = "a ## b".toList ∧
      (∃ values, CarriedOut values (bodyParts "a ## b".toList) [] ['a']
        ⟨[.mark ' '], [.mark ' '], ['b']⟩ "foobar".toList) ∧
      (table.expand "CAT( foo, bar /* c */ )").text = "foobar".toList := by
  let definition := MacroDefinition.make "CAT" (some ["a", "b"]) "a ## b"
  have hdefinition : ∃ parameters ∈ definition.parameters.toList, ∃ body ∈ definition.body.toList,
      parameters.map Token.text = ["a", "b"] ∧ body.text = "a ## b" ∧
        definition.isWellFormed = true ∧ definition.isVariadic = false := by
    decide +kernel
  simp only [Option.mem_toList] at hdefinition
  obtain ⟨parameters, hparameters, body, hbody, hnames, htext, hwell, hvariadic⟩ := hdefinition
  obtain ⟨first, rest, rfl, hfirst, hrest⟩ := List.map_eq_cons_iff.1 hnames
  obtain ⟨second, rfl, hsecond⟩ := List.map_eq_singleton_iff.1 hrest
  replace hfirst : first.chars = ['a'] := congrArg String.toList hfirst
  replace hsecond : second.chars = ['b'] := congrArg String.toList hsecond
  let table := MacroTable.empty.insert definition
  have hget : table.get? "CAT" = some definition :=
    (MacroTable.get?_insert _ _ _).trans (if_pos rfl)
  have hgroup : ∃ t ∈ TokenStream.ofChars .source 0 0 "( foo, bar /* c */ )".toList,
      TokenStream.ofChars .source 0 0 "( foo, bar /* c */ )".toList = [t] ∧
        t.kind = .group .paren := by decide +kernel
  obtain ⟨t, -, ht⟩ := hgroup
  have hbalanced : (Invocation.call "CAT".toList definition [first, second] []
      " foo, bar /* c */ ".toList).Balanced := ⟨t, ht⟩
  have hreads : Reads table [] "CAT( foo, bar /* c */ )".toList ([] ++ [.invocation
      (.call "CAT".toList definition [first, second] [] " foo, bar /* c */ ".toList)]) :=
    reads_call ⟨by decide, List.all_eq_true.1 (by decide), by decide⟩ hget List.not_mem_nil
      hparameters hbalanced
  have hentries : entries " foo, bar /* c */ ".toList =
      [" foo".toList, " bar /* c */ ".toList] := by decide +kernel
  obtain ⟨hexpand, -, hstays, hcarried⟩ := call_joins_words hreads hbody hwell (by simp)
    (by rw [hentries, hvariadic]; exact Nat.le_refl 2)
  have hbodyChars : body.chars = "a ## b".toList := congrArg String.toList htext
  have hparts : bodyParts "a ## b".toList = [] ++ .word ['a'] ::
      ((Join.mk [.mark ' '] [.mark ' '] ['b']).parts ++ []) := by decide +kernel
  have hunits : units (bodyParts "a ## b".toList) =
      [.chain ['a'] [⟨[.mark ' '], [.mark ' '], ['b']⟩]] := by decide +kernel
  rw [hentries, hvariadic, hbodyChars] at hstays hcarried
  have hjoined := hcarried [] ['a'] ⟨[.mark ' '], [.mark ' '], ['b']⟩ [] hparts
    (by decide) (by simp [IsQuoted])
  have hclean : cleanArgument " foo".toList = "foo".toList ∧
      cleanArgument " bar /* c */ ".toList = "bar".toList := by decide +kernel
  have hvalues : bound [first, second] ((passed false [first, second].length
      [" foo".toList, " bar /* c */ ".toList]).map (prepared table [])) =
      [⟨['a'], "foo".toList, (argumentExpansion table [] " foo".toList).text⟩,
        ⟨['b'], "bar".toList, (argumentExpansion table [] " bar /* c */ ".toList).text⟩] := by
    rw [← hclean.1, ← hclean.2, ← hfirst, ← hsecond]
    rfl
  have hscanned : ∀ x y, substitute [⟨['a'], "foo".toList, x⟩, ⟨['b'], "bar".toList, y⟩]
      "a ## b".toList = "foobar".toList := by
    intro x y
    rw [substitute_eq, hunits]
    rfl
  rw [hvalues, hscanned] at hstays hjoined
  have hunregistered : table.get? (String.ofList "foobar".toList) = none :=
    (MacroTable.get?_insert _ _ _).trans (if_neg (by decide))
  have hword : IsWord "foobar".toList [] := ⟨by decide, List.all_eq_true.1 (by decide), by simp⟩
  have htext := hstays [.word "foobar".toList]
    (Reads.singleton (word_stands_of_unregistered hword hunregistered)) (by simp)
  refine ⟨table, definition, [first, second], body, hget, hparameters, hbody, hbodyChars,
    ⟨_, hjoined⟩, ?_⟩
  rw [MacroTable.expand, hexpand]
  simpa [Expansion.join] using htext

/-- A macro without a parameter list keeps its operator, and so does one behind a comma. -/
theorem operators_left_in_place :
    ((MacroTable.empty.insert (MacroDefinition.make "AB" none "a ## b")).expand "AB").text =
        "a ## b".toList ∧
      ((MacroTable.empty.insert (MacroDefinition.make "P" (some ["x"]) ", ## x")).expand
        "P(2)").text = ", ## 2".toList := by
  constructor
  · let table := MacroTable.empty.insert (MacroDefinition.make "AB" none "a ## b")
    have hname : pieces table [] "AB".toList =
        .name "AB" (MacroDefinition.make "AB" none "a ## b") :: [].map .copied := by decide +kernel
    have hbody : pieces table ["AB"] "a ## b".toList =
        [['a'], [' '], ['#'], ['#'], [' '], ['b']].map .copied := by decide +kernel
    rw [MacroTable.expand, expand_of_pieces_name "a ## b".toList hname (by decide +kernel)
      (by decide +kernel), expand_of_pieces_copied hbody]
    rfl
  · let table := MacroTable.empty.insert (MacroDefinition.make "P" (some ["x"]) ", ## x")
    have hget : table.get? "P" = some (MacroDefinition.make "P" (some ["x"]) ", ## x") := by
      simp [table, MacroTable.get?_insert, MacroDefinition.make]
    obtain ⟨parameter, body, hone, hparameter, hbody⟩ := exists_oneParameter
      (by decide) hget (by decide +kernel) (by decide)
    have hargument : SingleArgument "2".toList := by
      apply SingleArgument.of_kinds
      · decide +kernel
      · decide +kernel
    have hclean : cleanArgument "2".toList = ['2'] := by decide +kernel
    have hexpanded : pieces table [] ['2'] = [['2']].map .copied := by decide +kernel
    have hbound : bound [parameter] [prepared table [] "2".toList] = [⟨['x'], ['2'], ['2']⟩] := by
      rw [prepared, argumentExpansion, hclean, expand_of_pieces_copied hexpanded, ← hparameter]
      rfl
    have hput : substituted [parameter] [prepared table [] "2".toList] body.chars =
        ", ## 2".toList := by
      rw [substituted, hbound, hbody]
      decide +kernel
    have hplain : pieces table ["P"] ", ## 2".toList =
        [[','], [' '], ['#'], ['#'], [' '], ['2']].map .copied := by decide +kernel
    have hexpand := hone.expand_of_isWellFormed (by decide +kernel) List.not_mem_nil hargument
    rw [hput, String.ofList_toList, expand_of_pieces_copied hplain] at hexpand
    exact congrArg Expansion.text hexpand

end CBoundary.MacroExpansion
