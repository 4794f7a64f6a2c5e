import CBoundary.Proofs.InvocationRange
import CBoundary.Proofs.TextBehind

/-!
The arguments of a call. The commas that are tokens of their own cut the argument list into entries,
so a comma in a group or in a literal cuts nothing. A macro that is not variadic needs as many
entries as it has parameters and passes over the ones behind them; the last parameter of a variadic
one gets all that is left, with its commas, and may get nothing. A call with fewer entries stays as
it is written and is reported. Main statements: `rawArguments_eq_passed`, `tooFew_of_mem_errors` and
`call_outcome`.
-/
namespace CBoundary.MacroExpansion

open splitArguments TextPosition CharacterClass

/-- The texts between the commas among some tokens. -/
def between (tokens : List Token) : List (List Char) :=
  (tokens.splitOnP (·.isPunct ",")).map (·.flatMap Token.chars)

/-- The entries of an argument list. -/
def entries (arguments : List Char) : List (List Char) :=
  between (TokenStream.ofChars .source 0 0 arguments)

/-- The fewest entries that a call of a macro with so many parameters may have. -/
def fewest (isVariadic : Bool) (count : Nat) : Nat := if isVariadic then count - 1 else count

/-- What the parameters of a macro get, each one entry, but the last one of a variadic macro all
that is left. -/
def passed (isVariadic : Bool) (count : Nat) (entries : List (List Char)) : List (List Char) :=
  if isVariadic then entries.take (count - 1) ++ [[','].intercalate (entries.drop (count - 1))]
  else entries.take count

section Between

variable {t : Token} {rest tokens : List Token} {text : List Char} {split : List (List Char)}

theorem between_comma (h : t.isPunct "," = true) : between (t :: rest) = [] :: between rest := by
  simp [between, List.splitOnP_cons_eq_if_modifyHead, h]

theorem between_other (h : t.isPunct "," = false) :
    between (t :: rest) = extend t.chars (between rest) := by
  obtain ⟨first, others, hsplit⟩ :=
    List.exists_cons_of_ne_nil (List.splitOnP_ne_nil (·.isPunct ",") rest)
  rw [between, List.splitOnP_cons_eq_if_modifyHead, if_neg (by simp [h]), between, hsplit]
  simp [extend]

theorem between_ne_nil (tokens : List Token) : between tokens ≠ [] := by
  simp [between, List.splitOnP_ne_nil]

theorem chars_of_isPunct (h : t.isPunct "," = true) : t.chars = [','] := by
  have htext : t.kind = .punctuation ∧ t.text = "," := by simpa [Token.isPunct] using h
  rw [Token.chars, htext.2]
  rfl

theorem length_extend (h : split ≠ []) : (extend text split).length = split.length := by
  obtain ⟨first, others, rfl⟩ := List.exists_cons_of_ne_nil h
  rfl

theorem take_extend (n : Nat) (h : split ≠ []) :
    (extend text split).take (n + 1) = extend text (split.take (n + 1)) := by
  obtain ⟨first, others, rfl⟩ := List.exists_cons_of_ne_nil h
  rfl

theorem intercalate_extend (h : split ≠ []) :
    [','].intercalate (extend text split) = text ++ [','].intercalate split := by
  obtain ⟨first, others, rfl⟩ := List.exists_cons_of_ne_nil h
  cases others with
  | nil => simp [extend]
  | cons second others => simp [extend, List.intercalate_cons_cons]

theorem intercalate_nil_cons (h : split ≠ []) :
    [','].intercalate ([] :: split) = ',' :: [','].intercalate split := by
  obtain ⟨first, others, rfl⟩ := List.exists_cons_of_ne_nil h
  simp [List.intercalate_cons_cons]

/-- With a comma between each two of them, the entries are the text. -/
theorem intercalate_between (tokens : List Token) :
    [','].intercalate (between tokens) = tokens.flatMap Token.chars := by
  induction tokens with
  | nil => rfl
  | cons t rest ih =>
    have hne := between_ne_nil rest
    by_cases hcomma : t.isPunct "," = true
    · rw [between_comma hcomma, intercalate_nil_cons hne, ih, List.flatMap_cons,
        chars_of_isPunct hcomma]
      rfl
    · rw [between_other (by simpa using hcomma), intercalate_extend hne, ih, List.flatMap_cons]

/-- A token that is no comma is within one entry. -/
theorem exists_mem_between (ht : t ∈ tokens) (h : t.isPunct "," = false) :
    ∃ entry ∈ between tokens, t.chars <:+: entry := by
  induction tokens with
  | nil => simp at ht
  | cons u rest ih =>
    by_cases hcomma : u.isPunct "," = true
    · rw [between_comma hcomma]
      rcases List.mem_cons.1 ht with rfl | ht
      · simp [hcomma] at h
      · obtain ⟨entry, hmem, hinfix⟩ := ih ht
        exact ⟨entry, List.mem_cons_of_mem [] hmem, hinfix⟩
    · rw [between_other (by simpa using hcomma)]
      obtain ⟨first, others, hbetween⟩ := List.exists_cons_of_ne_nil (between_ne_nil rest)
      rw [hbetween] at ih ⊢
      rcases List.mem_cons.1 ht with rfl | ht
      · exact ⟨t.chars ++ first, List.mem_cons_self, (List.prefix_append _ _).isInfix⟩
      · obtain ⟨entry, hmem, hinfix⟩ := ih ht
        rcases List.mem_cons.1 hmem with rfl | hmem
        · exact ⟨u.chars ++ entry, List.mem_cons_self,
            hinfix.trans (List.suffix_append _ _).isInfix⟩
        · exact ⟨entry, List.mem_cons_of_mem _ hmem, hinfix⟩

/-- Without a comma there is one entry. -/
theorem between_of_no_comma (h : ∀ t ∈ tokens, t.isPunct "," = false) :
    between tokens = [tokens.flatMap Token.chars] := by
  rw [between, List.splitOnP_eq_singleton h]
  rfl

theorem splitArguments_false (more : Nat) (tokens : List Token) :
    splitArguments false more tokens = (between tokens).take (more + 1) := by
  induction tokens generalizing more with
  | nil => simp [splitArguments, between]
  | cons t rest ih =>
    by_cases hcomma : t.isPunct "," = true
    · rw [between_comma hcomma]
      cases more with
      | zero => simp [splitArguments, hcomma]
      | succ more => simp [splitArguments, hcomma, ih]
    · have hother : t.isPunct "," = false := by simpa using hcomma
      rw [between_other hother, take_extend more (between_ne_nil rest), ← ih]
      simp [splitArguments, hother]

/-- Entries behind so many are put together again. -/
def collected (more : Nat) (entries : List (List Char)) : List (List Char) :=
  if entries.length ≤ more then entries
  else entries.take more ++ [[','].intercalate (entries.drop more)]

theorem collected_cons (more : Nat) (entry : List Char) (entries : List (List Char)) :
    collected (more + 1) (entry :: entries) = entry :: collected more entries := by
  unfold collected
  by_cases hle : entries.length ≤ more
  · simp [hle]
  · simp [hle]

theorem collected_zero (h : split ≠ []) : collected 0 split = [[','].intercalate split] := by
  simp [collected, h]

theorem extend_collected (more : Nat) (h : split ≠ []) :
    extend text (collected more split) = collected more (extend text split) := by
  cases more with
  | zero =>
    have hne : extend text split ≠ [] := by
      rw [← List.length_pos_iff, length_extend h]
      exact List.length_pos_iff.2 h
    rw [collected_zero h, collected_zero hne, intercalate_extend h]
    rfl
  | succ more =>
    obtain ⟨first, others, rfl⟩ := List.exists_cons_of_ne_nil h
    rw [collected_cons, extend, extend, collected_cons]

theorem splitArguments_true (more : Nat) (tokens : List Token) :
    splitArguments true more tokens = collected more (between tokens) := by
  induction tokens generalizing more with
  | nil => cases more <;> rfl
  | cons t rest ih =>
    have hne := between_ne_nil rest
    by_cases hcomma : t.isPunct "," = true
    · rw [between_comma hcomma]
      cases more with
      | zero =>
        simp only [splitArguments, hcomma, if_true, ih, collected_zero hne]
        rw [collected_zero (List.cons_ne_nil _ _), intercalate_nil_cons hne,
          chars_of_isPunct hcomma]
        rfl
      | succ more => simp [splitArguments, hcomma, ih, collected_cons]
    · have hother : t.isPunct "," = false := by simpa using hcomma
      rw [between_other hother, ← extend_collected more hne, ← ih]
      simp [splitArguments, hother]

end Between

section Arguments

variable {definition : MacroDefinition} {parameters : List Token} {arguments : List Char}

theorem entries_ne_nil (arguments : List Char) : entries arguments ≠ [] := between_ne_nil _

/-- The arguments of a macro that is not variadic. -/
theorem rawArguments_false (h : definition.isVariadic = false) :
    rawArguments definition parameters arguments =
      (entries arguments).take (parameters.length - 1 + 1) := by
  simp only [rawArguments, h, splitArguments_false, Bool.false_and, Bool.false_eq_true, if_false]
  rfl

/-- The arguments of a variadic macro. -/
theorem rawArguments_true (h : definition.isVariadic = true) :
    rawArguments definition parameters arguments =
      if (collected (parameters.length - 1) (entries arguments)).length + 1 = parameters.length
      then collected (parameters.length - 1) (entries arguments) ++ [[]]
      else collected (parameters.length - 1) (entries arguments) := by
  simp only [rawArguments, h, splitArguments_true, Bool.true_and, beq_iff_eq]
  rfl

/-- With too few entries the parameters get what there is. -/
theorem rawArguments_eq_entries
    (h : (entries arguments).length < fewest definition.isVariadic parameters.length) :
    rawArguments definition parameters arguments = entries arguments := by
  unfold fewest at h
  cases hvariadic : definition.isVariadic with
  | false =>
    simp only [hvariadic, Bool.false_eq_true, if_false] at h
    rw [rawArguments_false hvariadic, List.take_of_length_le (by omega)]
  | true =>
    simp only [hvariadic, if_true] at h
    have hall : collected (parameters.length - 1) (entries arguments) = entries arguments :=
      if_pos (by omega)
    rw [rawArguments_true hvariadic, hall, if_neg (by omega)]

/-- With enough entries every parameter gets its argument. -/
theorem rawArguments_eq_passed (hparameters : parameters ≠ [])
    (h : fewest definition.isVariadic parameters.length ≤ (entries arguments).length) :
    rawArguments definition parameters arguments =
      passed definition.isVariadic parameters.length (entries arguments) := by
  have hpos : 0 < parameters.length := List.length_pos_iff.2 hparameters
  unfold fewest at h
  cases hvariadic : definition.isVariadic with
  | false =>
    rw [rawArguments_false hvariadic, Nat.sub_add_cancel hpos]
    rfl
  | true =>
    simp only [hvariadic, if_true] at h
    rw [rawArguments_true hvariadic]
    by_cases hnothing : (entries arguments).length = parameters.length - 1
    · -- nothing is left for the last parameter
      have hall : collected (parameters.length - 1) (entries arguments) = entries arguments :=
        if_pos (by omega)
      rw [hall, if_pos (by omega), passed, if_pos rfl, ← hnothing, List.take_length,
        List.drop_length, List.intercalate_nil]
    · have hsome : collected (parameters.length - 1) (entries arguments) =
          passed true parameters.length (entries arguments) := if_neg (by omega)
      have hlength : (passed true parameters.length (entries arguments)).length =
          parameters.length := by
        simp [passed]
        omega
      rw [hsome, if_neg (by omega)]

theorem length_passed {isVariadic : Bool} {count : Nat} {entries : List (List Char)}
    (hcount : isVariadic = true → 0 < count) (h : fewest isVariadic count ≤ entries.length) :
    (passed isVariadic count entries).length = count := by
  unfold passed fewest at *
  cases isVariadic with
  | false =>
    have hle : count ≤ entries.length := h
    exact List.length_take_of_le hle
  | true =>
    have hpos := hcount rfl
    simp at h ⊢
    omega

/-- A call has fewer arguments than parameters just if it has too few entries. -/
theorem length_rawArguments_lt_iff :
    (rawArguments definition parameters arguments).length < parameters.length ↔
      (entries arguments).length < fewest definition.isVariadic parameters.length := by
  constructor
  · intro hlt
    by_contra henough
    have hne : parameters ≠ [] := by
      rintro rfl
      simp at hlt
    rw [rawArguments_eq_passed hne (by omega),
      length_passed (fun _ => List.length_pos_iff.2 hne) (by omega)] at hlt
    omega
  · intro hfew
    rw [rawArguments_eq_entries hfew]
    unfold fewest at hfew
    split at hfew
    · omega
    · exact hfew

end Arguments

section Calls

variable {table : MacroTable} {aside : List String} {macroName : String}
  {definition : MacroDefinition} {parameters : List Token} {written arguments : List Char}
  {body : Token}

/-- What a call comes to whose parameters get the arguments. -/
def applied (table : MacroTable) (aside : List String) (macroName : String)
    (definition : MacroDefinition) (parameters : List Token) (body : Token)
    (arguments : List (List Char)) : Expansion :=
  if !definition.isWellFormed then Expansion.copied body.chars
  else if parameters.isEmpty then expand table (macroName :: aside) body.chars
  else
    let result := expand table (macroName :: aside)
      (substituted parameters (arguments.map (prepared table aside)) body.chars)
    ⟨result.text,
      arguments.flatMap (fun argument => (argumentExpansion table aside argument).errors) ++
        result.errors⟩

theorem pieceExpansion_call (hbody : definition.body = some body) :
    pieceExpansion table aside (.call macroName definition parameters written arguments) =
      if (rawArguments definition parameters arguments).length < parameters.length then
        ⟨written, [⟨macroName, (rawArguments definition parameters arguments).length,
          parameters.length, aside.reverse⟩]⟩
      else applied table aside macroName definition parameters body
        (rawArguments definition parameters arguments) := by
  rw [pieceExpansion, hbody]
  rfl

/-- A call with too few entries stays as it is written. -/
theorem pieceExpansion_of_few (hbody : definition.body = some body)
    (h : (entries arguments).length < fewest definition.isVariadic parameters.length) :
    pieceExpansion table aside (.call macroName definition parameters written arguments) =
      ⟨written, [⟨macroName, (entries arguments).length, parameters.length, aside.reverse⟩]⟩ := by
  have hlt : (entries arguments).length < parameters.length := by
    unfold fewest at h
    split at h <;> omega
  rw [pieceExpansion_call hbody, rawArguments_eq_entries h, if_pos hlt]

/-- A call with enough entries is expanded. -/
theorem pieceExpansion_of_enough (hbody : definition.body = some body)
    (h : fewest definition.isVariadic parameters.length ≤ (entries arguments).length) :
    pieceExpansion table aside (.call macroName definition parameters written arguments) =
      applied table aside macroName definition parameters body
        (passed definition.isVariadic parameters.length (entries arguments)) := by
  rw [pieceExpansion_call hbody, if_neg (length_rawArguments_lt_iff.not.2 (by omega))]
  by_cases hparameters : parameters = []
  · -- without parameters the arguments are not looked at
    rw [applied, applied, hparameters]
    rfl
  · rw [rawArguments_eq_passed hparameters h]

/-- An error reports a call of a macro in the table that had too few entries, and was met within
the bodies of these macros. -/
def TooFew (table : MacroTable) (aside : List String) (e : ArityError) : Prop :=
  aside.reverse <+: e.stack ∧
    ∃ definition parameters, table.get? e.name = some definition ∧
      definition.parameters = some parameters ∧ e.expected = parameters.length ∧
      e.got < fewest definition.isVariadic parameters.length

/-- What is met within the body of a macro is met where the macro is called. -/
theorem TooFew.of_cons {e : ArityError} (h : TooFew table (macroName :: aside) e) :
    TooFew table aside e := by
  rw [TooFew, List.reverse_cons] at h
  exact ⟨(List.prefix_append ..).trans h.1, h.2⟩

/-- A call among the pieces of a text is a call of a macro in the table. -/
theorem registered_of_mem_pieces {text : List Char}
    (h : .call macroName definition parameters written arguments ∈ pieces table aside text) :
    table.get? macroName = some definition ∧ definition.parameters = some parameters := by
  obtain ⟨parts, hreads⟩ := exists_reads table aside text
  rw [hreads.pieces_eq] at h
  obtain ⟨s, hs, hpiece⟩ := List.mem_map.1 h
  obtain ⟨before, after, rfl⟩ := List.append_of_mem hs
  have hstands := hreads.stands_of_mem.1
  cases s with
  | invocation i =>
    cases i with
    | name word definition => simp [Stretch.piece, Invocation.piece] at hpiece
    | call word definition' parameters' gap inside =>
      simp only [Stretch.piece, Invocation.piece, Piece.call.injEq] at hpiece
      obtain ⟨rfl, rfl, rfl, -⟩ := hpiece
      exact ⟨hstands.names.registered, hstands.listed.1⟩
  | _ => simp [Stretch.piece] at hpiece

theorem tooFew_of_mem_applied {e : ArityError} {values : List (List Char)}
    (he : e ∈ (applied table aside macroName definition parameters body values).errors)
    (hinner : ∀ text, e ∈ (expand table (macroName :: aside) text).errors →
      TooFew table (macroName :: aside) e)
    (hvalues : ∀ value ∈ values, e ∈ (argumentExpansion table aside value).errors →
      TooFew table aside e) : TooFew table aside e := by
  unfold applied at he
  split at he
  · simp [Expansion.copied] at he
  · split at he
    · exact (hinner _ he).of_cons
    · rcases List.mem_append.1 he with he | he
      · obtain ⟨value, hvalue, he⟩ := List.mem_flatMap.1 he
        exact hvalues value hvalue he
      · exact (hinner _ he).of_cons

/-- What is reported by a piece is a call with too few entries, if that is so for the bodies and for
the shorter texts which the piece leads to. -/
theorem tooFew_of_mem_pieceExpansion {text : List Char} {p : Piece} {e : ArityError}
    (hp : p ∈ pieces table aside text) (he : e ∈ (pieceExpansion table aside p).errors)
    (hinner : ∀ name ∈ available table aside, ∀ text,
      e ∈ (expand table (name :: aside) text).errors → TooFew table (name :: aside) e)
    (hshorter : ∀ argument, byteLength argument < byteLength text →
      e ∈ (expand table aside argument).errors → TooFew table aside e) :
    TooFew table aside e := by
  have hfits := fits_of_mem_pieces hp
  cases p with
  | copied written => simp [pieceExpansion, Expansion.copied] at he
  | name name definition =>
    rw [pieceExpansion] at he
    split at he
    · simp [Expansion.copied] at he
    · split at he
      · exact (hinner name hfits _ he).of_cons
      · simp [Expansion.copied] at he
  | call name definition parameters written arguments =>
    obtain ⟨hname, hsize⟩ := hfits
    cases hbody : definition.body with
    | none => simp [pieceExpansion, hbody, Expansion.copied] at he
    | some body =>
      rw [pieceExpansion_call hbody] at he
      split at he
      · rename_i hlt
        obtain rfl := List.mem_singleton.1 he
        obtain ⟨hget, hparameters⟩ := registered_of_mem_pieces hp
        have hfew := length_rawArguments_lt_iff.1 hlt
        rw [← rawArguments_eq_entries hfew] at hfew
        exact ⟨List.prefix_rfl, definition, parameters, hget, hparameters, rfl, hfew⟩
      · refine tooFew_of_mem_applied he (hinner name hname) ?_
        intro argument hargument
        have hle := byteLength_le_of_mem_rawArguments hargument
        have hclean := byteLength_cleanArgument_le argument
        exact hshorter _ (by omega)

/-- Whatever a run reports is a call with too few entries. -/
theorem tooFew_of_mem_errors (table : MacroTable) (aside : List String) (text : List Char)
    {e : ArityError} (he : e ∈ (expand table aside text).errors) : TooFew table aside e := by
  rw [expand_eq_join, Expansion.join] at he
  obtain ⟨part, hpart, he⟩ := List.mem_flatMap.1 he
  obtain ⟨p, hp, rfl⟩ := List.mem_map.1 hpart
  refine tooFew_of_mem_pieceExpansion hp he ?_ ?_
  · intro name hname body hbody
    have hdeeper := length_available_lt hname
    exact tooFew_of_mem_errors table (name :: aside) body hbody
  · intro argument hlt hargument
    exact tooFew_of_mem_errors table aside argument hargument
termination_by ((available table aside).length, byteLength text)
decreasing_by
  · exact Prod.Lex.left _ _ hdeeper
  · exact Prod.Lex.right _ hlt

end Calls

/-- What stands in the place of a call, in any text and with any macros set aside. The entries are
the pieces between the commas that are tokens of their own, and every other token is within one of
them. The call is reported just if it has too few, and then it stays as it is written; otherwise
every parameter gets its argument. -/
theorem call_outcome {table : MacroTable} {aside : List String} {text word gap : List Char}
    {definition : MacroDefinition} {parameters : List Token} {arguments : List Char} {body : Token}
    {before after : List Stretch}
    (hreads : Reads table aside text
      (before ++ .invocation (.call word definition parameters gap arguments) :: after))
    (hbody : definition.body = some body)
    (hvariadic : definition.isVariadic = true → parameters ≠ []) :
    let call := Invocation.call word definition parameters gap arguments
    let outcome := (Stretch.invocation call).expansion table aside
    let count := (entries arguments).length
    let least := fewest definition.isVariadic parameters.length
    let values := passed definition.isVariadic parameters.length (entries arguments)
    let failure : ArityError := ⟨String.ofList word, count, parameters.length, aside.reverse⟩
    expand table aside text = Expansion.join (before.map (Stretch.expansion table aside) ++
        outcome :: after.map (Stretch.expansion table aside)) ∧
      (0 < count ∧ [','].intercalate (entries arguments) = arguments ∧
        ∀ t ∈ TokenStream.ofChars .source 0 0 arguments, t.isPunct "," = false →
          ∃ entry ∈ entries arguments, t.chars <:+: entry) ∧
      (failure ∈ outcome.errors ↔ count < least) ∧
      (count < least → outcome = ⟨call.written, [failure]⟩) ∧
      (least ≤ count → values.length = parameters.length ∧
        outcome = applied table aside (String.ofList word) definition parameters body
          values) := by
  intro call outcome count least values failure
  have hstands : call.Stands table aside (after.flatMap Stretch.written) := hreads.stands_of_mem.1
  have hwritten : call.written = word ++ gap ++ ('(' :: arguments ++ [')']) := by
    simp [call, Invocation.written, Invocation.word, Invocation.list]
  have hfew : count < least → outcome = ⟨call.written, [failure]⟩ := by
    intro h
    rw [hwritten]
    exact pieceExpansion_of_few hbody h
  have henough : least ≤ count → outcome = applied table aside (String.ofList word) definition
      parameters body values := fun h => pieceExpansion_of_enough hbody h
  refine ⟨?_, ⟨?_, ?_, ?_⟩, ⟨?_, ?_⟩, hfew, ?_⟩
  · rw [hreads.expand_eq, List.map_append, List.map_cons]
  · exact List.length_pos_iff.2 (entries_ne_nil arguments)
  · rw [entries, intercalate_between, TokenStream.flatMap_chars_ofChars]
  · exact fun t ht h => exists_mem_between ht h
  · intro hmem
    by_contra hle
    rw [henough (by omega)] at hmem
    have hreported : TooFew table aside failure :=
      tooFew_of_mem_applied hmem (fun _ => tooFew_of_mem_errors table _ _)
        fun _ _ => tooFew_of_mem_errors table aside _
    obtain ⟨-, found, parameters', hget, hparameters, -, hless⟩ := hreported
    obtain rfl := Option.some.inj (hget.symm.trans hstands.names.registered)
    obtain rfl := Option.some.inj (hparameters.symm.trans hstands.listed.1)
    exact hle hless
  · intro hlt
    rw [hfew hlt]
    exact List.mem_singleton_self failure
  · intro hle
    exact ⟨length_passed (fun h => List.length_pos_iff.2 (hvariadic h)) hle, henough hle⟩

/-- A word that can be the name of a macro. -/
structure IsName (word : List Char) : Prop where
  nonempty : word ≠ []
  wordChars : ∀ c ∈ word, isWordChar c = true
  notNumber : word.head?.any Char.isDigit = false

theorem isName_iff {word : List Char} : IsName word ↔
    (!word.isEmpty && word.all isWordChar && !word.head?.any Char.isDigit) = true := by
  simp only [Bool.and_eq_true, Bool.not_eq_true', List.isEmpty_eq_false_iff, List.all_eq_true]
  exact ⟨fun h => ⟨⟨h.nonempty, h.wordChars⟩, h.notNumber⟩, fun h => ⟨h.1.1, h.1.2, h.2⟩⟩

instance (word : List Char) : Decidable (IsName word) := decidable_of_iff' _ isName_iff

section Alone

variable {table : MacroTable} {aside : List String} {word arguments : List Char}
  {definition : MacroDefinition} {parameters : List Token}

/-- A group that is a single token ends where the text does. -/
theorem group?_of_balanced
    (h : (Invocation.call word definition parameters [] arguments).Balanced) :
    Lexeme.group? .source .paren (arguments ++ [')']) = some (arguments.length + 2) := by
  obtain ⟨t, htokens, hkind⟩ := h
  have hcons := TokenStream.ofChars_cons .source 0 0 '(' (arguments ++ [')'])
  have hwhole := TokenStream.flatMap_chars_ofChars .source 0 0 ('(' :: arguments ++ [')'])
  cases hfirst : Lexeme.first .source '(' (arguments ++ [')']) with
  | mk kind n =>
    rw [hfirst] at hcons
    obtain ⟨rfl, -⟩ := List.cons.inj (htokens.symm.trans hcons)
    obtain rfl : kind = .group .paren := hkind
    have hgroup := (Lexeme.group?_of_first hfirst).2
    have hbounds := Lexeme.group?_bounds hgroup
    -- the token is the whole text, and its length is what the group was found to have
    rw [htokens, List.flatMap_singleton, Token.chars, String.toList_ofList] at hwhole
    have hlength := congrArg List.length hwhole
    simp only [List.length_take, List.length_cons, List.length_append, List.length_nil]
      at hlength hbounds
    rw [hgroup]
    congr 1
    omega

/-- A stretch with nothing behind it is a text of its own. -/
theorem Reads.singleton {s : Stretch} (h : s.Stands table aside []) :
    Reads table aside s.written [s] := by
  have hreads := Reads.cons h .nil
  rwa [List.append_nil] at hreads

/-- A call whose group is balanced can stand in front of a text without slashes. -/
theorem call_stands (hname : IsName word) (hget : table.get? (String.ofList word) = some definition)
    (hfree : String.ofList word ∉ aside) (hparameters : definition.parameters = some parameters)
    (hbalanced : (Invocation.call word definition parameters [] arguments).Balanced)
    {behind : List Char} (hslash : '/' ∉ behind) :
    (Invocation.call word definition parameters [] arguments).Stands table aside behind := by
  refine ⟨⟨hname.nonempty, hname.wordChars, ?_⟩, ⟨hget, hname.notNumber, hfree⟩, hparameters, ?_,
    Lexeme.group?_behind (group?_of_balanced hbalanced) hslash⟩
  · intro c hc
    obtain rfl : '(' = c := Option.some.inj hc
    decide
  · simp

/-- A call whose group is balanced is a text of its own. -/
theorem reads_call (hname : IsName word) (hget : table.get? (String.ofList word) = some definition)
    (hfree : String.ofList word ∉ aside) (hparameters : definition.parameters = some parameters)
    (hbalanced : (Invocation.call word definition parameters [] arguments).Balanced) :
    Reads table aside (word ++ ('(' :: arguments ++ [')']))
      [.invocation (.call word definition parameters [] arguments)] :=
  Reads.singleton (s := .invocation _)
    (call_stands hname hget hfree hparameters hbalanced List.not_mem_nil)

end Alone

/-- A variadic macro with a group among its surplus arguments, whose comma is none of the list. -/
theorem surplus_arguments_collected :
    ∃ table definition parameters body,
      Reads table [] "V(a,(b,c),d)".toList
        [.invocation (.call ['V'] definition parameters [] "a,(b,c),d".toList)] ∧
      table.expand "V(a,(b,c),d)" = Expansion.join
        [applied table [] "V" definition parameters body [['a'], "(b,c),d".toList]] := by
  let definition := MacroDefinition.make "V" (some ["f", "..."]) "f(__VA_ARGS__)"
  have hdefinition : ∃ parameters ∈ definition.parameters.toList, ∃ body ∈ definition.body.toList,
      parameters.length = 2 ∧ definition.isVariadic = true ∧ body.text = "f(__VA_ARGS__)" := by
    decide +kernel
  simp only [Option.mem_toList] at hdefinition
  obtain ⟨parameters, hparameters, body, hbody, hlength, hvariadic, -⟩ := hdefinition
  let table := MacroTable.empty.insert definition
  have hget : table.get? (String.ofList ['V']) = some definition :=
    (MacroTable.get?_insert _ _ _).trans (if_pos rfl)
  have hgroup : ∃ t ∈ TokenStream.ofChars .source 0 0 "(a,(b,c),d)".toList,
      TokenStream.ofChars .source 0 0 "(a,(b,c),d)".toList = [t] ∧ t.kind = .group .paren := by
    decide +kernel
  obtain ⟨t, -, ht⟩ := hgroup
  have hbalanced : (Invocation.call ['V'] definition parameters [] "a,(b,c),d".toList).Balanced :=
    ⟨t, ht⟩
  have hreads : Reads table [] "V(a,(b,c),d)".toList
      ([] ++ [.invocation (.call ['V'] definition parameters [] "a,(b,c),d".toList)]) :=
    reads_call ⟨by decide, List.forall_mem_singleton.2 (by decide), by decide⟩ hget
      List.not_mem_nil hparameters hbalanced
  have hentries : entries "a,(b,c),d".toList = [['a'], "(b,c)".toList, ['d']] := by decide +kernel
  obtain ⟨hexpand, -, -, -, henough⟩ := call_outcome hreads hbody
    fun _ hnil => by simp [hnil] at hlength
  rw [hentries, hvariadic, hlength] at henough
  refine ⟨table, definition, parameters, body, hreads, hexpand.trans ?_⟩
  rw [(henough (by decide)).2]
  rfl

end CBoundary.MacroExpansion
