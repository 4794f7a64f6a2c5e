import CBoundary.MacroExpansion

/-!
Expansion read piece by piece: the expansion of a text is the expansions of its pieces put
together, and what a piece becomes is a definition of its own.
-/
namespace CBoundary.MacroExpansion

/-- An argument of a call, expanded on its own. -/
def argumentExpansion (table : MacroTable) (aside : List String) (argument : List Char) :
    Expansion :=
  expand table aside (cleanArgument argument)

/-- An argument of a call as the body may use it: as it is written, and expanded. -/
def prepared (table : MacroTable) (aside : List String) (argument : List Char) :
    List Char × List Char :=
  (cleanArgument argument, (argumentExpansion table aside argument).text)

/-- The parameters of a macro with what a call gives them. -/
def bound (parameters : List Token) (arguments : List (List Char × List Char)) :
    List Substitution.Binding :=
  (parameters.zip arguments).map fun (parameter, written, expanded) =>
    ⟨parameter.chars, written, expanded⟩

/-- The body of a macro with the arguments of a call put in. -/
def substituted (parameters : List Token) (arguments : List (List Char × List Char))
    (body : List Char) : List Char :=
  Substitution.substitute (bound parameters arguments) body

/-- What a parameter stands for on its own is one of the arguments, expanded. -/
theorem expanded_mem_of_mem_bound {parameters : List Token}
    {arguments : List (List Char × List Char)} {b : Substitution.Binding}
    (h : b ∈ bound parameters arguments) : b.expanded ∈ arguments.map Prod.snd := by
  obtain ⟨⟨parameter, argument⟩, hzip, rfl⟩ := List.mem_map.1 h
  exact List.mem_map_of_mem (List.of_mem_zip hzip).2

/-- What a piece becomes. -/
def pieceExpansion (table : MacroTable) (aside : List String) : Piece → Expansion
  | .copied written => Expansion.copied written
  | .name macroName definition =>
      match definition.body with
      | none => Expansion.copied []
      | some body =>
          if definition.isWellFormed then expand table (macroName :: aside) body.chars
          else Expansion.copied body.chars
  | .call macroName definition parameters written arguments =>
      match definition.body with
      | none => Expansion.copied []
      | some body =>
          let raw := rawArguments definition parameters arguments
          if raw.length < parameters.length then
            ⟨written, [⟨macroName, raw.length, parameters.length, aside.reverse⟩]⟩
          else if !definition.isWellFormed then Expansion.copied body.chars
          else if parameters.isEmpty then expand table (macroName :: aside) body.chars
          else
            let result := expand table (macroName :: aside)
              (substituted parameters (raw.map (prepared table aside)) body.chars)
            ⟨result.text,
              raw.flatMap (fun argument => (argumentExpansion table aside argument).errors) ++
                result.errors⟩

/-- The expansion of a text is the expansions of its pieces put together. -/
theorem expand_eq_join (table : MacroTable) (aside : List String) (text : List Char) :
    expand table aside text =
      Expansion.join ((pieces table aside text).map (pieceExpansion table aside)) := by
  rw [expand]
  conv => rhs; rw [← List.attach_map_subtype_val (pieces table aside text), List.map_map]
  congr 2
  funext ⟨p, hp⟩
  cases p with
  | copied => rfl
  | name => rfl
  | call macroName definition parameters written arguments =>
    have harguments : ∀ raw : List (List Char),
        (raw.attach.map fun x =>
          (cleanArgument x.1, expand table aside (cleanArgument x.1))) =
          raw.map fun argument =>
            (cleanArgument argument, argumentExpansion table aside argument) := by
      intro raw
      exact List.attach_map_val
        (f := fun argument => (cleanArgument argument, argumentExpansion table aside argument))
    have hbindings : ∀ raw : List (List Char),
        ((parameters.zip (raw.map fun argument =>
            (cleanArgument argument, argumentExpansion table aside argument))).map fun entry =>
          (⟨entry.1.chars, entry.2.1, entry.2.2.text⟩ : Substitution.Binding)) =
          (parameters.zip (raw.map (prepared table aside))).map fun entry =>
            ⟨entry.1.chars, entry.2.1, entry.2.2⟩ := by
      intro raw
      rw [List.zip_map_right, List.zip_map_right, List.map_map, List.map_map]
      rfl
    simp only [Function.comp_apply, pieceExpansion]
    cases definition.body with
    | none => rfl
    | some body => simp only [harguments, hbindings, List.flatMap_map, substituted, bound]

section Runs

variable {table : MacroTable} {aside : List String} {macroName : String}
  {definition : MacroDefinition}

/-- A name on its own becomes the body, expanded with the name set aside. -/
theorem pieceExpansion_name (body : List Char) (hbody : definition.body.map Token.chars = some body)
    (hwell : definition.isWellFormed = true) :
    pieceExpansion table aside (.name macroName definition) =
      expand table (macroName :: aside) body := by
  obtain ⟨token, htoken, rfl⟩ := Option.map_eq_some_iff.1 hbody
  simp [pieceExpansion, htoken, hwell]

/-- So does a call without parameters, whatever stands between its parentheses. -/
theorem pieceExpansion_bare_call (body : List Char) {written arguments : List Char}
    (hbody : definition.body.map Token.chars = some body)
    (hwell : definition.isWellFormed = true) :
    pieceExpansion table aside (.call macroName definition [] written arguments) =
      expand table (macroName :: aside) body := by
  obtain ⟨token, htoken, rfl⟩ := Option.map_eq_some_iff.1 hbody
  simp [pieceExpansion, htoken, hwell]

/-- A text in which no macro is found stays as it is. -/
theorem expand_of_pieces_copied {text : List Char} {runs : List (List Char)}
    (h : pieces table aside text = runs.map .copied) :
    expand table aside text = Expansion.copied runs.flatten := by
  have hcopied : pieceExpansion table aside ∘ Piece.copied = Expansion.copied := rfl
  rw [expand_eq_join, h, List.map_map, hcopied]
  simp [Expansion.join, Expansion.copied, List.flatMap_map, List.flatMap_id']

/-- A text that opens with a name becomes what the name becomes and, behind it, the rest. -/
theorem expand_of_pieces_name {text : List Char} {runs : List (List Char)} (body : List Char)
    (h : pieces table aside text = .name macroName definition :: runs.map .copied)
    (hbody : definition.body.map Token.chars = some body)
    (hwell : definition.isWellFormed = true) :
    expand table aside text =
      Expansion.join [expand table (macroName :: aside) body, Expansion.copied runs.flatten] := by
  have hcopied : pieceExpansion table aside ∘ Piece.copied = Expansion.copied := rfl
  rw [expand_eq_join, h, List.map_cons, pieceExpansion_name body hbody hwell, List.map_map, hcopied]
  simp [Expansion.join, Expansion.copied, List.flatMap_map, List.flatMap_id']

end Runs

end CBoundary.MacroExpansion
