import CBoundary.ModuleConfig
import CBoundary.Proofs.BlankedText
import CBoundary.Proofs.LineContinuation

/-!
Macros that are defined from outside the sources. `NAME(a, b)=body` is cut at its equality sign and
its commas and put together again, and `#define NAME(a, b) body` is read from front to back; but for
positions both give the same definition. Parameters may have blanks around them, which neither
keeps, and the blank in front of the body of a directive is trimmed away, whatever is behind it.
Main statement: `given_agrees_with_directive`.
-/
namespace CBoundary

open CharacterClass TextPosition

section Characters

variable {c d : Char} {text front back : List Char}

theorem isWordChar_of_isAlphanum (h : c.isAlphanum = true) : isWordChar c = true := by
  have hascii : c.val < 0x80 := by
    unfold Char.isAlphanum Char.isAlpha Char.isUpper Char.isLower Char.isDigit at h
    simp only [Bool.or_eq_true, Bool.and_eq_true, decide_eq_true_eq, UInt32.le_iff_toNat_le,
      ge_iff_le] at h
    obtain ⟨hupper, hlower, hdigit⟩ : 'Z'.val.toNat = 90 ∧ 'z'.val.toNat = 122 ∧
        '9'.val.toNat = 57 := ⟨rfl, rfl, rfl⟩
    rw [UInt32.lt_iff_toNat_lt, show (0x80 : UInt32).toNat = 128 from rfl]
    omega
  simp [isWordChar, isAlphanumeric, hascii, h]

theorem isWhitespace_of_isWordChar (h : isWordChar c = true) : isWhitespace c = false := by
  cases hspace : isWhitespace c with
  | false => rfl
  | true => simp [MacroExpansion.isWordChar_of_isWhitespace hspace] at h

theorem trimEnd_padded (hback : ∀ c ∈ back, isWhitespace c = true)
    (hlast : ∀ c, text.getLast? = some c → isWhitespace c = false) :
    trimEnd (text ++ back) = text := by
  have hreverse (c : Char) (hc : text.reverse.head? = some c) : isWhitespace c = false :=
    hlast c (by rwa [← List.head?_reverse])
  rw [trimEnd, List.reverse_append, MacroDefinition.dropWhile_front
    (fun c hc => hback c (List.mem_reverse.1 hc)) hreverse, List.reverse_reverse]

theorem trim_padded (hfront : ∀ c ∈ front, isWhitespace c = true)
    (hback : ∀ c ∈ back, isWhitespace c = true)
    (hfirst : ∀ c, text.head? = some c → isWhitespace c = false)
    (hlast : ∀ c, text.getLast? = some c → isWhitespace c = false) (hne : text ≠ []) :
    trim (front ++ text ++ back) = text := by
  have hstart : trimStart (front ++ text ++ back) = text ++ back := by
    rw [trimStart, List.append_assoc]
    refine MacroDefinition.dropWhile_front hfront fun c hc => hfirst c ?_
    rwa [List.head?_append_of_ne_nil _ hne] at hc
  rw [trim, hstart, trimEnd_padded hback hlast]

theorem trim_eq_self (hfirst : ∀ c, text.head? = some c → isWhitespace c = false)
    (hlast : ∀ c, text.getLast? = some c → isWhitespace c = false) (hne : text ≠ []) :
    trim text = text := by
  have hnone : ∀ c ∈ ([] : List Char), isWhitespace c = true := by simp
  simpa using trim_padded hnone hnone hfirst hlast hne

theorem trim_cons (h : isWhitespace c = true) (text : List Char) :
    trim (c :: text) = trim text := by
  rw [trim, trim, trimStart, List.dropWhile_cons_of_pos h, trimStart]

end Characters

namespace ExtraMacro

theorem isWordChar_of_isIdentifier {text : List Char} (h : isIdentifier text = true) :
    ∀ c ∈ text, isWordChar c = true := by
  simp only [isIdentifier, Bool.and_eq_true, List.all_eq_true, Bool.or_eq_true, beq_iff_eq] at h
  intro c hc
  rcases h.2 c hc with hletter | rfl
  · exact isWordChar_of_isAlphanum hletter
  · rfl

theorem ne_nil_of_isIdentifier {text : List Char} (h : isIdentifier text = true) : text ≠ [] := by
  rintro rfl
  cases h

theorem isDigit_of_starts {c : Char} (h : (c.isAlpha || c == '_') = true) : c.isDigit = false := by
  simp only [Bool.or_eq_true, beq_iff_eq] at h
  rcases h with h | rfl
  · unfold Char.isAlpha Char.isUpper Char.isLower at h
    simp only [Bool.or_eq_true, Bool.and_eq_true, decide_eq_true_eq, UInt32.le_iff_toNat_le,
      ge_iff_le] at h
    obtain ⟨hupper, hlower⟩ : 'A'.val.toNat = 65 ∧ 'a'.val.toNat = 97 := ⟨rfl, rfl⟩
    have habove : 57 < c.val := by
      rw [UInt32.lt_iff_toNat_lt, show (57 : UInt32).toNat = 57 from rfl]
      omega
    simp [Char.isDigit, habove]
  · rfl

theorem isDigit_of_isIdentifier {text : List Char} (h : isIdentifier text = true) :
    text.head?.any Char.isDigit = false := by
  simp only [isIdentifier, Bool.and_eq_true] at h
  cases hhead : text.head? with
  | none => rfl
  | some c =>
    have hfirst : (c.isAlpha || c == '_') = true := by simpa [hhead] using h.1
    exact isDigit_of_starts hfirst

end ExtraMacro

/-- A text without a newline is a single line. -/
theorem Extent.line_of_not_mem {newline escape : Char} {units : List Char} (hne : escape ≠ newline)
    (h : newline ∉ units) : Extent.line newline escape units = units.length := by
  obtain ⟨taken, behind, rfl, hline, hcount⟩ := Extent.exists_isLine hne units
  rcases hline with ⟨run, rfl, -⟩ | ⟨rfl, -⟩
  · exact absurd (by simp) h
  · rw [hcount, List.append_nil]

/-- A parameter as it is written: a name, three dots, or a name with three dots behind it, with
blanks around. -/
structure WrittenParameter where
  front : List Char
  name : List Char
  dots : Bool
  back : List Char
  front_blank : ∀ c ∈ front, isBlank c = true
  back_blank : ∀ c ∈ back, isBlank c = true
  name_identifier : ExtraMacro.isIdentifier name = true ∨ (name = [] ∧ dots = true)

namespace WrittenParameter

variable (p : WrittenParameter) {c : Char}

/-- The parameter without the blanks around it. -/
def core : List Char := p.name ++ if p.dots then ['.', '.', '.'] else []

def written : List Char := p.front ++ p.core ++ p.back

/-- The name by which the body refers to the parameter. -/
def text : String := if p.name = [] then MacroDefinition.variadicName else String.ofList p.name

theorem isWordChar_of_mem_name (h : c ∈ p.name) : isWordChar c = true := by
  rcases p.name_identifier with hid | ⟨hnil, -⟩
  · exact ExtraMacro.isWordChar_of_isIdentifier hid c h
  · simp [hnil] at h

theorem mem_core (h : c ∈ p.core) : isWordChar c = true ∨ c = '.' := by
  rcases List.mem_append.1 h with hname | hdots
  · exact .inl (p.isWordChar_of_mem_name hname)
  · split at hdots <;> simp_all

theorem core_ne_nil : p.core ≠ [] := by
  rcases p.name_identifier with hid | ⟨-, hdots⟩
  · simp [core, ExtraMacro.ne_nil_of_isIdentifier hid]
  · simp [core, hdots]

theorem isWhitespace_of_mem_core (h : c ∈ p.core) : isWhitespace c = false := by
  rcases p.mem_core h with hword | rfl
  · exact isWhitespace_of_isWordChar hword
  · rfl

theorem isWhitespace_head?_core : ∀ c, p.core.head? = some c → isWhitespace c = false :=
  fun _ hc => p.isWhitespace_of_mem_core (List.mem_of_mem_head? hc)

theorem isWhitespace_getLast?_core : ∀ c, p.core.getLast? = some c → isWhitespace c = false :=
  fun _ hc => p.isWhitespace_of_mem_core (List.mem_of_mem_getLast? hc)

theorem trim_written : trim p.written = p.core :=
  trim_padded (fun c hc => isWhitespace_of_isBlank (p.front_blank c hc))
    (fun c hc => isWhitespace_of_isBlank (p.back_blank c hc)) p.isWhitespace_head?_core
    p.isWhitespace_getLast?_core p.core_ne_nil

theorem trim_core : trim p.core = p.core :=
  trim_eq_self p.isWhitespace_head?_core p.isWhitespace_getLast?_core p.core_ne_nil

theorem mem_written_of_mem_core (h : c ∈ p.core) : c ∈ p.written :=
  List.mem_append_left _ (List.mem_append_right _ h)

/-- Neither brackets nor separators are written in a parameter. -/
theorem ne_of_mem_written {mark : Char} (hblank : isBlank mark = false)
    (hword : isWordChar mark = false) (hdot : mark ≠ '.') (h : c ∈ p.written) : c ≠ mark := by
  rintro rfl
  rcases List.mem_append.1 h with h | h
  · rcases List.mem_append.1 h with h | h
    · simp [p.front_blank c h] at hblank
    · rcases p.mem_core h with h | h
      · simp [h] at hword
      · exact hdot h
  · simp [p.back_blank c h] at hblank

end WrittenParameter

/-- A piece of a parameter list: no comma is in it, and something that is not white space. -/
def IsPiece (piece : List Char) : Prop :=
  ',' ∉ piece ∧ ∃ c ∈ piece, isWhitespace c = false

namespace WrittenParameter

variable (p : WrittenParameter)

theorem isPiece_written : IsPiece p.written := by
  obtain ⟨c, rest, hcore⟩ := List.exists_cons_of_ne_nil p.core_ne_nil
  have hc : c ∈ p.core := hcore ▸ List.mem_cons_self
  exact ⟨fun h => p.ne_of_mem_written rfl rfl (by decide) h rfl,
    c, p.mem_written_of_mem_core hc, p.isWhitespace_of_mem_core hc⟩

theorem isPiece_core : IsPiece p.core := by
  obtain ⟨c, rest, hcore⟩ := List.exists_cons_of_ne_nil p.core_ne_nil
  have hc : c ∈ p.core := hcore ▸ List.mem_cons_self
  exact ⟨fun h => p.isPiece_written.1 (p.mem_written_of_mem_core h), c, hc,
    p.isWhitespace_of_mem_core hc⟩

end WrittenParameter

namespace MacroDefinition

variable {piece other : List Char}

theorem splitAtCommas_of_not_mem (h : ',' ∉ piece) : splitAtCommas piece = [piece] := by
  induction piece with
  | nil => rfl
  | cons c piece ih =>
    obtain ⟨hc, hrest⟩ := not_or.1 (List.mem_cons.not.1 h)
    rw [splitAtCommas, if_neg (Ne.symm hc), ih hrest]

theorem splitAtCommas_append (h : ',' ∉ piece) (later : List Char) :
    splitAtCommas (piece ++ ',' :: later) = piece :: splitAtCommas later := by
  induction piece with
  | nil => simp [splitAtCommas]
  | cons c piece ih =>
    obtain ⟨hc, hrest⟩ := not_or.1 (List.mem_cons.not.1 h)
    rw [List.cons_append, splitAtCommas, if_neg (Ne.symm hc), ih hrest]

theorem splitAtCommas_intercalate {pieces : List (List Char)} (hne : pieces ≠ [])
    (h : ∀ piece ∈ pieces, ',' ∉ piece) : splitAtCommas ([','].intercalate pieces) = pieces := by
  induction pieces with
  | nil => exact absurd rfl hne
  | cons piece pieces ih =>
    obtain ⟨hpiece, hrest⟩ := List.forall_mem_cons.1 h
    cases pieces with
    | nil => rw [List.intercalate_singleton, splitAtCommas_of_not_mem hpiece]
    | cons next pieces =>
      rw [List.intercalate_cons_cons, List.append_assoc, List.singleton_append,
        splitAtCommas_append hpiece, ih (by simp) hrest]

theorem mem_of_mem_intercalate {pieces : List (List Char)} {c : Char}
    (h : c ∈ [','].intercalate pieces) : c = ',' ∨ ∃ piece ∈ pieces, c ∈ piece := by
  induction pieces with
  | nil => simp at h
  | cons piece pieces ih =>
    cases pieces with
    | nil =>
      rw [List.intercalate_singleton] at h
      exact .inr ⟨piece, List.mem_cons_self, h⟩
    | cons next pieces =>
      rw [List.intercalate_cons_cons, List.mem_append, List.mem_append] at h
      rcases h with (h | h) | h
      · exact .inr ⟨piece, List.mem_cons_self, h⟩
      · exact .inl (List.mem_singleton.1 h)
      · refine (ih h).imp_right fun ⟨other, hother, hc⟩ => ?_
        exact ⟨other, List.mem_cons_of_mem piece hother, hc⟩

/-- Neither the place of a parameter nor blanks around it matter. -/
theorem parameterOf_congr (index offset offset' : Nat) (h : trim piece = trim other) :
    Prod.map unplaced id (parameterOf index offset piece) =
      Prod.map unplaced id (parameterOf index offset' other) := by
  unfold parameterOf
  simp only [h]
  split
  · rfl
  · split <;> rfl

theorem parametersFrom_congr (index offset offset' : Nat) {pieces others : List (List Char)}
    (h : pieces.map trim = others.map trim) :
    (parametersFrom index offset pieces).map (Prod.map unplaced id) =
      (parametersFrom index offset' others).map (Prod.map unplaced id) := by
  induction pieces generalizing index offset offset' others with
  | nil =>
    rw [List.map_nil, eq_comm, List.map_eq_nil_iff] at h
    rw [h]
    rfl
  | cons piece pieces ih =>
    cases others with
    | nil => cases h
    | cons other others =>
      obtain ⟨hpiece, hrest⟩ := List.cons.inj h
      rw [parametersFrom, parametersFrom, List.map_cons, List.map_cons,
        parameterOf_congr index offset offset' hpiece, ih _ _ _ hrest]

/-- The definition without positions. -/
def withoutPlaces (d : MacroDefinition) : MacroDefinition :=
  { d with
    name := unplaced d.name
    parameters := d.parameters.map fun parameters => parameters.map unplaced
    body := d.body.map unplaced }

theorem isEmpty_trim_of_mem {text : List Char} {c : Char} (hc : c ∈ text)
    (hplain : isWhitespace c = false) : (trim text).isEmpty = false := by
  cases htrim : trim text with
  | cons d rest => rfl
  | nil =>
    obtain ⟨front, behind, htext, hfront, hbehind, -⟩ := exists_trim text
    rw [htrim, List.append_nil] at htext
    rw [htext] at hc
    rcases List.mem_append.1 hc with hc | hc
    · simp [hfront c hc] at hplain
    · simp [hbehind c hc] at hplain

theorem readParameters_intercalate {pieces : List (List Char)} (offset : Nat) (hne : pieces ≠ [])
    (hpieces : ∀ piece ∈ pieces, IsPiece piece) :
    readParameters offset ([','].intercalate pieces) =
      ((parametersFrom 0 offset pieces).map Prod.fst,
        (parametersFrom 0 offset pieces).any Prod.snd) := by
  have hsome : (trim ([','].intercalate pieces)).isEmpty = false := by
    cases pieces with
    | nil => exact absurd rfl hne
    | cons piece pieces =>
      obtain ⟨-, c, hc, hspace⟩ := hpieces piece List.mem_cons_self
      refine isEmpty_trim_of_mem (c := c) ?_ hspace
      cases pieces with
      | nil => rwa [List.intercalate_singleton]
      | cons next pieces =>
        rw [List.intercalate_cons_cons]
        exact List.mem_append_left _ (List.mem_append_left _ hc)
  simp only [readParameters, hsome,
    splitAtCommas_intercalate hne fun piece hpiece => (hpieces piece hpiece).1,
    Bool.false_eq_true, if_false]

/-- Parameters that differ in blanks around them are read alike. -/
theorem readParameters_written (offset : Nat) (ps : List WrittenParameter) :
    Prod.map (List.map unplaced) id
        (readParameters offset ([','].intercalate (ps.map WrittenParameter.written))) =
      Prod.map (List.map unplaced) id
        (readParameters 0 ([','].intercalate (ps.map WrittenParameter.core))) := by
  by_cases hnil : ps = []
  · subst hnil
    rfl
  · have hsame : (parametersFrom 0 offset (ps.map WrittenParameter.written)).map
        (Prod.map unplaced id) =
          (parametersFrom 0 0 (ps.map WrittenParameter.core)).map (Prod.map unplaced id) := by
      refine parametersFrom_congr 0 offset 0 ?_
      simp [WrittenParameter.trim_written, WrittenParameter.trim_core]
    rw [readParameters_intercalate offset (by simpa using hnil)
        (List.forall_mem_map.2 fun p _ => p.isPiece_written),
      readParameters_intercalate 0 (by simpa using hnil)
        (List.forall_mem_map.2 fun p _ => p.isPiece_core)]
    refine Prod.ext ?_ ?_
    · simpa [Function.comp_def] using congrArg (List.map Prod.fst) hsame
    · simpa [Function.comp_def] using
        congrArg (fun read : List (Token × Bool) => read.any Prod.snd) hsame

theorem parameterOf_plain (index offset : Nat) (h : withoutDots? (trim piece) = none) :
    (parameterOf index offset piece).1.text = String.ofList (trim piece) ∧
      (parameterOf index offset piece).2 = false := by
  simp [parameterOf, h]

theorem parameterOf_dots {stem : List Char} (index offset : Nat)
    (h : withoutDots? (trim piece) = some stem) :
    (parameterOf index offset piece).1.text =
        (if trimEnd stem = [] then variadicName else String.ofList (trimEnd stem)) ∧
      (parameterOf index offset piece).2 = true := by
  simp only [parameterOf, h]
  cases trimEnd stem with
  | nil => exact ⟨rfl, rfl⟩
  | cons c rest => exact ⟨rfl, rfl⟩

/-- A parameter is read as the name that stands for it. -/
theorem parameterOf_core (index offset : Nat) (p : WrittenParameter) :
    (parameterOf index offset p.core).1.text = p.text ∧
      (parameterOf index offset p.core).2 = p.dots := by
  have hnames : ∀ c ∈ p.name, isWordChar c = true := fun c hc => p.isWordChar_of_mem_name hc
  cases hdots : p.dots with
  | false =>
    have hcore : p.core = p.name := by simp [WrittenParameter.core, hdots]
    have hnone : withoutDots? (trim p.core) = none := by
      refine Option.eq_none_iff_forall_ne_some.2 fun stem hstem => ?_
      have hdot : '.' ∈ p.name := by
        rw [← hcore, ← p.trim_core, withoutDots?_eq_some hstem]
        simp
      cases hnames '.' hdot
    obtain ⟨htext, hvariadic⟩ := parameterOf_plain index offset hnone
    have hname : p.name ≠ [] := hcore ▸ p.core_ne_nil
    rw [htext, p.trim_core, hcore, WrittenParameter.text, if_neg hname]
    exact ⟨rfl, hcore ▸ hvariadic⟩
  | true =>
    have hsome : withoutDots? (trim p.core) = some p.name := by
      rw [p.trim_core]
      simp [withoutDots?, WrittenParameter.core, hdots]
    have hstem : trimEnd p.name = p.name := by
      have hend : ∀ c, p.name.getLast? = some c → isWhitespace c = false := fun c hc =>
        isWhitespace_of_isWordChar (hnames c (List.mem_of_mem_getLast? hc))
      have hnone : ∀ c ∈ ([] : List Char), isWhitespace c = true := by simp
      simpa using trimEnd_padded hnone hend
    obtain ⟨htext, hvariadic⟩ := parameterOf_dots index offset hsome
    rw [hstem] at htext
    exact ⟨htext, hvariadic⟩

theorem parametersFrom_core (index offset : Nat) (ps : List WrittenParameter) :
    (parametersFrom index offset (ps.map WrittenParameter.core)).map (fun read => read.1.text) =
        ps.map WrittenParameter.text ∧
      (parametersFrom index offset (ps.map WrittenParameter.core)).any Prod.snd =
        ps.any WrittenParameter.dots := by
  induction ps generalizing index offset with
  | nil => exact ⟨rfl, rfl⟩
  | cons p ps ih =>
    obtain ⟨htext, hdots⟩ := parameterOf_core index offset p
    obtain ⟨htexts, hany⟩ := ih (index + 1) (offset + byteLength p.core + 1)
    simp [parametersFrom, htext, hdots, htexts, hany]

theorem texts_map_unplaced (tokens : List Token) :
    TokenList.texts (tokens.map unplaced) = TokenList.texts tokens := by
  rw [TokenList.texts, TokenList.texts, List.map_map]
  rfl

theorem toList_cores (ps : List WrittenParameter) :
    (String.intercalate "," (ps.map fun p => String.ofList p.core)).toList =
      [','].intercalate (ps.map WrittenParameter.core) := by
  simp [Function.comp_def]

/-- The parameters that are read are those that are written. -/
theorem readParameters_core (ps : List WrittenParameter) :
    TokenList.texts (readParameters 0 ([','].intercalate (ps.map WrittenParameter.core))).1 =
        ps.map WrittenParameter.text ∧
      (readParameters 0 ([','].intercalate (ps.map WrittenParameter.core))).2 =
        ps.any WrittenParameter.dots := by
  by_cases hnil : ps = []
  · subst hnil
    exact ⟨rfl, rfl⟩
  · obtain ⟨htexts, hany⟩ := parametersFrom_core 0 0 ps
    rw [readParameters_intercalate 0 (by simpa using hnil)
      (List.forall_mem_map.2 fun p _ => p.isPiece_core)]
    exact ⟨by rw [TokenList.texts, List.map_map]; exact htexts, hany⟩

theorem joinLines_of_not_mem {text : List Char} (h : '\n' ∉ text) : joinLines text = text := by
  fun_induction joinLines text with
  | case1 => simp at h
  | case2 => simp at h
  | case3 c rest hreturn hnewline ih => rw [ih fun hmem => h (List.mem_cons_of_mem c hmem)]
  | case4 => rfl

theorem map_unplaced_readBody (offset : Nat) (text : List Char) :
    (readBody offset text).map unplaced =
      if (trim (CommentBlanking.blankChars (joinLines text))).isEmpty then none
      else some ⟨0, Span.nowhere, .directive,
        String.ofList (trim (CommentBlanking.blankChars (joinLines text)))⟩ := by
  simp only [readBody]
  split <;> rfl

/-- A blank in front of a body is trimmed away. -/
theorem readBody_behind_blank (offset : Nat) (text : List Char) :
    (readBody offset (' ' :: text)).map unplaced = (readBody 0 text).map unplaced := by
  rw [map_unplaced_readBody, map_unplaced_readBody, joinLines_cons (by decide),
    CommentBlanking.blankChars_blank rfl, trim_cons rfl]

end MacroDefinition

namespace ExtraMacro

open MacroDefinition

/-- The parameter list with its parentheses, if there is one. -/
def parens : Option (List Char) → List Char
  | none => []
  | some inside => '(' :: inside ++ [')']

variable {name tail : List Char} {list : Option (List Char)}

theorem trim_name_parens (hname : isIdentifier name = true) :
    trim (name ++ parens list) = name ++ parens list := by
  have hne := ne_nil_of_isIdentifier hname
  have hplain (c : Char) (hc : c ∈ name) : isWhitespace c = false :=
    isWhitespace_of_isWordChar (isWordChar_of_isIdentifier hname c hc)
  refine trim_eq_self ?_ ?_ (by simp [hne])
  · intro c hc
    rw [List.head?_append_of_ne_nil _ hne] at hc
    exact hplain c (List.mem_of_mem_head? hc)
  · intro c hc
    cases list with
    | none =>
      rw [parens, List.append_nil] at hc
      exact hplain c (List.mem_of_mem_getLast? hc)
    | some inside =>
      rw [parens, ← List.append_assoc, List.getLast?_concat] at hc
      obtain rfl := Option.some.inj hc
      rfl

/-- A name, a parameter list without an equality sign, and a body behind one if there is any. -/
theorem parse?_written (hname : isIdentifier name = true) (hlist : '=' ∉ parens list)
    (htail : ∀ c, tail.head? = some c → c = '=') :
    parse? (String.ofList (name ++ parens list ++ tail)) =
      some ⟨String.ofList name, list.map parametersOf, String.ofList (tail.drop 1)⟩ := by
  have hword (c : Char) (hc : c ∈ name) : isWordChar c = true :=
    isWordChar_of_isIdentifier hname c hc
  have hfront (c : Char) (hc : c ∈ name ++ parens list) : (c != '=') = true := by
    rcases List.mem_append.1 hc with hc | hc
    · simpa using MacroExpansion.ne_of_isWordChar (hword c hc) (by decide)
    · simpa using fun heq : c = '=' => hlist (heq ▸ hc)
  have hsign (c : Char) (hc : tail.head? = some c) : (c != '=') = false := by simp [htail c hc]
  have hopens (c : Char) (hc : c ∈ name) : (c != '(') = true := by
    simpa using MacroExpansion.ne_of_isWordChar (hword c hc) (by decide)
  have hparens (c : Char) (hc : (parens list).head? = some c) : (c != '(') = false := by
    cases list with
    | none => simp [parens] at hc
    | some inside => obtain rfl := Option.some.inj hc; rfl
  simp only [parse?, String.toList_ofList, takeWhile_front hfront hsign,
    dropWhile_front hfront hsign, trim_name_parens hname, takeWhile_front hopens hparens,
    dropWhile_front hopens hparens, hname, if_true]
  cases list <;> simp [parens]

end ExtraMacro

/-- A macro that is given by name, parameters and body. -/
structure GivenMacro where
  name : List Char
  parameters : Option (List WrittenParameter)
  body : List Char
  name_identifier : ExtraMacro.isIdentifier name = true
  body_line : '\n' ∉ body

namespace GivenMacro

open MacroDefinition

variable (g : GivenMacro)

/-- The inside of the parameter list. -/
def list : Option (List Char) :=
  g.parameters.map fun ps => [','].intercalate (ps.map WrittenParameter.written)

theorem ne_of_mem_list {inside : List Char} (hlist : g.list = some inside) {c mark : Char}
    (hblank : isBlank mark = false) (hword : isWordChar mark = false) (hdot : mark ≠ '.')
    (hcomma : mark ≠ ',') (hc : c ∈ inside) : c ≠ mark := by
  obtain ⟨ps, -, rfl⟩ := Option.map_eq_some_iff.1 hlist
  rcases mem_of_mem_intercalate hc with rfl | ⟨piece, hpiece, hc⟩
  · exact hcomma.symm
  · obtain ⟨p, -, rfl⟩ := List.mem_map.1 hpiece
    exact p.ne_of_mem_written hblank hword hdot hc

theorem isWordChar_of_mem_name {c : Char} (hc : c ∈ g.name) : isWordChar c = true :=
  ExtraMacro.isWordChar_of_isIdentifier g.name_identifier c hc

/-- What the macro looks like in front of its body, if it is defined in the sources. -/
def head : DefinitionHead where
  indent := []
  gap := [' ']
  name := g.name
  list := g.list
  indent_blank := by simp
  gap_blank := by simp [isBlank]
  gap_ne_nil := by simp
  name_word := fun _ hc => g.isWordChar_of_mem_name hc
  name_ne_nil := ExtraMacro.ne_nil_of_isIdentifier g.name_identifier
  name_no_number := ExtraMacro.isDigit_of_isIdentifier g.name_identifier
  list_closed := fun _ hlist hmem => g.ne_of_mem_list hlist rfl rfl (by decide) (by decide) hmem rfl

/-- The macro as it is given from outside the sources. -/
def given : List Char := g.name ++ g.head.parens ++ '=' :: g.body

/-- The macro as it is defined in the sources. -/
def line : List Char :=
  '#' :: defineWord ++ ' ' :: (g.name ++ g.head.parens ++ ' ' :: g.body)

/-- What is read of a macro that is given. -/
def read : ExtraMacro :=
  ⟨String.ofList g.name,
    g.parameters.map (List.map fun p => String.ofList p.core), String.ofList g.body⟩

theorem parens_none (h : g.parameters = none) : g.head.parens = [] := by
  simp [DefinitionHead.parens, head, list, h]

theorem parens_some {ps : List WrittenParameter} (h : g.parameters = some ps) :
    g.head.parens = '(' :: ([','].intercalate (ps.map WrittenParameter.written) ++ [')']) := by
  simp [DefinitionHead.parens, head, list, h]

theorem ne_of_mem_front {c mark : Char} (hblank : isBlank mark = false)
    (hword : isWordChar mark = false) (hmarks : mark ∉ ['.', ',', '(', ')'])
    (hc : c ∈ g.name ++ g.head.parens) : c ≠ mark := by
  simp only [List.mem_cons, List.not_mem_nil, or_false, not_or] at hmarks
  obtain ⟨hdot, hcomma, hopens, hcloses⟩ := hmarks
  rcases List.mem_append.1 hc with hc | hc
  · exact MacroExpansion.ne_of_isWordChar (g.isWordChar_of_mem_name hc) hword
  · cases hparameters : g.parameters with
    | none => simp [g.parens_none hparameters] at hc
    | some ps =>
      rw [g.parens_some hparameters, List.mem_cons, List.mem_append, List.mem_singleton] at hc
      have hlist : g.list = some ([','].intercalate (ps.map WrittenParameter.written)) := by
        rw [list, hparameters, Option.map_some]
      rcases hc with rfl | hc | rfl
      · exact Ne.symm hopens
      · exact g.ne_of_mem_list hlist hblank hword hdot hcomma hc
      · exact Ne.symm hcloses

theorem parametersOf_list (ps : List WrittenParameter) :
    ExtraMacro.parametersOf ([','].intercalate (ps.map WrittenParameter.written)) =
      ps.map fun p => String.ofList p.core := by
  by_cases hnil : ps = []
  · subst hnil
    rfl
  · rw [ExtraMacro.parametersOf, splitAtCommas_intercalate (by simpa using hnil)
      (by simpa using fun p _ => p.isPiece_written.1), List.map_map, List.filter_eq_self.2]
    · simp [WrittenParameter.trim_written]
    · simp [WrittenParameter.trim_written, WrittenParameter.core_ne_nil]

theorem parens_head : g.head.parens = ExtraMacro.parens g.list := rfl

theorem parse?_given : ExtraMacro.parse? (String.ofList g.given) = some g.read := by
  have hlist : '=' ∉ ExtraMacro.parens g.list := fun hmem =>
    g.ne_of_mem_front rfl rfl (by decide) (List.mem_append_right g.name hmem) rfl
  rw [given, parens_head, ExtraMacro.parse?_written g.name_identifier hlist (by simp)]
  cases hparameters : g.parameters with
  | none => simp [list, read, hparameters]
  | some ps => simp [list, read, hparameters, parametersOf_list]

theorem line_eq : g.line = g.head.written ++ ' ' :: g.body := by
  have hlead : g.head.lead = '#' :: defineWord ++ [' '] := rfl
  have hname : g.head.name = g.name := rfl
  rw [line, DefinitionHead.written, hlead, hname]
  simp

theorem newline_notMem_line : '\n' ∉ g.line := by
  intro hmem
  have hstart : '\n' ∉ '#' :: defineWord ++ [' '] := by decide
  have hline : g.line =
      '#' :: defineWord ++ [' '] ++ (g.name ++ g.head.parens) ++ ' ' :: g.body := by
    simp [line]
  rw [hline, List.mem_append, List.mem_append, List.mem_cons] at hmem
  rcases hmem with (hmem | hmem) | hmem | hmem
  · exact hstart hmem
  · exact g.ne_of_mem_front rfl rfl (by decide) hmem rfl
  · cases hmem
  · exact g.body_line hmem

/-- The definition is a line of its own. -/
theorem ofSource_line (base : Nat) :
    TokenStream.ofSource base (String.ofList g.line) =
      [⟨0, ⟨base, base + byteLength g.line⟩, .directive, String.ofList g.line⟩] := by
  obtain ⟨rest, hrest⟩ : ∃ rest, g.line = '#' :: rest := ⟨_, rfl⟩
  have hnewline : '\n' ∉ rest := fun hmem =>
    g.newline_notMem_line (hrest ▸ List.mem_cons_of_mem '#' hmem)
  have hfirst : Lexeme.first .source '#' (rest ++ []) = (.directive, rest.length + 1) := by
    rw [List.append_nil, ← Extent.line_of_not_mem (by decide : '\\' ≠ '\n') hnewline, Nat.add_comm]
    rfl
  rw [TokenStream.ofSource, TokenStream.ofText, String.toList_ofList, hrest,
    ← List.append_nil ('#' :: rest), TokenStream.ofChars_lexeme 0 base hfirst,
    TokenStream.ofChars_nil]
  simp

/-- What is read of the definition. -/
theorem ofDirective?_line {t : Token} (ht : t.chars = g.line) :
    MacroDefinition.ofDirective? t = some (g.head.definition t.span.start (' ' :: g.body)) := by
  refine DefinitionHead.ofDirective?_written ?_ (ht.trans g.line_eq)
  rintro - c hc
  obtain rfl := Option.some.inj hc
  exact ⟨rfl, by decide⟩

/-- But for positions, both ways of defining the macro come to the same. -/
theorem withoutPlaces_definition (start : Nat) :
    (g.head.definition start (' ' :: g.body)).withoutPlaces = g.read.definition := by
  have hbody := readBody_behind_blank (start + byteLength g.head.written) g.body
  cases hparameters : g.parameters with
  | none =>
    have hlist : g.head.list = none := by simp [head, list, hparameters]
    simp only [withoutPlaces, DefinitionHead.definition, ExtraMacro.definition, make, read,
      hparameters, Option.map_none, hlist, String.toList_ofList, hbody, Option.getD_none]
    rfl
  | some ps =>
    have hread := readParameters_written (g.head.listStart start) ps
    have hlist : g.head.list = some ([','].intercalate (ps.map WrittenParameter.written)) := by
      simp [head, list, hparameters]
    have htokens := congrArg Prod.fst hread
    have hvariadic := congrArg Prod.snd hread
    simp only [Prod.map_fst, Prod.map_snd, id_eq] at htokens hvariadic
    simp only [withoutPlaces, DefinitionHead.definition, ExtraMacro.definition, make, read,
      hparameters, Option.map_some, hlist, toList_cores, String.toList_ofList, hbody, htokens,
      hvariadic, Option.getD_some]
    rfl

theorem isWellFormed_withoutPlaces (d : MacroDefinition) :
    d.withoutPlaces.isWellFormed = d.isWellFormed := by
  rw [isWellFormed, isWellFormed, withoutPlaces, Option.map_map]
  rfl

/-- The parameters and the body of a definition are those that are written. -/
structure Says (d : MacroDefinition) : Prop where
  name : d.name.text = String.ofList g.name
  parameters : d.parameters.map TokenList.texts = g.parameters.map (List.map WrittenParameter.text)
  body : d.body.map Token.chars =
    if trim (CommentBlanking.blankChars g.body) = [] then none
    else some (trim (CommentBlanking.blankChars g.body))
  isVariadic : d.isVariadic = (g.parameters.getD []).any WrittenParameter.dots
  preComment : d.preComment = none

theorem says_definition : g.Says g.read.definition := by
  have hbody : g.read.definition.body.map Token.chars =
      if trim (CommentBlanking.blankChars g.body) = [] then none
      else some (trim (CommentBlanking.blankChars g.body)) := by
    simp only [read, ExtraMacro.definition, make, String.toList_ofList, map_unplaced_readBody,
      joinLines_of_not_mem g.body_line, List.isEmpty_iff]
    split <;> simp [Token.chars]
  cases hparameters : g.parameters with
  | none => exact ⟨rfl, by simp [ExtraMacro.definition, make, read, hparameters], hbody,
      by simp [ExtraMacro.definition, make, read, hparameters], rfl⟩
  | some ps =>
    obtain ⟨htexts, hdots⟩ := readParameters_core ps
    refine ⟨rfl, ?_, hbody, ?_, rfl⟩
    · simp only [ExtraMacro.definition, make, read, hparameters, Option.map_some]
      rw [texts_map_unplaced, toList_cores, htexts]
    · simp only [ExtraMacro.definition, make, read, hparameters, toList_cores, Option.map_some,
        hdots, Option.getD_some]

theorem get?_registerExtraMacros (c : ModuleConfig) (earlier : List ExtraMacro) (m : ExtraMacro)
    (table : MacroTable) :
    ({ c with extraMacros := earlier ++ [m] }.registerExtraMacros table).get? m.name =
      some m.definition := by
  rw [ModuleConfig.registerExtraMacros, List.foldl_append]
  simp [MacroTable.get?_insert, ExtraMacro.definition, make]

/-- A macro that is given from outside the sources is the one that is defined by a line in them, but
for positions. -/
theorem given_agrees_with_directive (base : Nat) :
    ∃ m t d, ExtraMacro.parse? (String.ofList g.given) = some m ∧
      (∀ (c : ModuleConfig) (earlier : List ExtraMacro) (table : MacroTable),
        ({ c with extraMacros := earlier ++ [m] }.registerExtraMacros table).get?
          (String.ofList g.name) = some m.definition) ∧
      TokenStream.ofSource base (String.ofList g.line) = [t] ∧ ofDirective? t = some d ∧
      d.withoutPlaces = m.definition ∧ d.isWellFormed = m.definition.isWellFormed ∧
      g.Says m.definition := by
  have hsame := g.withoutPlaces_definition base
  refine ⟨g.read, _, _, g.parse?_given, fun c earlier table =>
    get?_registerExtraMacros c earlier g.read table, g.ofSource_line base,
    g.ofDirective?_line (by rw [Token.chars, String.toList_ofList]), hsame, ?_, g.says_definition⟩
  rw [← hsame, isWellFormed_withoutPlaces]

/-- A macro with a list of surplus arguments, a comment and an equality sign in its body. -/
theorem variadic_macro_given :
    ∃ g : GivenMacro, String.ofList g.given = "F(a, more...)=a == 1 /* x */ (more)" ∧
      String.ofList g.line = "#define F(a, more...) a == 1 /* x */ (more)" ∧
      ∃ m t d, ExtraMacro.parse? "F(a, more...)=a == 1 /* x */ (more)" = some m ∧
        TokenStream.ofSource 0 "#define F(a, more...) a == 1 /* x */ (more)" = [t] ∧
        ofDirective? t = some d ∧ d.withoutPlaces = m.definition ∧
        m.definition.parameters.map TokenList.texts = some ["a", "more"] ∧
        m.definition.isVariadic = true := by
  let first : WrittenParameter :=
    { front := [], name := ['a'], dots := false, back := []
      front_blank := by simp
      back_blank := by simp
      name_identifier := .inl (by decide) }
  let second : WrittenParameter :=
    { front := [' '], name := ['m', 'o', 'r', 'e'], dots := true, back := []
      front_blank := by simp [isBlank]
      back_blank := by simp
      name_identifier := .inl (by decide) }
  let g : GivenMacro :=
    { name := ['F'], parameters := some [first, second], body := "a == 1 /* x */ (more)".toList
      name_identifier := by decide
      body_line := by decide +kernel }
  have hgiven : String.ofList g.given = "F(a, more...)=a == 1 /* x */ (more)" := by decide +kernel
  have hline : String.ofList g.line = "#define F(a, more...) a == 1 /* x */ (more)" := by
    decide +kernel
  obtain ⟨m, t, d, hm, -, ht, hd, hsame, -, hsays⟩ := g.given_agrees_with_directive 0
  rw [hgiven] at hm
  rw [hline] at ht
  exact ⟨g, hgiven, hline, m, t, d, hm, ht, hd, hsame,
    hsays.parameters.trans (by decide +kernel), hsays.isVariadic.trans (by decide +kernel)⟩

end GivenMacro

end CBoundary
