import CBoundary.Proofs.SingleParameter

/-!
What a definition is written like in front of its body: a number sign, the word `define`, the name
and, directly behind it, the parameter list if there is one. Reading a directive takes this apart,
and the body is read from what is left. Main statement: `ofDirective?_eq_some_iff`.
-/
namespace CBoundary

open CharacterClass TextPosition

/-- What stands in front of the body of a definition. -/
structure DefinitionHead where
  /-- What stands between the number sign and the word `define`. -/
  indent : List Char
  /-- What stands behind that word. -/
  gap : List Char
  name : List Char
  /-- The inside of the parameter list. -/
  list : Option (List Char)
  indent_blank : ∀ c ∈ indent, isBlank c = true
  gap_blank : ∀ c ∈ gap, isBlank c = true
  gap_ne_nil : gap ≠ []
  name_word : ∀ c ∈ name, isWordChar c = true
  name_ne_nil : name ≠ []
  name_no_number : name.head?.any Char.isDigit = false
  list_closed : ∀ inside, list = some inside → ')' ∉ inside

theorem exists_trimEnd (text : List Char) :
    ∃ behind, text = trimEnd text ++ behind ∧ ∀ c ∈ behind, isWhitespace c = true := by
  refine ⟨(text.reverse.takeWhile isWhitespace).reverse, ?_, fun c hc => ?_⟩
  · rw [trimEnd, ← List.reverse_append, List.takeWhile_append_dropWhile, List.reverse_reverse]
  · exact List.mem_takeWhile_imp (List.mem_reverse.1 hc)

/-- Trimming takes white space off both ends. -/
theorem exists_trim (text : List Char) :
    ∃ front behind, text = front ++ trim text ++ behind ∧
      (∀ c ∈ front, isWhitespace c = true) ∧ (∀ c ∈ behind, isWhitespace c = true) ∧
      byteLength text - byteLength (trimStart text) = byteLength front := by
  have hstart : text.takeWhile isWhitespace ++ trimStart text = text :=
    List.takeWhile_append_dropWhile
  obtain ⟨behind, hend, hbehind⟩ := exists_trimEnd (trimStart text)
  refine ⟨text.takeWhile isWhitespace, behind, ?_, fun c hc => List.mem_takeWhile_imp hc, hbehind,
    ?_⟩
  · rw [List.append_assoc, trim, ← hend, hstart]
  · have hlength := congrArg byteLength hstart
    rw [byteLength_append] at hlength
    omega

namespace MacroDefinition

/-- The word of a directive that defines a macro. -/
def defineWord : List Char := ['d', 'e', 'f', 'i', 'n', 'e']

section Front

variable {α : Type} {p : α → Bool} {front behind : List α}

theorem dropWhile_front (hfront : ∀ x ∈ front, p x = true)
    (hbehind : ∀ x, behind.head? = some x → p x = false) :
    (front ++ behind).dropWhile p = behind := by
  rw [List.dropWhile_append_of_pos hfront]
  cases behind with
  | nil => rfl
  | cons x rest => rw [List.dropWhile_cons_of_neg (by simp [hbehind x rfl])]

theorem takeWhile_front (hfront : ∀ x ∈ front, p x = true)
    (hbehind : ∀ x, behind.head? = some x → p x = false) :
    (front ++ behind).takeWhile p = front := by
  have hsplit := List.takeWhile_append_dropWhile (p := p) (l := front ++ behind)
  rw [dropWhile_front hfront hbehind] at hsplit
  exact List.append_cancel_right hsplit

theorem head?_dropWhile {text : List α} {x : α} (h : (text.dropWhile p).head? = some x) :
    p x = false := by
  obtain ⟨rest, hrest⟩ := List.head?_eq_some_iff.1 h
  have hhead := List.head_dropWhile_not p (l := text) (by simp [hrest])
  simpa [hrest] using hhead

end Front

/-- Behind a number sign, blanks around the word and whatever starts with no blank. -/
theorem afterDefine?_eq_some_iff {text behind : List Char} :
    afterDefine? text = some behind ↔
      (∀ c, behind.head? = some c → isBlank c = false) ∧
        ∃ indent gap, (∀ c ∈ indent, isBlank c = true) ∧ (∀ c ∈ gap, isBlank c = true) ∧
          gap ≠ [] ∧ text = '#' :: indent ++ defineWord ++ gap ++ behind := by
  constructor
  · intro h
    unfold afterDefine? at h
    split at h
    · rename_i rest
      split at h
      · rename_i c later hrest
        split at h
        · rename_i hblank
          obtain rfl := Option.some.inj h
          refine ⟨fun c hc => head?_dropWhile hc, rest.takeWhile isBlank,
            c :: later.takeWhile isBlank, fun c hc => List.mem_takeWhile_imp hc, ?_, by simp, ?_⟩
          · rintro d (_ | ⟨_, hd⟩)
            · exact hblank
            · exact List.mem_takeWhile_imp hd
          · have hsplit := List.takeWhile_append_dropWhile (p := isBlank) (l := rest)
            rw [hrest] at hsplit
            simpa [defineWord] using hsplit.symm
        · simp at h
      · simp at h
    · simp at h
  · rintro ⟨hbehind, indent, gap, hindent, hgap, hne, rfl⟩
    obtain ⟨c, gap, rfl⟩ := List.exists_cons_of_ne_nil hne
    obtain ⟨hc, hgap⟩ := List.forall_mem_cons.1 hgap
    have hdrop : (indent ++ (defineWord ++ (c :: gap ++ behind))).dropWhile isBlank =
        defineWord ++ (c :: gap ++ behind) := by
      apply dropWhile_front hindent
      rintro d ⟨⟩
      rfl
    simp only [afterDefine?, List.cons_append, List.append_assoc] at hdrop ⊢
    rw [hdrop]
    simp only [defineWord, List.cons_append, List.nil_append, if_pos hc,
      dropWhile_front hgap hbehind]

end MacroDefinition

namespace DefinitionHead

open MacroDefinition

variable (head : DefinitionHead)

/-- What stands in front of the name. -/
def lead : List Char := '#' :: head.indent ++ defineWord ++ head.gap

/-- The parameter list with its parentheses. -/
def parens : List Char :=
  match head.list with
  | none => []
  | some inside => '(' :: inside ++ [')']

def written : List Char := head.lead ++ head.name ++ head.parens

/-- A name without parameters ends where it does, and no parameter list follows. -/
def Fits (rest : List Char) : Prop :=
  head.list = none → ∀ c, rest.head? = some c → isWordChar c = false ∧ c ≠ '('

/-- Where the inside of the parameter list starts, in a text that starts at byte `start`. -/
def listStart (start : Nat) : Nat := start + byteLength head.lead + byteLength head.name + 1

/-- The definition in a text that starts at byte `start`, with the text behind the head. -/
def definition (start : Nat) (rest : List Char) : MacroDefinition where
  name := ⟨0, ⟨start + byteLength head.lead, start + byteLength head.lead + byteLength head.name⟩,
    .word, String.ofList head.name⟩
  parameters := head.list.map fun inside => (readParameters (head.listStart start) inside).1
  body := readBody (start + byteLength head.written) rest
  preComment := none
  isVariadic :=
    (head.list.map fun inside => (readParameters (head.listStart start) inside).2).getD false

variable {head} {rest : List Char}

theorem not_isWordChar_of_fits (h : head.Fits rest) {c : Char}
    (hc : (head.parens ++ rest).head? = some c) : isWordChar c = false := by
  cases hlist : head.list with
  | none =>
    rw [parens, hlist] at hc
    exact (h hlist c hc).1
  | some inside =>
    rw [parens, hlist] at hc
    obtain rfl := Option.some.inj hc
    rfl

theorem afterDefine?_lead (behind : List Char) :
    afterDefine? (head.lead ++ head.name ++ behind) = some (head.name ++ behind) := by
  rw [afterDefine?_eq_some_iff]
  refine ⟨fun c hc => ?_, head.indent, head.gap, head.indent_blank, head.gap_blank,
    head.gap_ne_nil, by simp [lead]⟩
  obtain ⟨d, name, hname⟩ := List.exists_cons_of_ne_nil head.name_ne_nil
  rw [hname] at hc
  obtain rfl := Option.some.inj hc
  exact MacroExpansion.isBlank_of_isWordChar (head.name_word d (by simp [hname]))

theorem afterDefine?_written (rest : List Char) :
    afterDefine? (head.written ++ rest) = some (head.name ++ (head.parens ++ rest)) := by
  rw [written, List.append_assoc, afterDefine?_lead]

/-- Reading takes the head off a directive that starts with it. -/
theorem ofDirective?_written {t : Token} (hrest : head.Fits rest)
    (ht : t.chars = head.written ++ rest) :
    ofDirective? t = some (head.definition t.span.start rest) := by
  have hname : (head.name ++ (head.parens ++ rest)).takeWhile isWordChar = head.name :=
    takeWhile_front head.name_word fun c hc => not_isWordChar_of_fits hrest hc
  have hbehind : (head.name ++ (head.parens ++ rest)).dropWhile isWordChar =
      head.parens ++ rest :=
    dropWhile_front head.name_word fun c hc => not_isWordChar_of_fits hrest hc
  have hfirst : ¬ (head.name.isEmpty || head.name.head?.any Char.isDigit) = true := by
    simp [head.name_ne_nil, head.name_no_number]
  have hposition (suffix front : List Char) (h : head.written ++ rest = front ++ suffix) :
      byteLength (head.written ++ rest) - byteLength suffix = byteLength front := by
    rw [h, byteLength_append, Nat.add_sub_cancel]
  have hatName := hposition (head.name ++ (head.parens ++ rest)) head.lead (by simp [written])
  have hatEnd := hposition (head.parens ++ rest) (head.lead ++ head.name) (by simp [written])
  have hatBody := hposition rest head.written rfl
  simp only [ofDirective?, ht, afterDefine?_written, Option.bind_eq_bind, Option.bind_some,
    hname, hbehind, if_neg hfirst, hatName, hatEnd]
  cases hlist : head.list with
  | none =>
    have hparens : head.parens = [] := by rw [parens, hlist]
    rw [hparens, List.nil_append] at hatEnd ⊢
    split
    · rename_i list hopens
      exact absurd rfl (hrest hlist '(' rfl).2
    · have hwritten : head.written = head.lead ++ head.name := by
        rw [written, hparens, List.append_nil]
      simp only [definition, hlist, hwritten, Option.map_none, Option.getD_none, byteLength_append,
        Nat.add_assoc]
      rfl
  | some inside =>
    have hparens : head.parens ++ rest = '(' :: (inside ++ ')' :: rest) := by
      rw [parens, hlist]
      simp
    have hinside (c : Char) (hc : c ∈ inside) : (c != ')') = true := by
      have hne : c ≠ ')' := fun h => head.list_closed inside hlist (h ▸ hc)
      simpa using hne
    have hlast (c : Char) (hc : (')' :: rest).head? = some c) : (c != ')') = false := by
      obtain rfl := Option.some.inj hc
      rfl
    have hatList := hposition (inside ++ ')' :: rest) (head.lead ++ head.name ++ ['('])
      (by simp [written, hparens])
    have hcontains : (inside ++ ')' :: rest).contains ')' = true := by simp
    simp only [hparens, if_pos hcontains, takeWhile_front hinside hlast,
      dropWhile_front hinside hlast, List.tail_cons, hatBody, hatList]
    simp only [definition, hlist, listStart, byteLength_append, Option.map_some, Option.getD_some,
      Nat.add_assoc]
    rfl

/-- A directive that is read as a definition starts with a head, and the body is read from what
stands behind it. -/
theorem exists_written {t : Token} {m : MacroDefinition} (h : ofDirective? t = some m) :
    ∃ (head : DefinitionHead) (rest : List Char), t.chars = head.written ++ rest ∧
      head.Fits rest := by
  simp only [ofDirective?, Option.bind_eq_bind, Option.bind_eq_some_iff] at h
  obtain ⟨atName, hafter, h⟩ := h
  obtain ⟨-, indent, gap, hindent, hgap, hne, htext⟩ := afterDefine?_eq_some_iff.1 hafter
  split at h
  · simp at h
  · rename_i hname
    simp only [Bool.or_eq_true, not_or, Bool.not_eq_true] at hname
    let head (list : Option (List Char)) (hlist : ∀ inside, list = some inside → ')' ∉ inside) :
        DefinitionHead :=
      { indent, gap, name := atName.takeWhile isWordChar, list
        indent_blank := hindent, gap_blank := hgap, gap_ne_nil := hne
        name_word := fun c hc => List.mem_takeWhile_imp hc
        name_ne_nil := by simpa using hname.1
        name_no_number := hname.2
        list_closed := hlist }
    have hname : t.chars =
        '#' :: indent ++ defineWord ++ gap ++ atName.takeWhile isWordChar ++
          atName.dropWhile isWordChar := by
      rw [List.append_assoc _ (atName.takeWhile isWordChar), List.takeWhile_append_dropWhile, htext]
    split at h
    · rename_i list hbehind
      split at h
      · rename_i hcontains
        obtain ⟨inside, rest, rfl, hinside⟩ :=
          List.eq_append_cons_of_mem (List.contains_iff_mem.1 hcontains)
        refine ⟨head (some inside) (by rintro _ ⟨⟩; exact hinside), rest, ?_, by simp [head, Fits]⟩
        rw [hname, hbehind]
        simp [head, written, lead, parens]
      · simp at h
    · rename_i hno
      refine ⟨head none (by simp), atName.dropWhile isWordChar, ?_, fun _ c hc =>
        ⟨head?_dropWhile hc, ?_⟩⟩
      · rw [hname]
        simp [head, written, lead, parens]
      · rintro rfl
        obtain ⟨later, hlater⟩ := List.head?_eq_some_iff.1 hc
        exact hno later hlater

theorem ofDirective?_eq_some_iff {t : Token} {m : MacroDefinition} :
    ofDirective? t = some m ↔
      ∃ (head : DefinitionHead) (rest : List Char), t.chars = head.written ++ rest ∧
        head.Fits rest ∧ m = head.definition t.span.start rest := by
  constructor
  · intro h
    obtain ⟨head, rest, ht, hrest⟩ := exists_written h
    exact ⟨head, rest, ht, hrest, Option.some.inj (h.symm.trans (ofDirective?_written hrest ht))⟩
  · rintro ⟨head, rest, ht, hrest, rfl⟩
    exact ofDirective?_written hrest ht

end DefinitionHead

end CBoundary
