import CBoundary.TokenStream
import CBoundary.Proofs.TextSlice

/-!
The tokens of a text partition it, whatever the text: brackets that are not balanced, literals
and comments that are not closed, stray backslashes and characters of several bytes included.
The invariant behind it is that a stream tiles the text it is read from, and reading adds one
tile at a time. Main statement: `ofText_partition`.
-/
namespace CBoundary.TokenCoverage

open TextPosition TextSlice Lexeme TokenStream

/-- The tokens stand side by side from byte `offset` on, each with the next index, and their
characters are those of the text. -/
def Tiles : Nat → Nat → List Char → List Token → Prop
  | _, _, text, [] => text = []
  | index, offset, text, t :: rest =>
      t.index = index ∧ t.span = ⟨offset, offset + byteLength t.chars⟩ ∧ t.chars ≠ [] ∧
        ∃ behind, text = t.chars ++ behind ∧
          Tiles (index + 1) (offset + byteLength t.chars) behind rest

/-- The tokens cut a text that starts at byte `base` of its file into pieces. -/
structure Partition (base : Nat) (text : String) (tokens : List Token) : Prop where
  /-- The first token starts where the text does. -/
  starts : ∀ t, tokens.head? = some t → t.span.start = base
  /-- Each token starts where the one before it stops. -/
  adjacent : ∀ (i : Nat) (t u : Token), tokens[i]? = some t → tokens[i + 1]? = some u →
    u.span.start = t.span.stop
  /-- No token is empty. -/
  nonempty : ∀ t ∈ tokens, t.span.start < t.span.stop
  /-- The last token stops where the text does. -/
  stops : ∀ t, tokens.getLast? = some t → t.span.stop = base + byteLength text.toList
  /-- The range of a token lies on character boundaries and holds the characters of its
  text. -/
  slices : ∀ t ∈ tokens, base ≤ t.span.start ∧
    slice? text.toList (t.span.start - base) (t.span.stop - base) = some t.chars
  /-- The bytes of the range are those of the token's text. -/
  bytes : ∀ t ∈ tokens,
    ((utf8 text.toList).drop (t.span.start - base)).take t.span.length = utf8 t.chars
  /-- Tokens are numbered from 0. -/
  indices : ∀ (i : Nat) (t : Token), tokens[i]? = some t → t.index = i
  /-- The texts of the tokens, put together, are the text. -/
  whole : TokenList.text tokens = text

theorem tiles_ofChars (mode : Mode) (index offset : Nat) (text : List Char) :
    Tiles index offset text (ofChars mode index offset text) := by
  induction hn : text.length using Nat.strongRecOn generalizing index offset text with
  | ind n ih =>
    match text with
    | [] => simp [Tiles]
    | c :: rest =>
      have hfirst := first_bounds mode c rest
      rw [ofChars_cons]
      refine ⟨rfl, ?_, ?_, (c :: rest).drop (first mode c rest).2, ?_, ?_⟩
      · simp [Token.chars]
      · obtain ⟨m, hm⟩ := Nat.exists_eq_succ_of_ne_zero (Nat.ne_of_gt hfirst.1)
        simp [Token.chars, hm]
      · simp [Token.chars]
      · have hlt : ((c :: rest).drop (first mode c rest).2).length < n := by
          simp only [List.length_drop, List.length_cons] at hn ⊢
          omega
        simpa [Token.chars] using ih _ hlt (index + 1)
          (offset + byteLength ((c :: rest).take (first mode c rest).2)) _ rfl

/-- One tile among others: what is before it and behind it in the text are the characters of
the tokens before it and behind it. -/
theorem Tiles.at_split {index offset : Nat} {text : List Char} {before behind : List Token}
    {t : Token} (h : Tiles index offset text (before ++ t :: behind)) :
    text = before.flatMap Token.chars ++ t.chars ++ behind.flatMap Token.chars ∧
      t.index = index + before.length ∧ t.chars ≠ [] ∧
      t.span.start = offset + byteLength (before.flatMap Token.chars) ∧
      t.span.stop = t.span.start + byteLength t.chars := by
  induction before generalizing index offset text with
  | nil =>
    obtain ⟨hindex, hspan, hne, rest, rfl, htiles⟩ := h
    have hrest : rest = behind.flatMap Token.chars := flatMap_chars htiles
    simp [hindex, hspan, hne, hrest]
  | cons u before ih =>
    obtain ⟨-, -, -, rest, rfl, htiles⟩ := h
    obtain ⟨rfl, hindex, hne, hstart, hstop⟩ := ih htiles
    refine ⟨by simp, ?_, hne, ?_, hstop⟩
    · rw [hindex, List.length_cons]
      omega
    · rw [hstart, List.flatMap_cons, byteLength_append]
      omega
where
  flatMap_chars {index offset : Nat} {text : List Char} {tokens : List Token}
      (h : Tiles index offset text tokens) : text = tokens.flatMap Token.chars := by
    induction tokens generalizing index offset text with
    | nil => exact h
    | cons t tokens ih =>
      obtain ⟨-, -, -, rest, rfl, htiles⟩ := h
      rw [ih htiles, List.flatMap_cons]

/-- A tile stands in the text at its range. -/
theorem Tiles.standsAt {index offset : Nat} {text : List Char} {tokens : List Token} {t : Token}
    (h : Tiles index offset text tokens) (ht : t ∈ tokens) :
    offset ≤ t.span.start ∧
      StandsAt text (t.span.start - offset) (t.span.stop - offset) t.chars := by
  obtain ⟨before, behind, rfl⟩ := List.append_of_mem ht
  obtain ⟨htext, -, -, hstart, hstop⟩ := h.at_split
  refine ⟨by omega, _, _, htext, by omega, by omega⟩

theorem exists_split_of_getElem? {α : Type} {xs : List α} {i : Nat} {x : α}
    (h : xs[i]? = some x) : ∃ before behind, xs = before ++ x :: behind ∧ before.length = i := by
  obtain ⟨hi, rfl⟩ := List.getElem?_eq_some_iff.1 h
  refine ⟨xs.take i, xs.drop (i + 1), ?_, ?_⟩
  · rw [List.getElem_cons_drop, List.take_append_drop]
  · rw [List.length_take]
    omega

theorem Tiles.index_eq {index offset : Nat} {text : List Char} {tokens : List Token} {i : Nat}
    {t : Token} (h : Tiles index offset text tokens) (ht : tokens[i]? = some t) :
    t.index = index + i := by
  obtain ⟨before, behind, rfl, rfl⟩ := exists_split_of_getElem? ht
  exact h.at_split.2.1

theorem Tiles.adjacent {index offset : Nat} {text : List Char} {tokens : List Token} {i : Nat}
    {t u : Token} (h : Tiles index offset text tokens) (ht : tokens[i]? = some t)
    (hu : tokens[i + 1]? = some u) : u.span.start = t.span.stop := by
  obtain ⟨before, behind, rfl, rfl⟩ := exists_split_of_getElem? ht
  rw [List.getElem?_append_right (by omega), Nat.add_sub_cancel_left, List.getElem?_cons_succ]
    at hu
  obtain ⟨rest, rfl⟩ : ∃ rest, behind = u :: rest := by
    cases behind with
    | nil => simp at hu
    | cons v rest => exact ⟨rest, by simpa using hu⟩
  obtain ⟨-, -, -, hstart, hstop⟩ := h.at_split
  have hsplit : before ++ t :: u :: rest = (before ++ [t]) ++ u :: rest := by simp
  rw [hsplit] at h
  obtain ⟨-, -, -, hstart', -⟩ := h.at_split
  rw [List.flatMap_append, byteLength_append] at hstart'
  simp only [List.flatMap_cons, List.flatMap_nil, List.append_nil] at hstart'
  omega

theorem Tiles.last_stop {index offset : Nat} {text : List Char} {tokens : List Token} {t : Token}
    (h : Tiles index offset text tokens) (ht : tokens.getLast? = some t) :
    t.span.stop = offset + byteLength text := by
  obtain ⟨before, rfl⟩ := List.getLast?_eq_some_iff.1 ht
  obtain ⟨htext, -, -, hstart, hstop⟩ := h.at_split
  rw [htext, List.flatMap_nil, List.append_nil, byteLength_append]
  omega

theorem toList_join (texts : List String) :
    (String.join texts).toList = texts.flatMap String.toList := by
  have hfold : ∀ start : String,
      (texts.foldl (· ++ ·) start).toList = start.toList ++ texts.flatMap String.toList := by
    induction texts with
    | nil => simp
    | cons first rest ih =>
      intro start
      rw [List.foldl_cons, ih, String.toList_append, List.flatMap_cons, List.append_assoc]
  exact hfold ""

/-- The tokens of a text partition it: they stand side by side from its start to its end,
none is empty, each has the bytes of its range as its text, and they are numbered from 0. -/
theorem ofText_partition (mode : Mode) (base : Nat) (text : String) :
    Partition base text (ofText mode base text) := by
  have htiles : Tiles 0 base text.toList (ofText mode base text) :=
    tiles_ofChars mode 0 base text.toList
  refine ⟨?_, ?_, ?_, ?_, ?_, ?_, ?_, ?_⟩
  · intro t ht
    obtain ⟨rest, hrest⟩ := List.head?_eq_some_iff.1 ht
    rw [hrest, ← List.nil_append (t :: rest)] at htiles
    simpa using htiles.at_split.2.2.2.1
  · intro i t u ht hu
    exact htiles.adjacent ht hu
  · intro t ht
    obtain ⟨before, behind, hsplit⟩ := List.append_of_mem ht
    rw [hsplit] at htiles
    obtain ⟨-, -, hne, -, hstop⟩ := htiles.at_split
    have hpos := byteLength_pos hne
    omega
  · intro t ht
    exact htiles.last_stop ht
  · intro t ht
    obtain ⟨hbase, hstands⟩ := htiles.standsAt ht
    exact ⟨hbase, slice?_eq_some_iff.2 hstands⟩
  · intro t ht
    obtain ⟨hbase, hstands⟩ := htiles.standsAt ht
    rw [← hstands.bytes, Span.length]
    congr 1
    omega
  · intro i t ht
    simpa using htiles.index_eq ht
  · apply String.toList_injective
    rw [TokenList.text, toList_join, TokenList.texts, List.flatMap_map]
    exact flatMap_chars_ofChars mode 0 base text.toList

end CBoundary.TokenCoverage
