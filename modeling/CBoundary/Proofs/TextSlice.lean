import CBoundary.TextPosition

/-!
Slices of a text by byte offsets. A slice exists exactly where the text splits into what is
before it, the slice and what is behind it, so statements about offsets become statements
about lists of characters. The bytes at the offsets are then those of the slice.
-/
namespace CBoundary.TextSlice

open TextPosition

/-- The text has `part` at the bytes `start` to `stop`. -/
def StandsAt (text : List Char) (start stop : Nat) (part : List Char) : Prop :=
  ∃ before behind, text = before ++ part ++ behind ∧ start = byteLength before ∧
    stop = byteLength before + byteLength part

@[simp] theorem utf8_append (first second : List Char) :
    utf8 (first ++ second) = utf8 first ++ utf8 second :=
  List.flatMap_append

theorem byteLength_pos {text : List Char} (h : text ≠ []) : 0 < byteLength text := by
  cases text with
  | nil => exact absurd rfl h
  | cons c rest =>
    have hpos := c.utf8Size_pos
    rw [byteLength_cons]
    omega

theorem takeBytes_eq_some_iff {text part : List Char} {count : Nat} :
    slice?.takeBytes text count = some part ↔
      ∃ behind, text = part ++ behind ∧ count = byteLength part := by
  constructor
  · intro h
    fun_induction slice?.takeBytes text count generalizing part with
    | case1 text =>
      obtain rfl := Option.some.inj h
      exact ⟨text, rfl, rfl⟩
    | case2 => simp at h
    | case3 c rest count hfits ih =>
      obtain ⟨taken, htaken, rfl⟩ := Option.map_eq_some_iff.1 h
      obtain ⟨behind, rfl, hcount⟩ := ih htaken
      refine ⟨behind, rfl, ?_⟩
      rw [byteLength_cons]
      omega
    | case4 => simp at h
  · rintro ⟨behind, rfl, rfl⟩
    induction part with
    | nil => cases behind <;> rfl
    | cons c part ih =>
      have hpos := c.utf8Size_pos
      obtain ⟨count, hcount⟩ := Nat.exists_eq_succ_of_ne_zero
        (show byteLength (c :: part) ≠ 0 by rw [byteLength_cons]; omega)
      rw [byteLength_cons] at hcount
      rw [byteLength_cons, hcount, List.cons_append, slice?.takeBytes, if_pos (by omega),
        show count + 1 - c.utf8Size = byteLength part by omega, ih]
      rfl

/-- A slice exists exactly where the text splits into what is before it, the slice and what
is behind it. -/
theorem slice?_eq_some_iff {text part : List Char} {start stop : Nat} :
    slice? text start stop = some part ↔ StandsAt text start stop part := by
  constructor
  · intro h
    fun_induction slice? text start stop with
    | case1 stop text =>
      obtain ⟨behind, rfl, rfl⟩ := takeBytes_eq_some_iff.1 h
      exact ⟨[], behind, rfl, rfl, by simp⟩
    | case2 => simp at h
    | case3 stop start c rest hfits ih =>
      obtain ⟨before, behind, rfl, hstart, hstop⟩ := ih h
      refine ⟨c :: before, behind, rfl, ?_, ?_⟩
      · rw [byteLength_cons]
        omega
      · rw [byteLength_cons]
        omega
    | case4 => simp at h
  · rintro ⟨before, behind, rfl, rfl, rfl⟩
    induction before with
    | nil =>
      rw [List.nil_append, byteLength_nil, Nat.zero_add, slice?]
      exact takeBytes_eq_some_iff.2 ⟨behind, rfl, rfl⟩
    | cons c before ih =>
      have hpos := c.utf8Size_pos
      obtain ⟨start, hstart⟩ := Nat.exists_eq_succ_of_ne_zero
        (show byteLength (c :: before) ≠ 0 by rw [byteLength_cons]; omega)
      rw [byteLength_cons] at hstart
      rw [byteLength_cons, hstart, List.cons_append, List.cons_append, slice?,
        if_pos (by omega), show start + 1 - c.utf8Size = byteLength before by omega,
        show start + 1 + byteLength part - c.utf8Size =
          byteLength before + byteLength part by omega]
      exact ih

/-- The bytes between the ends of a slice are its own. -/
theorem StandsAt.bytes {text part : List Char} {start stop : Nat}
    (h : StandsAt text start stop part) :
    ((utf8 text).drop start).take (stop - start) = utf8 part := by
  obtain ⟨before, behind, rfl, rfl, rfl⟩ := h
  rw [utf8_append, utf8_append, List.append_assoc, ← length_utf8 before,
    List.drop_left, Nat.add_sub_cancel_left, ← length_utf8 part, List.take_left]

end CBoundary.TextSlice
