import CBoundary.Extent
import CBoundary.Proofs.TextSlice

/-!
Lexical elements reach equally far over characters and over bytes. An ASCII character is one
byte below 0x80, and all bytes of any other character are above, so the byte of a quote, a
newline or a backslash is found where the character is. An escape takes one byte along, which
may be the first of several; the others are never taken for a quote, a newline or a backslash.
-/
namespace CBoundary.ByteExtent

open TextPosition

def IsAscii (c : Char) : Prop := c.toNat < 0x80

instance (c : Char) : Decidable (IsAscii c) := inferInstanceAs (Decidable (c.toNat < 0x80))

/-- The byte of an ASCII character. -/
def byteOf (c : Char) : UInt8 := UInt8.ofNat c.toNat

variable {a c : Char} {b : UInt8}

theorem encode_ascii (h : IsAscii c) : String.utf8EncodeChar c = [byteOf c] := by
  unfold String.utf8EncodeChar
  have hle : c.val.toNat ≤ 0x7f := Nat.le_of_lt_succ h
  simp only [hle, if_true]
  rfl

theorem toNat_byteOf (h : IsAscii c) : (byteOf c).toNat = c.toNat := by
  have hlt : c.toNat < 0x80 := h
  rw [byteOf, UInt8.toNat_ofNat']
  exact Nat.mod_eq_of_lt (by omega)

theorem le_toNat_ofNat {n : Nat} (h : 0x80 ≤ n) (hlt : n < 0x100) :
    0x80 ≤ (UInt8.ofNat n).toNat := by
  rw [UInt8.toNat_ofNat', Nat.mod_eq_of_lt hlt]
  exact h

/-- All bytes of a character outside ASCII are outside ASCII. -/
theorem le_of_mem_encode (h : ¬ IsAscii c) (hb : b ∈ String.utf8EncodeChar c) :
    0x80 ≤ b.toNat := by
  have hlt : ¬ c.val.toNat ≤ 0x7f := fun hle => h (Nat.lt_succ_of_le hle)
  unfold String.utf8EncodeChar at hb
  simp only [hlt, if_false] at hb
  split at hb
  · simp only [List.mem_cons, List.not_mem_nil, or_false] at hb
    rcases hb with rfl | rfl <;> exact le_toNat_ofNat (by omega) (by omega)
  · split at hb
    · simp only [List.mem_cons, List.not_mem_nil, or_false] at hb
      rcases hb with rfl | rfl | rfl <;> exact le_toNat_ofNat (by omega) (by omega)
    · simp only [List.mem_cons, List.not_mem_nil, or_false] at hb
      rcases hb with rfl | rfl | rfl | rfl <;> exact le_toNat_ofNat (by omega) (by omega)

/-- The byte of an ASCII character occurs in no other character. -/
theorem byteOf_mem_encode (ha : IsAscii a) : byteOf a ∈ String.utf8EncodeChar c ↔ c = a := by
  constructor
  · intro h
    by_cases hc : IsAscii c
    · rw [encode_ascii hc, List.mem_singleton] at h
      have hcode := congrArg UInt8.toNat h
      rw [toNat_byteOf ha, toNat_byteOf hc] at hcode
      exact (Char.toNat_inj.1 hcode).symm
    · have hhigh := le_of_mem_encode hc h
      have hlow : a.toNat < 0x80 := ha
      rw [toNat_byteOf ha] at hhigh
      omega
  · rintro rfl
    rw [encode_ascii ha]
    exact List.mem_singleton_self _

theorem ne_byteOf_of_not_ascii (hc : ¬ IsAscii c) (ha : IsAscii a)
    (hb : b ∈ String.utf8EncodeChar c) : b ≠ byteOf a := by
  rintro rfl
  obtain rfl := (byteOf_mem_encode ha).1 hb
  exact hc ha

/-- Behind the first byte of a character there is no byte of an ASCII character. -/
theorem ne_byteOf_of_mem_others {others : List UInt8} {first : UInt8} (ha : IsAscii a)
    (hbytes : String.utf8EncodeChar c = first :: others) (hb : b ∈ others) : b ≠ byteOf a := by
  by_cases hc : IsAscii c
  · rw [encode_ascii hc] at hbytes
    obtain rfl := (List.cons.inj hbytes).2
    simp at hb
  · apply ne_byteOf_of_not_ascii hc ha
    rw [hbytes]
    exact List.mem_cons_of_mem first hb

/-- The first byte of a character, and the others. -/
theorem encode_eq_cons (c : Char) :
    ∃ first others, String.utf8EncodeChar c = first :: others ∧ others.length + 1 = c.utf8Size := by
  cases hbytes : String.utf8EncodeChar c with
  | nil => exact absurd hbytes String.utf8EncodeChar_ne_nil
  | cons first others =>
    refine ⟨first, others, rfl, ?_⟩
    rw [← String.length_utf8EncodeChar c, hbytes, List.length_cons]

@[simp] theorem utf8_nil : utf8 [] = [] := rfl

@[simp] theorem utf8_cons (c : Char) (text : List Char) :
    utf8 (c :: text) = String.utf8EncodeChar c ++ utf8 text := rfl

theorem utf8Size_ascii (h : IsAscii c) : c.utf8Size = 1 := by
  rw [← String.length_utf8EncodeChar, encode_ascii h, List.length_singleton]

theorem byteOf_ne (ha : IsAscii a) (hc : IsAscii c) (hne : c ≠ a) : byteOf c ≠ byteOf a := by
  intro h
  have hmem : byteOf a ∈ String.utf8EncodeChar c := by
    rw [encode_ascii hc, h]
    exact List.mem_singleton_self _
  exact hne ((byteOf_mem_encode ha).1 hmem)

theorem ne_byteOf_of_mem_encode (ha : IsAscii a) (hne : c ≠ a) (hb : b ∈ String.utf8EncodeChar c) :
    b ≠ byteOf a := by
  rintro rfl
  exact hne ((byteOf_mem_encode ha).1 hb)

/-- A scan that passes any one ordinary unit passes any number of them. -/
theorem skip_of_step {α β : Type} {scan : Nat → List α → β} {ordinary : α → Prop} {seen : Nat}
    {skipped rest : List α}
    (hstep : ∀ seen u rest, ordinary u → scan seen (u :: rest) = scan (seen + 1) rest)
    (h : ∀ u ∈ skipped, ordinary u) :
    scan seen (skipped ++ rest) = scan (seen + skipped.length) rest := by
  induction skipped generalizing seen with
  | nil => rfl
  | cons u skipped ih =>
    have hordinary : ∀ v ∈ skipped, ordinary v := fun v hv => h v (List.mem_cons_of_mem u hv)
    rw [List.cons_append, hstep seen u _ (h u List.mem_cons_self), ih hordinary, List.length_cons,
      Nat.add_assoc, Nat.add_comm 1]

section

variable {α : Type} [DecidableEq α] {newline escape quote first second unit : α} {seen : Nat}
  {skipped rest : List α}

theorem line_go_newline : Extent.line.go newline escape seen (newline :: rest) = seen + 1 := by
  cases rest with
  | nil => rfl
  | cons => rw [Extent.line.go, if_pos rfl]

theorem line_go_ordinary (hnewline : unit ≠ newline) (hescape : unit ≠ escape) :
    Extent.line.go newline escape seen (unit :: rest) =
      Extent.line.go newline escape (seen + 1) rest := by
  cases rest with
  | nil => rfl
  | cons => rw [Extent.line.go, if_neg hnewline, if_neg hescape]

theorem line_go_add (k seen : Nat) (units : List α) :
    Extent.line.go newline escape (k + seen) units =
      k + Extent.line.go newline escape seen units := by
  fun_induction Extent.line.go newline escape seen units with
  | case1 => rfl
  | case2 => rfl
  | case3 => exact line_go_newline
  | case4 seen next rest hne ih =>
    rw [Extent.line.go, if_neg hne, if_pos rfl, Nat.add_assoc, ih]
  | case5 seen unit next rest hne hnotescape ih =>
    rw [Extent.line.go, if_neg hne, if_neg hnotescape, Nat.add_assoc, ih]

/-- A line whose first unit neither ends it nor escapes the next. -/
theorem line_cons (hnewline : unit ≠ newline) (hescape : unit ≠ escape) :
    Extent.line newline escape (unit :: rest) = 1 + Extent.line newline escape rest := by
  rw [Extent.line, line_go_ordinary hnewline hescape, Nat.zero_add, Extent.line]
  exact line_go_add 1 0 rest

theorem line_go_escape (hne : escape ≠ newline) :
    Extent.line.go newline escape seen (escape :: unit :: rest) =
      Extent.line.go newline escape (seen + 2) rest := by
  rw [Extent.line.go, if_neg hne, if_pos rfl]

theorem line_go_skip (h : ∀ u ∈ skipped, u ≠ newline ∧ u ≠ escape) :
    Extent.line.go newline escape seen (skipped ++ rest) =
      Extent.line.go newline escape (seen + skipped.length) rest :=
  skip_of_step (fun _ _ _ hu => line_go_ordinary hu.1 hu.2) h

theorem quoted_go_quote :
    Extent.quoted.go quote escape seen (quote :: rest) = some (seen + 1) := by
  cases rest with
  | nil => rw [Extent.quoted.go, if_pos rfl]
  | cons => rw [Extent.quoted.go, if_pos rfl]

theorem quoted_go_ordinary (hquote : unit ≠ quote) (hescape : unit ≠ escape) :
    Extent.quoted.go quote escape seen (unit :: rest) =
      Extent.quoted.go quote escape (seen + 1) rest := by
  cases rest with
  | nil => exact if_neg hquote
  | cons => rw [Extent.quoted.go, if_neg hquote, if_neg hescape]

theorem quoted_go_escape (hne : escape ≠ quote) :
    Extent.quoted.go quote escape seen (escape :: unit :: rest) =
      Extent.quoted.go quote escape (seen + 2) rest := by
  rw [Extent.quoted.go, if_neg hne, if_pos rfl]

theorem quoted_go_skip (h : ∀ u ∈ skipped, u ≠ quote ∧ u ≠ escape) :
    Extent.quoted.go quote escape seen (skipped ++ rest) =
      Extent.quoted.go quote escape (seen + skipped.length) rest :=
  skip_of_step (fun _ _ _ hu => quoted_go_ordinary hu.1 hu.2) h

theorem pair_go_ordinary (hfirst : unit ≠ first) :
    Extent.pair.go first second seen (unit :: rest) =
      Extent.pair.go first second (seen + 1) rest := by
  cases rest with
  | nil => rfl
  | cons => rw [Extent.pair.go, if_neg fun h => hfirst h.1]

theorem pair_go_skip (h : ∀ u ∈ skipped, u ≠ first) :
    Extent.pair.go first second seen (skipped ++ rest) =
      Extent.pair.go first second (seen + skipped.length) rest :=
  skip_of_step (fun _ _ _ hu => pair_go_ordinary hu) h

end

section

variable {newline escape quote first second : Char}

/-- An escape takes the first byte of the next character along; its other bytes are passed
like any. -/
theorem line_go_utf8 (hnewline : IsAscii newline) (hescape : IsAscii escape)
    (seen seenBytes : Nat) (text : List Char) :
    ∃ n, Extent.line.go newline escape seen text = seen + n ∧
      Extent.line.go (byteOf newline) (byteOf escape) seenBytes (utf8 text) =
        seenBytes + byteLength (text.take n) := by
  fun_induction Extent.line.go newline escape seen text generalizing seenBytes with
  | case1 => exact ⟨0, rfl, rfl⟩
  | case2 seen c =>
    refine ⟨1, rfl, ?_⟩
    by_cases hc : IsAscii c
    · rw [utf8_cons, encode_ascii hc]
      simp [Extent.line.go, utf8Size_ascii hc]
    · have hne : ∀ u ∈ String.utf8EncodeChar c, u ≠ byteOf newline ∧ u ≠ byteOf escape :=
        fun u hu => ⟨ne_byteOf_of_not_ascii hc hnewline hu, ne_byteOf_of_not_ascii hc hescape hu⟩
      rw [utf8_cons, line_go_skip hne, String.length_utf8EncodeChar]
      rfl
  | case3 seen next rest =>
    refine ⟨1, rfl, ?_⟩
    rw [utf8_cons, encode_ascii hnewline, List.singleton_append, line_go_newline]
    simp [utf8Size_ascii hnewline]
  | case4 seen next rest hne ih =>
    obtain ⟨first, others, hnext, hlength⟩ := encode_eq_cons next
    obtain ⟨n, hn, hbytes⟩ := ih (seenBytes + 2 + others.length)
    refine ⟨n + 2, by omega, ?_⟩
    have hothers : ∀ u ∈ others, u ≠ byteOf newline ∧ u ≠ byteOf escape := fun u hu =>
      ⟨ne_byteOf_of_mem_others hnewline hnext hu, ne_byteOf_of_mem_others hescape hnext hu⟩
    rw [utf8_cons, utf8_cons, encode_ascii hescape, hnext, List.singleton_append,
      List.cons_append, line_go_escape (byteOf_ne hnewline hescape hne), line_go_skip hothers,
      hbytes, List.take_succ_cons, List.take_succ_cons, byteLength_cons, byteLength_cons,
      utf8Size_ascii hescape]
    omega
  | case5 seen c next rest hne hnotescape ih =>
    obtain ⟨n, hn, hbytes⟩ := ih (seenBytes + c.utf8Size)
    refine ⟨n + 1, by omega, ?_⟩
    rw [utf8_cons, line_go_skip fun u hu => ⟨ne_byteOf_of_mem_encode hnewline hne hu,
      ne_byteOf_of_mem_encode hescape hnotescape hu⟩, String.length_utf8EncodeChar, hbytes,
      List.take_succ_cons, byteLength_cons, Nat.add_assoc]

/-- A line is as long in bytes as the characters of it. -/
theorem line_utf8 (hnewline : IsAscii newline) (hescape : IsAscii escape) (text : List Char) :
    Extent.line (byteOf newline) (byteOf escape) (utf8 text) =
      byteLength (text.take (Extent.line newline escape text)) := by
  obtain ⟨n, hn, hbytes⟩ := line_go_utf8 hnewline hescape 0 0 text
  rw [Extent.line, hbytes, Extent.line, hn, Nat.zero_add, Nat.zero_add]

/-- An extent behind some characters, counted with them. -/
theorem map_behind (found : Option Nat) (seen k : Nat) :
    found.map (seen + k + ·) = (found.map (k + ·)).map (seen + ·) := by
  rw [Option.map_map]
  congr 1
  funext n
  exact Nat.add_assoc seen k n

theorem map_byteLength_behind (found : Option Nat) (seen : Nat) (taken rest : List Char) :
    (found.map fun n => seen + byteLength taken + byteLength (rest.take n)) =
      (found.map (taken.length + ·)).map fun n => seen + byteLength ((taken ++ rest).take n) := by
  rw [Option.map_map]
  congr 1
  funext n
  rw [Function.comp_apply, List.take_length_add_append, byteLength_append, Nat.add_assoc]

theorem quoted_go_utf8 (hquote : IsAscii quote) (hescape : IsAscii escape)
    (seen seenBytes : Nat) (text : List Char) :
    ∃ found : Option Nat, Extent.quoted.go quote escape seen text = found.map (seen + ·) ∧
      Extent.quoted.go (byteOf quote) (byteOf escape) seenBytes (utf8 text) =
        found.map fun n => seenBytes + byteLength (text.take n) := by
  fun_induction Extent.quoted.go quote escape seen text generalizing seenBytes with
  | case1 => exact ⟨none, rfl, rfl⟩
  | case2 seen =>
    refine ⟨some 1, rfl, ?_⟩
    rw [utf8_cons, encode_ascii hquote, List.singleton_append, quoted_go_quote]
    simp [utf8Size_ascii hquote]
  | case3 seen c hne =>
    refine ⟨none, rfl, ?_⟩
    by_cases hc : c = escape
    · subst hc
      rw [utf8_cons, encode_ascii hescape]
      exact if_neg (byteOf_ne hquote hescape hne)
    · rw [utf8_cons, quoted_go_skip fun u hu => ⟨ne_byteOf_of_mem_encode hquote hne hu,
        ne_byteOf_of_mem_encode hescape hc hu⟩]
      rfl
  | case4 seen next rest =>
    refine ⟨some 1, rfl, ?_⟩
    rw [utf8_cons, encode_ascii hquote, List.singleton_append, quoted_go_quote]
    simp [utf8Size_ascii hquote]
  | case5 seen next rest hne ih =>
    obtain ⟨first, others, hnext, hlength⟩ := encode_eq_cons next
    obtain ⟨found, hfound, hbytes⟩ := ih (seenBytes + 2 + others.length)
    have hothers : ∀ u ∈ others, u ≠ byteOf quote ∧ u ≠ byteOf escape := fun u hu =>
      ⟨ne_byteOf_of_mem_others hquote hnext hu, ne_byteOf_of_mem_others hescape hnext hu⟩
    have htaken : seenBytes + 2 + others.length = seenBytes + byteLength [escape, next] := by
      rw [byteLength_cons, byteLength_cons, utf8Size_ascii hescape, byteLength_nil]
      omega
    refine ⟨found.map (2 + ·), ?_, ?_⟩
    · rw [hfound, map_behind]
    · rw [utf8_cons, utf8_cons, encode_ascii hescape, hnext, List.singleton_append,
        List.cons_append, quoted_go_escape (byteOf_ne hquote hescape hne),
        quoted_go_skip hothers, hbytes, htaken, map_byteLength_behind]
      rfl
  | case6 seen c next rest hne hnotescape ih =>
    obtain ⟨found, hfound, hbytes⟩ := ih (seenBytes + byteLength [c])
    refine ⟨found.map (1 + ·), ?_, ?_⟩
    · rw [hfound, map_behind]
    · rw [utf8_cons, quoted_go_skip fun u hu => ⟨ne_byteOf_of_mem_encode hquote hne hu,
        ne_byteOf_of_mem_encode hescape hnotescape hu⟩, String.length_utf8EncodeChar]
      rw [map_byteLength_behind] at hbytes
      exact hbytes

/-- A literal is closed over bytes exactly if it is over characters, at the same quote. -/
theorem quoted_utf8 (hquote : IsAscii quote) (hescape : IsAscii escape) (text : List Char) :
    Extent.quoted (byteOf quote) (byteOf escape) (utf8 text) =
      (Extent.quoted quote escape text).map fun n => byteLength (text.take n) := by
  obtain ⟨found, hfound, hbytes⟩ := quoted_go_utf8 hquote hescape 0 0 text
  simp only [Nat.zero_add, Option.map_id'] at hfound hbytes
  rw [Extent.quoted, hbytes, Extent.quoted, hfound]

theorem pair_go_utf8 (hfirst : IsAscii first) (hsecond : IsAscii second)
    (seen seenBytes : Nat) (text : List Char) :
    ∃ found : Option Nat, Extent.pair.go first second seen text = found.map (seen + ·) ∧
      Extent.pair.go (byteOf first) (byteOf second) seenBytes (utf8 text) =
        found.map fun n => seenBytes + byteLength (text.take n) := by
  fun_induction Extent.pair.go first second seen text generalizing seenBytes with
  | case1 => exact ⟨none, rfl, rfl⟩
  | case2 seen c =>
    refine ⟨none, rfl, ?_⟩
    by_cases hc : c = first
    · subst hc
      rw [utf8_cons, encode_ascii hfirst]
      rfl
    · rw [utf8_cons, pair_go_skip fun u hu => ne_byteOf_of_mem_encode hfirst hc hu]
      rfl
  | case3 seen c next rest hpair =>
    obtain ⟨rfl, rfl⟩ := hpair
    refine ⟨some 2, rfl, ?_⟩
    rw [utf8_cons, utf8_cons, encode_ascii hfirst, encode_ascii hsecond]
    simp [Extent.pair.go, utf8Size_ascii hfirst, utf8Size_ascii hsecond]
  | case4 seen c next rest hpair ih =>
    obtain ⟨found, hfound, hbytes⟩ := ih (seenBytes + byteLength [c])
    refine ⟨found.map (1 + ·), ?_, ?_⟩
    · rw [hfound, map_behind]
    · rw [map_byteLength_behind] at hbytes
      refine Eq.trans ?_ hbytes
      by_cases hc : c = first
      · subst hc
        obtain ⟨u, others, hnext, -⟩ := encode_eq_cons next
        have hu : u ≠ byteOf second := by
          apply ne_byteOf_of_mem_encode hsecond fun h => hpair ⟨rfl, h⟩
          rw [hnext]
          exact List.mem_cons_self
        rw [utf8_cons, utf8_cons, encode_ascii hfirst, hnext, List.singleton_append,
          List.cons_append, Extent.pair.go, if_neg fun h => hu h.2, byteLength_cons,
          utf8Size_ascii hfirst, byteLength_nil]
      · rw [utf8_cons, pair_go_skip fun v hv => ne_byteOf_of_mem_encode hfirst hc hv,
          String.length_utf8EncodeChar]
        rfl

/-- A pair of characters is found at the same place over bytes. -/
theorem pair_utf8 (hfirst : IsAscii first) (hsecond : IsAscii second) (text : List Char) :
    Extent.pair (byteOf first) (byteOf second) (utf8 text) =
      (Extent.pair first second text).map fun n => byteLength (text.take n) := by
  obtain ⟨found, hfound, hbytes⟩ := pair_go_utf8 hfirst hsecond 0 0 text
  simp only [Nat.zero_add, Option.map_id'] at hfound hbytes
  rw [Extent.pair, hbytes, Extent.pair, hfound]

end

end CBoundary.ByteExtent
