/-!
Positions in a text are byte offsets into its UTF-8 form. This module measures texts in
bytes and turns offsets into lines and columns, both counted from 1. Columns count bytes.
Line starts are the offsets at which lines begin; the first is always 0.
-/
namespace CBoundary.TextPosition

/-- The UTF-8 bytes of a text. -/
def utf8 (text : List Char) : List UInt8 :=
  text.flatMap String.utf8EncodeChar

/-- Length of a text in bytes. -/
def byteLength (text : List Char) : Nat :=
  text.foldr (fun c length => c.utf8Size + length) 0

@[simp] theorem byteLength_nil : byteLength [] = 0 := rfl

@[simp] theorem byteLength_cons (c : Char) (text : List Char) :
    byteLength (c :: text) = c.utf8Size + byteLength text := rfl

@[simp] theorem byteLength_append (first second : List Char) :
    byteLength (first ++ second) = byteLength first + byteLength second := by
  induction first with
  | nil => simp
  | cons c first ih => simp [ih, Nat.add_assoc]

/-- A run of one character. -/
theorem byteLength_replicate (n : Nat) (c : Char) :
    byteLength (List.replicate n c) = n * c.utf8Size := by
  induction n with
  | zero => simp
  | succ n ih => rw [List.replicate_succ, byteLength_cons, ih, Nat.succ_mul, Nat.add_comm]

theorem length_le_byteLength (text : List Char) : text.length ≤ byteLength text := by
  induction text with
  | nil => simp
  | cons c text ih => have := c.utf8Size_pos; simp; omega

theorem length_utf8 (text : List Char) : (utf8 text).length = byteLength text := by
  induction text with
  | nil => rfl
  | cons c text ih => simp_all [utf8]

/-- The newline byte. -/
def newline : UInt8 := 10

/-- Line, counted from 1, of the byte at `position`; positions past the end read as the end. -/
def lineOf (text : String) (position : Nat) : Nat :=
  ((utf8 text.toList).take position).count newline + 1

/-- Column, counted from 1, of the byte at `position`: one more than the bytes since the last
newline before it. -/
def columnOf (text : String) (position : Nat) : Nat :=
  (((utf8 text.toList).take position).reverse.takeWhile (· != newline)).length + 1

/-- Offsets just past each newline of `bytes`, whose first byte sits at `offset`. -/
def startsFrom (offset : Nat) : List UInt8 → List Nat
  | [] => []
  | byte :: rest =>
      if byte = newline then (offset + 1) :: startsFrom (offset + 1) rest
      else startsFrom (offset + 1) rest

/-- Byte offsets at which the lines of a text start. -/
def lineStarts (text : String) : List Nat :=
  0 :: startsFrom 0 (utf8 text.toList)

/-- The text at the byte range `start` to `stop`, if both ends stand between characters. -/
def slice? (text : List Char) (start stop : Nat) : Option (List Char) :=
  match start, text with
  | 0, text => takeBytes text stop
  | _ + 1, [] => none
  | start + 1, c :: rest =>
      if c.utf8Size ≤ start + 1 ∧ c.utf8Size ≤ stop then
        slice? rest (start + 1 - c.utf8Size) (stop - c.utf8Size)
      else none
where
  /-- The first `count` bytes, if they end between characters. -/
  takeBytes : List Char → Nat → Option (List Char)
    | _, 0 => some []
    | [], _ + 1 => none
    | c :: rest, count + 1 =>
        if c.utf8Size ≤ count + 1 then (takeBytes rest (count + 1 - c.utf8Size)).map (c :: ·)
        else none

end CBoundary.TextPosition
