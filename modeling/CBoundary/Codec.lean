import CBoundary.FileAccess
import Std.Data.ExtTreeMap
import Std.Data.ExtTreeSet

/-!
Values as bytes. A codec writes a value so that it can be read back from the front of any
longer run of bytes, with the bytes behind it left over. That law is part of the codec: codecs
are put together from smaller ones, and each way of doing so carries the law along.
-/
namespace CBoundary

/-- A way to write values as bytes and to read them back. -/
structure Codec (α : Type) where
  encode : α → Bytes
  /-- Reads one value and gives back the bytes behind it. -/
  decode : Bytes → Option (α × Bytes)
  /-- What was written is read back, whatever follows. -/
  decode_encode : ∀ value rest, decode (encode value ++ rest) = some (value, rest)

namespace Codec

variable {α β : Type}

/-- Two values, one behind the other. -/
def pair (c : Codec α) (d : Codec β) : Codec (α × β) where
  encode value := c.encode value.1 ++ d.encode value.2
  decode bytes := do
    let (first, bytes) ← c.decode bytes
    let (second, bytes) ← d.decode bytes
    return ((first, second), bytes)
  decode_encode value rest := by simp [c.decode_encode, d.decode_encode]

/-- Values that are written as values of another type, and read back from those that stand
for one. -/
def via (c : Codec β) (view : α → β) (read? : β → Option α)
    (read?_view : ∀ value, read? (view value) = some value) : Codec α where
  encode value := c.encode (view value)
  decode bytes := do
    let (value, bytes) ← c.decode bytes
    return (← read? value, bytes)
  decode_encode value rest := by simp [c.decode_encode, read?_view]

/-- Values that are put together from values of another type. -/
def assembled (c : Codec β) (view : α → β) (build : β → α)
    (build_view : ∀ value, build (view value) = value) : Codec α :=
  c.via view (fun value => some (build value)) fun value => congrArg some (build_view value)

/-- The digits of a number to base 128, lowest first. All but the last have 128 added. -/
def digits (n : Nat) : Bytes :=
  if n < 128 then [UInt8.ofNat n] else UInt8.ofNat (n % 128 + 128) :: digits (n / 128)

/-- Reads digits up to the first below 128. -/
def ofDigits : Bytes → Option (Nat × Bytes)
  | [] => none
  | b :: rest =>
      if b.toNat < 128 then some (b.toNat, rest)
      else (ofDigits rest).map fun (n, rest) => (n * 128 + (b.toNat - 128), rest)

theorem ofDigits_digits (n : Nat) (rest : Bytes) :
    ofDigits (digits n ++ rest) = some (n, rest) := by
  fun_induction digits n with
  | case1 n h =>
    have hn : (UInt8.ofNat n).toNat = n := UInt8.toNat_ofNat_of_lt' (Nat.lt_trans h (by decide))
    simp [ofDigits, hn, h]
  | case2 n h ih =>
    have hlt : n % 128 + 128 < 256 := by omega
    have hn : (UInt8.ofNat (n % 128 + 128)).toNat = n % 128 + 128 := UInt8.toNat_ofNat_of_lt' hlt
    rw [List.cons_append, ofDigits, hn, if_neg (by omega), ih]
    simp only [Option.map_some, Option.some.injEq, Prod.mk.injEq, and_true]
    omega

/-- A natural number. -/
def nat : Codec Nat := ⟨digits, ofDigits, ofDigits_digits⟩

/-- One of some values, written as its place among them. -/
def among [BEq α] [LawfulBEq α] (values : List α) (mem_values : ∀ value, value ∈ values) :
    Codec α :=
  nat.via (fun value => values.idxOf value) (fun n => values[n]?) fun value => by
    have h := List.idxOf_lt_length_of_mem (mem_values value)
    rw [List.getElem?_eq_getElem h, List.getElem_idxOf h]

def bool : Codec Bool := among [false, true] (by simp)

/-- As many values as are asked for. -/
def decodeMany (c : Codec α) : Nat → Bytes → Option (List α × Bytes)
  | 0, bytes => some ([], bytes)
  | n + 1, bytes => do
      let (value, bytes) ← c.decode bytes
      let (values, bytes) ← decodeMany c n bytes
      return (value :: values, bytes)

theorem decodeMany_encode (c : Codec α) (values : List α) (rest : Bytes) :
    decodeMany c values.length (values.flatMap c.encode ++ rest) = some (values, rest) := by
  induction values with
  | nil => rfl
  | cons value values ih => simp [decodeMany, c.decode_encode, ih]

/-- A list: its length, then its members. -/
def list (c : Codec α) : Codec (List α) where
  encode values := nat.encode values.length ++ values.flatMap c.encode
  decode bytes := do
    let (n, bytes) ← nat.decode bytes
    decodeMany c n bytes
  decode_encode values rest := by simp [nat.decode_encode, decodeMany_encode]

/-- A value or nothing: a list of at most one member. -/
def option (c : Codec α) : Codec (Option α) :=
  c.list.assembled Option.toList List.head? fun value => by cases value <;> rfl

/-- One of two kinds of values, behind a mark that says which. -/
def sum (c : Codec α) (d : Codec β) : Codec (α ⊕ β) where
  encode
    | .inl value => bool.encode false ++ c.encode value
    | .inr value => bool.encode true ++ d.encode value
  decode bytes := do
    match ← bool.decode bytes with
    | (false, bytes) => return (← c.decode bytes).map Sum.inl id
    | (true, bytes) => return (← d.decode bytes).map Sum.inr id
  decode_encode value rest := by
    cases value <;> simp [bool.decode_encode, c.decode_encode, d.decode_encode]

/-- A run of bytes: its length, then the bytes. -/
def bytes : Codec Bytes where
  encode content := nat.encode content.length ++ content
  decode written := do
    let (n, behind) ← nat.decode written
    let content := behind.take n
    if content.length = n then some (content, behind.drop n) else none
  decode_encode content rest := by simp [nat.decode_encode]

/-- A text in UTF-8. -/
def text : Codec String := bytes.via Bytes.ofText Bytes.text? Bytes.text?_ofText

theorem ofList_toList_table (t : Std.ExtTreeMap String α) : Std.ExtTreeMap.ofList t.toList = t := by
  refine Std.ExtTreeMap.ext_getElem? fun key => ?_
  match h : t[key]? with
  | some value =>
      exact Std.ExtTreeMap.getElem?_ofList_of_mem (Std.ReflCmp.compare_self)
        Std.ExtTreeMap.distinct_keys_toList (Std.ExtTreeMap.mem_toList_iff_getElem?_eq_some.2 h)
  | none =>
      refine Std.ExtTreeMap.getElem?_ofList_of_contains_eq_false
        (Bool.eq_false_iff.2 fun hmem => ?_)
      obtain ⟨entry, hentry, rfl⟩ := List.mem_map.1 (List.contains_iff_mem.1 hmem)
      have := Std.ExtTreeMap.mem_toList_iff_getElem?_eq_some.1 hentry
      simp_all

theorem ofList_toList_textSet (s : Std.ExtTreeSet String) : Std.ExtTreeSet.ofList s.toList = s :=
  Std.ExtTreeSet.ext_mem fun key => by simp

/-- A table by text. -/
def table (c : Codec α) : Codec (Std.ExtTreeMap String α) :=
  (text.pair c).list.assembled (·.toList) (fun entries => Std.ExtTreeMap.ofList entries)
    ofList_toList_table

/-- A set of texts. -/
def textSet : Codec (Std.ExtTreeSet String) :=
  text.list.assembled (·.toList) (fun members => Std.ExtTreeSet.ofList members)
    ofList_toList_textSet

/-- Values behind a mark that all of them share. -/
def marked (mark : Bytes) (c : Codec α) : Codec α where
  encode value := mark ++ c.encode value
  decode bytes := if mark.isPrefixOf bytes then c.decode (bytes.drop mark.length) else none
  decode_encode value rest := by simp [c.decode_encode]

end Codec

end CBoundary
