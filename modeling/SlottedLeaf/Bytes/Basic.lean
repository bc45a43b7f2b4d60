import SlottedLeaf.Text.Digit

/-!
# Byte strings

A byte string is the list of its bytes: a key, a field of a page or the content of a file. Strings
are sliced, and cut or padded to a length; the images of pages, which are written in place, are
buffers.
-/

namespace SlottedLeaf

/-- A byte string: a key, a field of a page or the content of a file. -/
abbrev Bytes := List UInt8

namespace Bytes

def zeros (length : Nat) : Bytes := List.replicate length 0

/-- The bytes `[start, start + length)`, or as many of them as there are. -/
def slice (bytes : Bytes) (start length : Nat) : Bytes := (bytes.drop start).take length

/-- The string cut to `length` bytes, or padded with zeros up to them. -/
def resize (bytes : Bytes) (length : Nat) : Bytes :=
  bytes.take length ++ zeros (length - bytes.length)

@[simp]
theorem length_zeros (length : Nat) : (zeros length).length = length := by
  simp [zeros]

@[simp]
theorem length_resize (bytes : Bytes) (length : Nat) : (bytes.resize length).length = length := by
  simp only [resize, List.length_append, List.length_take, length_zeros]
  omega

theorem getElem?_resize (bytes : Bytes) (length i : Nat) :
    (bytes.resize length)[i]? = if i < length then some (bytes[i]?.getD 0) else none := by
  have cut : (bytes.take length).length = min length bytes.length := List.length_take
  by_cases inside : i < length
  · rw [if_pos inside, resize]
    by_cases present : i < bytes.length
    · rw [List.getElem?_append_left (by omega), List.getElem?_take_of_lt inside,
        List.getElem?_eq_getElem present]
      rfl
    · rw [List.getElem?_append_right (by omega), zeros, List.getElem?_replicate_of_lt (by omega),
        List.getElem?_eq_none (by omega)]
      rfl
  · rw [if_neg inside, List.getElem?_eq_none (by rw [length_resize]; omega)]

private def hexPair (byte : UInt8) : List Char :=
  [Nat.digitChar (byte.toNat / 16), Nat.digitChar (byte.toNat % 16)]

/-- The bytes as lower-case hexadecimal text, two digits to a byte. -/
def toHex (bytes : Bytes) : String := String.ofList (bytes.flatMap hexPair)

/-- The bytes that pairs of hexadecimal digits stand for. -/
private def ofHexDigits? : List Char → Option Bytes
  | [] => some []
  | [_] => none
  | high :: low :: rest => do
    let high ← hexValue? high
    let low ← hexValue? low
    let rest ← ofHexDigits? rest
    return UInt8.ofNat (16 * high + low) :: rest

def ofHex? (text : String) : Option Bytes := ofHexDigits? text.toList

private theorem hexValue?_digitChar : ∀ digit < 16, hexValue? digit.digitChar = some digit := by
  decide

/-- Bytes are read from the text that they are written as. -/
@[simp]
theorem ofHex?_toHex (bytes : Bytes) : ofHex? bytes.toHex = some bytes := by
  rw [ofHex?, toHex, String.toList_ofList]
  induction bytes with
  | nil => rfl
  | cons byte rest ih =>
    have small := byte.toNat_lt
    have high := hexValue?_digitChar (byte.toNat / 16) (by omega)
    have low := hexValue?_digitChar (byte.toNat % 16) (by omega)
    have whole : 16 * (byte.toNat / 16) + byte.toNat % 16 = byte.toNat := Nat.div_add_mod ..
    rw [List.flatMap_cons, hexPair, List.cons_append, List.singleton_append, ofHexDigits?, high,
      low, ih]
    show some (UInt8.ofNat (16 * (byte.toNat / 16) + byte.toNat % 16) :: rest) = some (byte :: rest)
    rw [whole, UInt8.ofNat_toNat]

end Bytes

end SlottedLeaf
