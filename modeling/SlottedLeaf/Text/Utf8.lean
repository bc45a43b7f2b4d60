import SlottedLeaf.Bytes.Basic

/-!
# Bytes as UTF-8 text

`Utf8.pieces` cuts a byte string into characters and maximal ill-formed pieces. Reading strictly
asks that there be no ill-formed piece; reading leniently puts one replacement character in the
place of each.
-/

namespace SlottedLeaf.Utf8

/-- What a leading byte announces: how many bytes continue the character, the bits it brings
itself, and the range that the first continuation byte must lie in. -/
structure Lead where
  continuations : Nat
  bits : Nat
  low : UInt8
  high : UInt8

/-- The announcement of a leading byte; none for a byte that cannot lead. The narrowed ranges
exclude overlong forms, surrogates and code points past the last. -/
def Lead.ofByte? (byte : UInt8) : Option Lead :=
  let value := byte.toNat
  if value < 0x80 then some ⟨0, value, 0, 0⟩
  else if value < 0xC2 then none
  else if value < 0xE0 then some ⟨1, value - 0xC0, 0x80, 0xBF⟩
  else if value = 0xE0 then some ⟨2, 0, 0xA0, 0xBF⟩
  else if value = 0xED then some ⟨2, value - 0xE0, 0x80, 0x9F⟩
  else if value < 0xF0 then some ⟨2, value - 0xE0, 0x80, 0xBF⟩
  else if value = 0xF0 then some ⟨3, 0, 0x90, 0xBF⟩
  else if value < 0xF4 then some ⟨3, value - 0xF0, 0x80, 0xBF⟩
  else if value = 0xF4 then some ⟨3, value - 0xF0, 0x80, 0x8F⟩
  else none

/-- Takes the continuation bytes of a character. The first byte out of range, or the end, leaves
an ill-formed piece of what was taken so far. -/
def complete : Nat → Nat → UInt8 → UInt8 → Bytes → Option Char × Bytes
  | 0, bits, _, _, rest => (some (Char.ofNat bits), rest)
  | _ + 1, _, _, _, [] => (none, [])
  | n + 1, bits, low, high, byte :: rest =>
    if low ≤ byte ∧ byte ≤ high then
      complete n (64 * bits + (byte.toNat - 0x80)) 0x80 0xBF rest
    else (none, byte :: rest)

theorem length_complete_le (n bits : Nat) (low high : UInt8) (bytes : Bytes) :
    (complete n bits low high bytes).2.length ≤ bytes.length := by
  fun_induction complete n bits low high bytes
  all_goals simp_all
  all_goals omega

/-- The characters of a byte string in order, with `none` for each maximal ill-formed piece. -/
def pieces : Bytes → List (Option Char)
  | [] => []
  | byte :: rest =>
    match Lead.ofByte? byte with
    | none => none :: pieces rest
    | some lead =>
      let taken := complete lead.continuations lead.bits lead.low lead.high rest
      have : taken.2.length ≤ rest.length := length_complete_le ..
      taken.1 :: pieces taken.2
termination_by bytes => bytes.length
decreasing_by
  · simp
  · simpa using Nat.lt_succ_of_le this

/-- The text that a byte string encodes, if it is well-formed throughout. -/
def decode? (bytes : Bytes) : Option String :=
  ((pieces bytes).mapM id).map String.ofList

/-- The text of a byte string, with U+FFFD for each maximal ill-formed piece. -/
def decodeLossy (bytes : Bytes) : String :=
  String.ofList ((pieces bytes).map (Option.getD · (Char.ofNat 0xFFFD)))

end SlottedLeaf.Utf8
