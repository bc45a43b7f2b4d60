import SlottedLeaf.Bytes.Buffer
import SlottedLeaf.Fault

/-!
# Fixed-width fields

A field is a number written in a fixed count of bytes, most significant first, at an offset of a
buffer. Reads and writes are bounds-checked; an end that does not fit a 64-bit address is a fault of
its own. A write that does not fit leaves the buffer as it was.
-/

namespace SlottedLeaf

/-- Addresses inside a buffer, and lengths, are below this limit. -/
def addressLimit : Nat := UInt64.size

/-- The `width` low bytes of a number, most significant first. -/
def bigEndian : Nat → Nat → Bytes
  | 0, _ => []
  | width + 1, value => bigEndian width (value / 256) ++ [UInt8.ofNat value]

/-- The number that bytes spell, most significant first. -/
def ofBigEndian (bytes : Bytes) : Nat := bytes.foldl (fun value byte => 256 * value + byte.toNat) 0

@[simp]
theorem length_bigEndian (width value : Nat) : (bigEndian width value).length = width := by
  induction width generalizing value with
  | zero => rfl
  | succ width ih => rw [bigEndian, List.length_append, ih, List.length_singleton]

/-- A change to a buffer that may fail; what was written before the failure stays. -/
abbrev Edit (α : Type) := ExceptT Fault (StateM Buffer) α

namespace Edit

/-- The outcome of an edit of a buffer, and the buffer after it. -/
def apply {α : Type} (edit : Edit α) (buffer : Buffer) : Except Fault α × Buffer :=
  edit.run.run buffer

def bytes (offset : Nat) (source : Bytes) : Edit Unit :=
  ExceptT.mk <| modifyGet fun buffer =>
    if addressLimit ≤ offset + source.length then
      (.error (.invalid .fieldOffsetOverflow), buffer)
    else if buffer.size < offset + source.length then
      (.error (.invalid .fieldDoesNotFit), buffer)
    else (.ok (), buffer.overwrite offset source)

def field (width offset value : Nat) : Edit Unit := bytes offset (bigEndian width value)

end Edit

def readField (width : Nat) (buffer : Buffer) (offset : Nat) : Except Fault Nat :=
  if addressLimit ≤ offset + width then .error (.corruption .fieldOffsetOverflow)
  else if buffer.size < offset + width then .error (.corruption .fieldPastEnd)
  else .ok (ofBigEndian (buffer.slice offset width))

end SlottedLeaf
