import SlottedLeaf.Bytes.Basic

/-!
# Buffers

A buffer holds bytes that are read and written at any place, as those of a page image are. Reading
from it is reading from the list of its bytes (`slice_eq`), and a write shows in its own range and
nowhere else (`getElem?_overwrite`).
-/

namespace SlottedLeaf

/-- Bytes that are read and written at any place: a page image, or a piece of a file. -/
abbrev Buffer := Array UInt8

namespace Buffer

def zeros (length : Nat) : Buffer := Array.replicate length 0

/-- The bytes `[start, start + length)`, or as many of them as there are. -/
def slice (buffer : Buffer) (start length : Nat) : Bytes :=
  (buffer.extract start (start + length)).toList

/-- The buffer with bytes written from an offset on. Its length stays: what would go past the end is
left out. -/
def overwrite (buffer : Buffer) (offset : Nat) : Bytes → Buffer
  | [] => buffer
  | byte :: rest => overwrite (buffer.setIfInBounds offset byte) (offset + 1) rest

@[simp]
theorem toList_zeros (length : Nat) : (zeros length).toList = Bytes.zeros length := by
  simp [zeros, Bytes.zeros]

/-- Reading from a buffer is reading from the list of its bytes. -/
theorem slice_eq (buffer : Buffer) (start length : Nat) :
    buffer.slice start length = Bytes.slice buffer.toList start length := by
  simp [slice, Bytes.slice, List.extract]

@[simp]
theorem size_overwrite (buffer : Buffer) (offset : Nat) (source : Bytes) :
    (buffer.overwrite offset source).size = buffer.size := by
  induction source generalizing buffer offset with
  | nil => rfl
  | cons byte rest ih => rw [overwrite, ih, Array.size_setIfInBounds]

/-- A write shows in its own range and nowhere else. -/
theorem getElem?_overwrite (buffer : Buffer) (offset : Nat) (source : Bytes) (i : Nat) :
    (buffer.overwrite offset source)[i]? =
      if i < buffer.size ∧ offset ≤ i ∧ i < offset + source.length then source[i - offset]?
      else buffer[i]? := by
  induction source generalizing buffer offset with
  | nil =>
    rw [overwrite, if_neg]
    simp only [List.length_nil]
    omega
  | cons byte rest ih =>
    rw [overwrite, ih, Array.size_setIfInBounds, List.length_cons]
    by_cases inside : i < buffer.size
    · by_cases first : i = offset
      · subst first
        rw [if_neg (by omega), if_pos ⟨inside, by omega, by omega⟩,
          Array.getElem?_setIfInBounds_self_of_lt inside, Nat.sub_self, List.getElem?_cons_zero]
      · rw [Array.getElem?_setIfInBounds_ne (Ne.symm first)]
        by_cases later : offset + 1 ≤ i ∧ i < offset + 1 + rest.length
        · rw [if_pos ⟨inside, later⟩, if_pos ⟨inside, by omega⟩,
            show i - offset = i - (offset + 1) + 1 by omega, List.getElem?_cons_succ]
        · rw [if_neg fun both => later both.2, if_neg fun both => later (by omega)]
    · rw [if_neg fun both => inside both.1, if_neg fun both => inside both.1,
        Array.getElem?_eq_none (by simp; omega), Array.getElem?_eq_none (by omega)]

end Buffer

end SlottedLeaf
