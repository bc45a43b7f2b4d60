import SlottedLeaf.Proofs.Grammar
import SlottedLeaf.Proofs.Rewriting
import Mathlib.Order.CompletePartialOrder
import Mathlib.Order.Interval.Set.Disjoint

/-!
# Fields of a buffer

A field is written or read exactly where its bytes lie inside the buffer, in numbers without a
limit: an offset so large that the end of the field has no address is refused like any other that is
too large. A write changes the bytes of its field and nothing else, so that it does not show in any
field apart from it, and does not care whether a write to such a field came first.
-/

namespace SlottedLeaf

/-! ## What is written -/

/-- What is put in a field: a number of this many bytes, or bytes as they are. -/
inductive FieldValue where
  | number (width value : Nat)
  | string (bytes : Bytes)
deriving DecidableEq, Repr

namespace FieldValue

/-- The bytes that stand in the field then. -/
def bytes : FieldValue → Bytes
  | number width value => bigEndian width value
  | string bytes => bytes

def length : FieldValue → Nat
  | number width _ => width
  | string bytes => bytes.length

/-- Where the field lies. -/
def span (offset : Nat) (value : FieldValue) : Set Nat := Set.Ico offset (offset + value.length)

/-- Writes the field at an offset. -/
def put (offset : Nat) : FieldValue → Edit Unit
  | number width value => Edit.field width offset value
  | string bytes => Edit.bytes offset bytes

@[simp]
theorem length_bytes (value : FieldValue) : value.bytes.length = value.length := by
  cases value with
  | number width value => exact length_bigEndian width value
  | string bytes => rfl

theorem put_eq (offset : Nat) (value : FieldValue) :
    value.put offset = Edit.bytes offset value.bytes := by
  cases value <;> rfl

theorem put_fills (offset : Nat) (value : FieldValue) :
    (value.put offset).Fills offset value.length := by
  rw [put_eq, ← length_bytes]
  exact .bytes offset value.bytes

end FieldValue

/-! ## Ranges apart -/

/-- Of two ranges with no place in common, one ends before the other starts, or one is empty. -/
theorem apart_of_disjoint {offset length place more : Nat}
    (disjoint : Disjoint (Set.Ico offset (offset + length)) (Set.Ico place (place + more))) :
    offset + length ≤ place ∨ place + more ≤ offset ∨ length = 0 ∨ more = 0 := by
  rw [Set.Ico_disjoint_Ico] at disjoint
  omega

namespace Buffer

variable {offset place length : Nat} {source other : Bytes} {buffer : Buffer}

theorem overwrite_comm_of_disjoint (buffer : Buffer)
    (disjoint : Disjoint (Set.Ico offset (offset + source.length))
      (Set.Ico place (place + other.length))) :
    (buffer.overwrite offset source).overwrite place other =
      (buffer.overwrite place other).overwrite offset source := by
  rcases apart_of_disjoint disjoint with before | after | none | none
  · exact buffer.overwrite_comm before
  · exact (buffer.overwrite_comm after).symm
  · rw [List.eq_nil_of_length_eq_zero none]
    rfl
  · rw [List.eq_nil_of_length_eq_zero none]
    rfl

/-- A write does not show in a range apart from it. -/
theorem slice_overwrite_of_disjoint (inside : place + length ≤ buffer.size)
    (disjoint : Disjoint (Set.Ico offset (offset + source.length))
      (Set.Ico place (place + length))) :
    (buffer.overwrite offset source).slice place length = buffer.slice place length := by
  have whole : (buffer.slice place length).length = length := by
    rw [length_slice]
    omega
  have kept (apart : place + length ≤ offset ∨ offset + source.length ≤ place) :
      (buffer.overwrite offset source).slice place length = buffer.slice place length := by
    have still : (buffer.overwrite offset source).Contains place (buffer.slice place length) :=
      (buffer.contains_slice place length).overwrite (by rwa [whole])
    rw [← still.slice, whole]
  rcases apart_of_disjoint disjoint with before | after | none | rfl
  · exact kept (.inr before)
  · exact kept (.inl after)
  · rw [List.eq_nil_of_length_eq_zero none]
    rfl
  · rw [slice_eq, slice_eq, Bytes.slice, Bytes.slice, List.take_zero, List.take_zero]

end Buffer

/-- Edits of ranges apart are made in either order, with one outcome for each and one buffer. -/
theorem Edit.Fills.comm_of_disjoint {α β : Type} {edit : Edit α} {other : Edit β}
    {offset length place more : Nat} (first : edit.Fills offset length)
    (second : other.Fills place more)
    (disjoint : Disjoint (Set.Ico offset (offset + length)) (Set.Ico place (place + more)))
    (buffer : Buffer) :
    ∃ both, other.apply (edit.apply buffer).2 = ((other.apply buffer).1, both) ∧
      edit.apply (other.apply buffer).2 = ((edit.apply buffer).1, both) := by
  obtain ⟨outcome, source, short, -, written⟩ := first buffer.size
  obtain ⟨ending, bytes, few, -, added⟩ := second buffer.size
  have apart := disjoint.mono
    (Set.Ico_subset_Ico_right (Nat.add_le_add_left short offset))
    (Set.Ico_subset_Ico_right (Nat.add_le_add_left few place))
  rw [written buffer rfl, added buffer rfl]
  refine ⟨_, added _ (Buffer.size_overwrite ..), ?_⟩
  rw [written _ (Buffer.size_overwrite ..), Buffer.overwrite_comm_of_disjoint buffer apart]

/-! ## Fields -/

variable {buffer : Buffer} {offset width place : Nat} {value : FieldValue}

theorem readField_past (past : buffer.size < offset + width) :
    ∃ cause, readField width buffer offset = .error (.corruption cause) := by
  rw [readField]
  by_cases far : addressLimit ≤ offset + width
  · exact ⟨_, if_pos far⟩
  · rw [if_neg far, if_pos past]
    exact ⟨_, rfl⟩

/-- A read comes to the same in a buffer of the same size that has the same bytes there. -/
theorem readField_overwrite {source : Bytes}
    (disjoint : Disjoint (Set.Ico offset (offset + source.length))
      (Set.Ico place (place + width))) :
    readField width (buffer.overwrite offset source) place = readField width buffer place := by
  by_cases past : buffer.size < place + width
  · simp only [readField, Buffer.size_overwrite, if_pos past]
  · rw [readField, readField, Buffer.size_overwrite,
      Buffer.slice_overwrite_of_disjoint (Nat.le_of_not_lt past) disjoint]

namespace FieldValue

theorem put_inside (inside : offset + value.length ≤ buffer.size)
    (small : buffer.size < addressLimit) :
    (value.put offset).apply buffer = (.ok (), buffer.overwrite offset value.bytes) := by
  rw [← length_bytes] at inside
  rw [put_eq, Edit.apply_bytes inside small]

theorem put_past (past : buffer.size < offset + value.length) :
    ∃ cause, (value.put offset).apply buffer = (.error (.invalid cause), buffer) := by
  rw [← length_bytes] at past
  rw [put_eq]
  exact Edit.apply_bytes_error past

/-- A number that is written is read. -/
theorem readField_put {number : Nat} (low : number < 256 ^ width)
    (inside : offset + width ≤ buffer.size) (small : buffer.size < addressLimit) :
    readField width (((FieldValue.number width number).put offset).apply buffer).2 offset =
      .ok number := by
  have sized := buffer.size_overwrite offset (bigEndian width number)
  have stands : (buffer.overwrite offset (bigEndian width number)).Contains offset
      (bigEndian width number) := buffer.contains_overwrite (by rwa [length_bigEndian])
  have written : ((FieldValue.number width number).put offset).apply buffer =
      (.ok (), buffer.overwrite offset (bigEndian width number)) := put_inside inside small
  rw [written]
  dsimp only
  rw [stands.readField (by rwa [sized]) (by rwa [sized]), Nat.mod_eq_of_lt low]

end FieldValue

/-- Fields are written and read exactly where they lie inside a buffer, which has an address for
each of its bytes. What is written changes its own bytes alone, and is read; what does not fit is
refused, and the buffer left as it was. Fields apart from each other are written in either order,
and neither shows when the other is read. -/
theorem fields_exact (small : buffer.size < addressLimit) :
    (∀ (value : FieldValue) offset,
      let written := (value.put offset).apply buffer
      (written.1 = .ok () ↔ offset + value.length ≤ buffer.size) ∧
        (offset + value.length ≤ buffer.size →
          buffer.ChangesOnly written.2 offset value.length ∧
            written.2.Contains offset value.bytes) ∧
        (buffer.size < offset + value.length →
          ∃ cause, written = (.error (.invalid cause), buffer))) ∧
      (∀ width offset,
        (offset + width ≤ buffer.size →
          (∃ number < 256 ^ width, readField width buffer offset = .ok number) ∧
            ∀ number < 256 ^ width,
              let written := ((FieldValue.number width number).put offset).apply buffer
              readField width written.2 offset = .ok number) ∧
          (buffer.size < offset + width →
            ∃ cause, readField width buffer offset = .error (.corruption cause))) ∧
      (∀ (value other : FieldValue) offset place,
        Disjoint (value.span offset) (other.span place) →
          let first := (value.put offset).apply buffer
          let second := (other.put place).apply buffer
          ∃ both, (other.put place).apply first.2 = (second.1, both) ∧
            (value.put offset).apply second.2 = (first.1, both)) ∧
      ∀ (value : FieldValue) offset width place,
        Disjoint (value.span offset) (Set.Ico place (place + width)) →
          readField width ((value.put offset).apply buffer).2 place =
            readField width buffer place := by
  refine ⟨?_, ?_, ?_, ?_⟩
  · intro value offset written
    refine ⟨?_, ?_, FieldValue.put_past⟩
    · constructor
      · intro succeeds
        by_contra past
        obtain ⟨cause, refused⟩ := FieldValue.put_past (Nat.lt_of_not_le past)
        have fails : written.1 = .error (.invalid cause) := congrArg Prod.fst refused
        cases fails.symm.trans succeeds
      · intro inside
        exact congrArg Prod.fst (FieldValue.put_inside inside small)
    · intro inside
      have put : written = (.ok (), buffer.overwrite offset value.bytes) :=
        FieldValue.put_inside inside small
      rw [put, ← value.length_bytes]
      rw [← value.length_bytes] at inside
      exact ⟨buffer.changesOnly_overwrite offset value.bytes, buffer.contains_overwrite inside⟩
  · intro width offset
    refine ⟨?_, readField_past⟩
    intro inside
    refine ⟨⟨buffer.number offset width, buffer.number_lt offset width, ?_⟩, ?_⟩
    · exact readField_of_le inside (Nat.lt_of_le_of_lt inside small)
    · intro number low
      exact FieldValue.readField_put low inside small
  · intro value other offset place apart
    exact (value.put_fills offset).comm_of_disjoint (other.put_fills place) apart buffer
  · intro value offset width place apart
    obtain ⟨outcome, source, short, -, written⟩ := value.put_fills offset buffer.size
    rw [written buffer rfl]
    refine readField_overwrite (apart.mono_left ?_)
    exact Set.Ico_subset_Ico_right (Nat.add_le_add_left short offset)

/-- A word and a string side by side, one of them at the end of the buffer, and a field whose end is
past the last address. -/
theorem fields_exact_adjacent :
    let buffer : Buffer := .replicate 9 0xFF
    let word : FieldValue := .number 4 0xDEADBEEF
    let string : FieldValue := .string [97, 98, 99]
    let far := 2 ^ 64 - 1
    buffer.size < addressLimit ∧
      readField 4 ((word.put 2).apply buffer).2 2 = .ok 0xDEADBEEF ∧
      readField 2 ((string.put 6).apply buffer).2 0 = readField 2 buffer 0 ∧
      (∃ both, (string.put 6).apply ((word.put 2).apply buffer).2 = (.ok (), both) ∧
        (word.put 2).apply ((string.put 6).apply buffer).2 = (.ok (), both)) ∧
      (∃ cause, ((FieldValue.number 2 1).put far).apply buffer =
        (.error (.invalid cause), buffer)) ∧
      ∃ cause, readField 2 buffer far = .error (.corruption cause) := by
  intro buffer word string far
  have small : buffer.size < addressLimit := by decide
  obtain ⟨writes, reads, commute, framed⟩ := fields_exact small
  have apart : Disjoint (word.span 2) (string.span 6) := by
    exact Set.Ico_disjoint_Ico.mpr (by decide)
  refine ⟨small, (reads 4 2).1 (by decide) |>.2 _ (by decide), ?_, ?_, ?_, ?_⟩
  · exact framed string 6 2 0 (Set.Ico_disjoint_Ico.mpr (by decide))
  · have first := (writes word 2).1.mpr (by decide)
    have second := (writes string 6).1.mpr (by decide)
    obtain ⟨both, one, two⟩ := commute word string 2 6 apart
    rw [first] at two
    rw [second] at one
    exact ⟨both, one, two⟩
  · exact (writes (.number 2 1) far).2.2 (by decide)
  · exact (reads 2 far).2 (by decide)

end SlottedLeaf
