import SlottedLeaf.Bytes.Field
import Mathlib.Algebra.Ring.Nat
import Mathlib.Data.List.Induction

/-!
# What stands in a buffer

`Buffer.Contains` says that bytes stand in a buffer from an offset on. Bytes that were written stand
there, and stay until something is written over them; what stands there is what is read.
-/

namespace SlottedLeaf

/-- Reading a number that was written gives it back, up to the width. -/
theorem ofBigEndian_bigEndian (width value : Nat) :
    ofBigEndian (bigEndian width value) = value % 256 ^ width := by
  -- The last byte is the lowest, so the bytes before it are those of the quotient.
  induction width generalizing value with
  | zero => simp [bigEndian, ofBigEndian, Nat.mod_one]
  | succ width ih =>
    have last : (UInt8.ofNat value).toNat = value % 256 := UInt8.toNat_ofNat'
    have split := Nat.mod_mul (x := value) (a := 256) (b := 256 ^ width)
    rw [bigEndian, ofBigEndian, List.foldl_append, ← ofBigEndian, ih]
    simp only [List.foldl_cons, List.foldl_nil, last]
    rw [Nat.pow_succ', split]
    omega

theorem ofBigEndian_concat (before : Bytes) (last : UInt8) :
    ofBigEndian (before ++ [last]) = 256 * ofBigEndian before + last.toNat := by
  rw [ofBigEndian, List.foldl_append]
  rfl

theorem ofBigEndian_lt (bytes : Bytes) : ofBigEndian bytes < 256 ^ bytes.length := by
  induction bytes using List.reverseRecOn with
  | nil => exact Nat.one_pos
  | append_singleton before last ih =>
    have small := last.toNat_lt
    rw [ofBigEndian_concat, List.length_append, List.length_singleton, Nat.pow_succ']
    omega

/-- Writing the number that bytes spell gives the bytes back. -/
theorem bigEndian_ofBigEndian (bytes : Bytes) :
    bigEndian bytes.length (ofBigEndian bytes) = bytes := by
  induction bytes using List.reverseRecOn with
  | nil => rfl
  | append_singleton before last ih =>
    have small := last.toNat_lt
    have low : UInt8.ofNat (256 * ofBigEndian before + last.toNat) = last := by
      rw [← UInt8.toNat_inj, UInt8.toNat_ofNat']
      omega
    rw [List.length_append, List.length_singleton, bigEndian, ofBigEndian_concat, low,
      show (256 * ofBigEndian before + last.toNat) / 256 = ofBigEndian before by omega, ih]

namespace Buffer

/-! ## Slices -/

theorem slice_succ {buffer : Buffer} {offset : Nat} {byte : UInt8}
    (here : buffer[offset]? = some byte) (length : Nat) :
    buffer.slice offset (length + 1) = byte :: buffer.slice (offset + 1) length := by
  obtain ⟨inside, same⟩ := Array.getElem?_eq_some_iff.mp here
  rw [slice_eq, slice_eq, Bytes.slice, Bytes.slice,
    List.drop_eq_getElem_cons (by simpa using inside), List.take_succ_cons, Array.getElem_toList,
    same]

theorem slice_of_none {buffer : Buffer} {offset : Nat} (past : buffer[offset]? = none)
    (length : Nat) : buffer.slice offset length = [] := by
  rw [slice_eq, Bytes.slice, List.drop_eq_nil_of_le, List.take_nil]
  simpa using past

theorem length_slice (buffer : Buffer) (offset length : Nat) :
    (buffer.slice offset length).length = min length (buffer.size - offset) := by
  rw [slice_eq, Bytes.slice, List.length_take, List.length_drop, Array.length_toList]

/-! ## What stands where -/

/-- The bytes stand in the buffer from an offset on. -/
def Contains (buffer : Buffer) : Nat → Bytes → Prop
  | _, [] => True
  | offset, byte :: rest => buffer[offset]? = some byte ∧ Contains buffer (offset + 1) rest

variable {buffer : Buffer} {offset : Nat} {bytes : Bytes}

theorem contains_append {first second : Bytes} :
    buffer.Contains offset (first ++ second) ↔
      buffer.Contains offset first ∧ buffer.Contains (offset + first.length) second := by
  induction first generalizing offset with
  | nil => simp only [List.nil_append, Contains, List.length_nil, Nat.add_zero, true_and]
  | cons byte rest ih =>
    simp only [List.cons_append, Contains, ih, List.length_cons, and_assoc]
    rw [Nat.add_right_comm, Nat.add_assoc offset rest.length 1]

/-- What is written in two parts, one after the other, is written at once. -/
theorem overwrite_overwrite (buffer : Buffer) {offset middle : Nat} {first : Bytes}
    (adjacent : offset + first.length = middle) (second : Bytes) :
    (buffer.overwrite offset first).overwrite middle second =
      buffer.overwrite offset (first ++ second) := by
  induction first generalizing buffer offset with
  | nil =>
    obtain rfl := adjacent
    rfl
  | cons byte rest ih =>
    rw [overwrite, List.cons_append, overwrite]
    exact ih _ (by rw [← adjacent, List.length_cons, Nat.add_right_comm, Nat.add_assoc])

/-- What is written elsewhere does not matter. -/
theorem Contains.overwrite (contains : buffer.Contains offset bytes) {other : Nat}
    {source : Bytes} (apart : offset + bytes.length ≤ other ∨ other + source.length ≤ offset) :
    (buffer.overwrite other source).Contains offset bytes := by
  induction bytes generalizing offset with
  | nil => trivial
  | cons byte rest ih =>
    rw [List.length_cons] at apart
    refine ⟨?_, ih contains.2 (by omega)⟩
    rw [getElem?_overwrite, if_neg (by omega)]
    exact contains.1

theorem contains_overwrite (buffer : Buffer) (inside : offset + bytes.length ≤ buffer.size) :
    (buffer.overwrite offset bytes).Contains offset bytes := by
  induction bytes generalizing buffer offset with
  | nil => trivial
  | cons byte rest ih =>
    rw [List.length_cons] at inside
    refine ⟨?_, ih _ (by rw [Array.size_setIfInBounds]; omega)⟩
    rw [getElem?_overwrite, List.length_cons, if_pos (by omega), Nat.sub_self]
    rfl

/-- Writing what stands there already changes nothing. -/
theorem Contains.overwrite_self (contains : buffer.Contains offset bytes) :
    buffer.overwrite offset bytes = buffer := by
  induction bytes generalizing offset with
  | nil => rfl
  | cons byte rest ih =>
    obtain ⟨inside, same⟩ := Array.getElem?_eq_some_iff.mp contains.1
    have kept : buffer.setIfInBounds offset byte = buffer := by
      rw [← same, Array.setIfInBounds_def, dif_pos inside, Array.set_getElem_self]
    rw [SlottedLeaf.Buffer.overwrite, kept]
    exact ih contains.2

/-- Two writes that lie apart may be made in either order. -/
theorem overwrite_comm (buffer : Buffer) {offset other : Nat} {first second : Bytes}
    (apart : offset + first.length ≤ other) :
    (buffer.overwrite offset first).overwrite other second =
      (buffer.overwrite other second).overwrite offset first := by
  apply Array.ext_getElem?
  intro i
  simp only [getElem?_overwrite, size_overwrite]
  by_cases low : i < buffer.size ∧ offset ≤ i ∧ i < offset + first.length
  · rw [if_neg (by omega), if_pos low, if_pos low]
  · rw [if_neg low, if_neg low]

theorem contains_zeros {length count : Nat} (inside : offset + count ≤ length) :
    (zeros length).Contains offset (.zeros count) := by
  induction count generalizing offset with
  | zero => trivial
  | succ count ih =>
    refine ⟨?_, ih (by omega)⟩
    rw [zeros, Array.getElem?_replicate, if_pos (by omega)]

theorem contains_slice (buffer : Buffer) (offset length : Nat) :
    buffer.Contains offset (buffer.slice offset length) := by
  induction length generalizing offset with
  | zero =>
    rw [slice_eq, Bytes.slice, List.take_zero]
    trivial
  | succ length ih =>
    cases here : buffer[offset]? with
    | none =>
      rw [slice_of_none here]
      trivial
    | some byte =>
      rw [slice_succ here]
      exact ⟨here, ih (offset + 1)⟩

/-- What stands in a buffer stands in every other with the same bytes there. -/
theorem Contains.congr (contains : buffer.Contains offset bytes) {other : Buffer}
    (same : ∀ i, offset ≤ i → i < offset + bytes.length → other[i]? = buffer[i]?) :
    other.Contains offset bytes := by
  induction bytes generalizing offset with
  | nil => trivial
  | cons byte rest ih =>
    rw [List.length_cons] at same
    refine ⟨?_, ih contains.2 fun i from_here below => same i (by omega) (by omega)⟩
    rw [same offset (Nat.le_refl _) (by omega)]
    exact contains.1

/-- What stands in the front of a buffer stands in the buffer. -/
theorem Contains.of_take {length : Nat} (contains : Contains (buffer.take length) offset bytes) :
    buffer.Contains offset bytes := by
  induction bytes generalizing offset with
  | nil => trivial
  | cons byte rest ih =>
    refine ⟨?_, ih contains.2⟩
    obtain ⟨here, later⟩ := contains
    rw [Array.take_eq_extract, Array.getElem?_extract] at here
    split at here
    · simpa using here
    · cases here

theorem Contains.take (contains : buffer.Contains offset bytes) {length : Nat}
    (inside : offset + bytes.length ≤ length) : Contains (buffer.take length) offset bytes := by
  refine contains.congr ?_
  intro i _ below
  rw [Array.take_eq_extract, Array.getElem?_extract, Nat.zero_add]
  split
  · rfl
  · rw [Array.getElem?_eq_none (by omega)]

theorem Contains.drop (contains : buffer.Contains offset bytes) :
    ∃ rest, buffer.toList.drop offset = bytes ++ rest := by
  induction bytes generalizing offset with
  | nil => exact ⟨buffer.toList.drop offset, rfl⟩
  | cons byte rest ih =>
    obtain ⟨tail, after⟩ := ih contains.2
    have here : buffer.toList[offset]? = some byte := by
      rw [Array.getElem?_toList]
      exact contains.1
    obtain ⟨inside, same⟩ := List.getElem?_eq_some_iff.mp here
    exact ⟨tail, by rw [List.drop_eq_getElem_cons inside, same, after, List.cons_append]⟩

/-- A slice that is longer than what stands there starts with it. -/
theorem Contains.slice_of_le (contains : buffer.Contains offset bytes) {length : Nat}
    (longer : bytes.length ≤ length) : ∃ rest, buffer.slice offset length = bytes ++ rest := by
  obtain ⟨tail, after⟩ := contains.drop
  refine ⟨tail.take (length - bytes.length), ?_⟩
  rw [slice_eq, Bytes.slice, after, List.take_append, List.take_of_length_le longer]

theorem Contains.slice (contains : buffer.Contains offset bytes) :
    buffer.slice offset bytes.length = bytes := by
  obtain ⟨tail, after⟩ := contains.drop
  rw [slice_eq, Bytes.slice, after, List.take_left]

/-- Bytes that stand in a buffer, if there are any, lie inside it. -/
theorem Contains.le_size (contains : buffer.Contains offset bytes) (filled : 0 < bytes.length) :
    offset + bytes.length ≤ buffer.size := by
  obtain ⟨tail, after⟩ := contains.drop
  have lengths := congrArg List.length after
  rw [List.length_drop, Array.length_toList, List.length_append] at lengths
  omega

theorem Contains.readField {width value : Nat}
    (contains : buffer.Contains offset (bigEndian width value))
    (inside : offset + width ≤ buffer.size) (small : buffer.size < addressLimit) :
    readField width buffer offset = .ok (value % 256 ^ width) := by
  have slice := contains.slice
  rw [length_bigEndian] at slice
  rw [SlottedLeaf.readField, if_neg (by omega), if_neg (by omega), slice, ofBigEndian_bigEndian]

end Buffer

namespace Edit

variable {α β : Type} (buffer : Buffer)

theorem apply_bind (edit : Edit α) (next : α → Edit β) :
    (edit >>= next).apply buffer =
      match edit.apply buffer with
      | (.ok value, buffer) => (next value).apply buffer
      | (.error fault, buffer) => (.error fault, buffer) := by
  simp only [apply, ExceptT.run_bind, StateT.run_bind]
  rcases edit.run.run buffer with ⟨outcome, buffer⟩
  cases outcome <;> rfl

@[simp]
theorem apply_pure (value : α) : (pure value : Edit α).apply buffer = (.ok value, buffer) := rfl

@[simp]
theorem apply_get : (get : Edit Buffer).apply buffer = (.ok buffer, buffer) := rfl

variable {buffer}

theorem apply_bytes_eq (buffer : Buffer) (offset : Nat) (source : Bytes) :
    (bytes offset source).apply buffer =
      if addressLimit ≤ offset + source.length then
        (.error (.invalid .fieldOffsetOverflow), buffer)
      else if buffer.size < offset + source.length then
        (.error (.invalid .fieldDoesNotFit), buffer)
      else (.ok (), buffer.overwrite offset source) := rfl

theorem apply_bytes {offset : Nat} {source : Bytes}
    (inside : offset + source.length ≤ buffer.size) (small : buffer.size < addressLimit) :
    (bytes offset source).apply buffer = (.ok (), buffer.overwrite offset source) := by
  rw [apply_bytes_eq, if_neg (by omega), if_neg (by omega)]

theorem apply_field {width offset : Nat} (value : Nat) (inside : offset + width ≤ buffer.size)
    (small : buffer.size < addressLimit) :
    (field width offset value).apply buffer =
      (.ok (), buffer.overwrite offset (bigEndian width value)) :=
  apply_bytes (by rwa [length_bigEndian]) small

/-! ## Edits of a range -/

variable {offset length more : Nat}

/-- The edit writes from an offset on, as many bytes as the length says if it succeeds and no more
if it fails. Nothing but the size of a buffer decides what it writes and how it ends. -/
def Fills (edit : Edit α) (offset length : Nat) : Prop :=
  ∀ size, ∃ outcome source, source.length ≤ length ∧
    (∀ value, outcome = .ok value → source.length = length) ∧
    ∀ buffer : Buffer, buffer.size = size →
      edit.apply buffer = (outcome, buffer.overwrite offset source)

namespace Fills

theorem pure (value : α) (offset : Nat) : (Pure.pure value : Edit α).Fills offset 0 := by
  intro size
  exact ⟨.ok value, [], Nat.le_refl 0, fun _ _ => rfl, fun _ _ => rfl⟩

theorem throw (fault : Fault) (offset length : Nat) :
    (MonadExcept.throw fault : Edit α).Fills offset length := by
  intro size
  exact ⟨.error fault, [], Nat.zero_le _, nofun, fun _ _ => rfl⟩

theorem bytes (offset : Nat) (source : Bytes) :
    (bytes offset source).Fills offset source.length := by
  intro size
  by_cases far : addressLimit ≤ offset + source.length
  · refine ⟨.error (.invalid .fieldOffsetOverflow), [], Nat.zero_le _, nofun, ?_⟩
    rintro buffer rfl
    rw [apply_bytes_eq, if_pos far]
    rfl
  by_cases past : size < offset + source.length
  · refine ⟨.error (.invalid .fieldDoesNotFit), [], Nat.zero_le _, nofun, ?_⟩
    rintro buffer rfl
    rw [apply_bytes_eq, if_neg far, if_pos past]
    rfl
  · refine ⟨.ok (), source, Nat.le_refl _, fun _ _ => rfl, ?_⟩
    rintro buffer rfl
    rw [apply_bytes_eq, if_neg far, if_neg past]

theorem field (width offset value : Nat) : (field width offset value).Fills offset width := by
  have fills := bytes offset (bigEndian width value)
  rwa [length_bigEndian] at fills

/-- An edit goes on where the one before it stopped. -/
theorem bind {edit : Edit α} {next : α → Edit β} (first : edit.Fills offset length)
    (second : ∀ value, (next value).Fills (offset + length) more) :
    (edit >>= next).Fills offset (length + more) := by
  intro size
  obtain ⟨outcome, source, short, whole, written⟩ := first size
  cases outcome with
  | error fault =>
    refine ⟨.error fault, source, by omega, nofun, ?_⟩
    intro buffer sized
    rw [apply_bind, written buffer sized]
  | ok value =>
    have whole := whole value rfl
    obtain ⟨outcome, rest, short, all, added⟩ := second value size
    refine ⟨outcome, source ++ rest, by simp only [List.length_append]; omega, ?_, ?_⟩
    · intro value succeeded
      rw [List.length_append, whole, all value succeeded]
    · intro buffer sized
      rw [apply_bind, written buffer sized]
      simp only
      rw [added _ (by rw [Buffer.size_overwrite, sized]),
        Buffer.overwrite_overwrite buffer (by rw [whole])]

/-- A test of the size may come first. -/
theorem get {next : Buffer → Edit α} (fills : ∀ buffer, (next buffer).Fills offset length)
    (sized : ∀ buffer other : Buffer, buffer.size = other.size → next buffer = next other) :
    (MonadState.get >>= next).Fills offset length := by
  intro size
  obtain ⟨outcome, source, short, whole, written⟩ := fills (.zeros size) size
  refine ⟨outcome, source, short, whole, ?_⟩
  intro buffer same
  rw [apply_bind, apply_get]
  simp only
  rw [sized buffer (.zeros size) (by rw [same, Buffer.zeros, Array.size_replicate]),
    written buffer same]

theorem guard {refused : Prop} [Decidable refused] {fault : Fault} {next : Unit → Edit α}
    (fills : (next ()).Fills offset length) :
    (if refused then MonadExcept.throw fault >>= next else next ()).Fills offset length := by
  split
  · exact throw fault offset length
  · exact fills

/-- Edits of ranges that lie apart may be made in either order. -/
theorem comm {edit : Edit α} {other : Edit β} {place : Nat} (first : edit.Fills offset length)
    (second : other.Fills place more) (apart : offset + length ≤ place) (buffer : Buffer) :
    ∃ both, edit.apply (other.apply buffer).2 = ((edit.apply buffer).1, both) ∧
      other.apply (edit.apply buffer).2 = ((other.apply buffer).1, both) := by
  obtain ⟨outcome, source, short, -, written⟩ := first buffer.size
  obtain ⟨ending, bytes, -, -, added⟩ := second buffer.size
  rw [written buffer rfl, added buffer rfl]
  refine ⟨_, written _ (Buffer.size_overwrite ..), ?_⟩
  rw [added _ (Buffer.size_overwrite ..), Buffer.overwrite_comm buffer (by omega)]

end Fills

end Edit

end SlottedLeaf
