import SlottedLeaf.Proofs.Calls
import SlottedLeaf.Proofs.RowCodec

/-!
# Full rows as they are read

A full row stands on a page as its position, the tag of its key and the key. The tag may be written
in more bytes than it needs. `read_full_iff` says that a reader finds a row exactly where it stands
in one of these ways. No row is the start of another, so the bytes of a row are the ones that the
reader takes for it, and of a page that ends before them it makes no row at all.
-/

namespace SlottedLeaf

open Varint

/-- A full row with its tag written as these bytes. -/
def Row.bytesWith (row : Row) (field : Bytes) : Bytes :=
  bigEndian positionLength row.pos.value.toNat ++ (field ++ row.keyBytes)

theorem Row.length_bytesWith (row : Row) (field : Bytes) :
    (row.bytesWith field).length = positionLength + field.length + row.keyBytes.length := by
  rw [Row.bytesWith, List.length_append, List.length_append, length_bigEndian, Nat.add_assoc]

/-- In one place stands one number. -/
theorem Varint.Terminated.eq_of_contains {page : Buffer} {offset : Nat} {field others : Bytes}
    (terminated : Terminated field) (likewise : Terminated others)
    (stands : page.Contains offset field) (too : page.Contains offset others) : field = others := by
  obtain ⟨after, first⟩ := stands.drop
  obtain ⟨later, second⟩ := too.drop
  rw [first] at second
  exact (terminated.append_inj likewise second).1

namespace RowFormat

/-- A format without a table to resolve position-only rows. -/
def untabled : RowFormat := standard fun _ => .error (.corruption .rowNotInTable)

variable {format : RowFormat} {row other : Row} {page : Buffer} {offset : Nat} {field : Bytes}

/-! ## Readers -/

theorem readKey_error {fault : Fault} (failed : readKey page offset = .error fault) :
    ∃ cause, fault = .corruption cause := by
  simp only [readKey] at failed
  split at failed
  · cases failed
    exact ⟨_, rfl⟩
  · cases failed
    exact ⟨_, rfl⟩
  · cases failed
  · split at failed
    · cases failed
      exact ⟨_, rfl⟩
    · split at failed
      · cases failed
        exact ⟨_, rfl⟩
      · cases failed

/-- Where no full row is found, the bytes of the page are to blame. -/
theorem read_full_error {fault : Fault} (failed : format.read .full page offset = .error fault) :
    ∃ cause, fault = .corruption cause := by
  rw [read] at failed
  split at failed
  · cases failed
    exact ⟨_, rfl⟩
  · split at failed
    · cases failed
      exact ⟨_, rfl⟩
    · cases found : readKey page (offset + positionLength) with
      | error cause =>
        rw [found] at failed
        cases failed
        exact readKey_error found
      | ok key =>
        rw [found] at failed
        cases failed

/-- A key that is read stands on the page, after a number that is its tag. -/
theorem readKey_ok {key : Option Bytes} (pos : RowPos) (found : readKey page offset = .ok key) :
    ∃ field, (⟨key, pos⟩ : Row).TaggedBy field ∧
      page.Contains offset (field ++ (⟨key, pos⟩ : Row).keyBytes) := by
  have stands := Buffer.contains_slice page offset maxLength
  simp only [readKey, Varint.read] at found
  cases scanned : scan maxLength (page.slice offset maxLength) with
  | error failure =>
    rw [scanned] at found
    cases failure <;> cases found
  | ok taken =>
    obtain ⟨number, rest⟩ := taken
    rw [scanned] at found
    obtain ⟨field, terminated, short, slice, rfl⟩ := of_scan scanned
    rw [slice] at stands found
    obtain ⟨tag, -⟩ := Buffer.contains_append.mp stands
    simp only [Except.map, List.length_append] at found
    cases low : value field % UInt64.size with
    | zero =>
      rw [low] at found
      cases found
      refine ⟨field, ⟨terminated, short, low⟩, ?_⟩
      rw [Row.keyBytes, Option.getD_none, List.append_nil]
      exact tag
    | succ length =>
      simp only [low, Nat.add_sub_cancel] at found
      obtain ⟨_, found⟩ := except_guard_ok found
      obtain ⟨inside, found⟩ := except_guard_ok found
      cases found
      have taken : (page.slice (offset + field.length) length).length = length := by
        rw [Buffer.length_slice]
        omega
      refine ⟨field, ⟨terminated, short, ?_⟩, Buffer.contains_append.mpr ⟨tag, ?_⟩⟩
      · rw [low, Row.keyTag]
        exact congrArg Nat.succ taken.symm
      · exact Buffer.contains_slice page (offset + field.length) length

/-- A reader finds a full row exactly where it stands, its tag written in one way or another. -/
theorem read_full_iff (small : page.size < addressLimit) :
    format.read .full page offset = .ok row ↔
      ∃ field, row.TaggedBy field ∧ page.Contains offset (row.bytesWith field) := by
  constructor
  · intro found
    rw [read] at found
    obtain ⟨_, found⟩ := except_guard_ok found
    obtain ⟨inside, found⟩ := except_guard_ok found
    obtain ⟨key, known, found⟩ := except_bind_ok found
    cases found
    obtain ⟨field, tagged, stands⟩ :=
      readKey_ok ⟨UInt64.ofNat (ofBigEndian (page.slice offset positionLength))⟩ known
    have eight : (page.slice offset positionLength).length = positionLength := by
      rw [Buffer.length_slice]
      omega
    have position : bigEndian positionLength
        (UInt64.ofNat (ofBigEndian (page.slice offset positionLength))).toNat =
          page.slice offset positionLength := by
      have small := ofBigEndian_lt (page.slice offset positionLength)
      have back := bigEndian_ofBigEndian (page.slice offset positionLength)
      rw [eight] at small back
      rw [UInt64.toNat_ofNat_of_lt' small, back]
    refine ⟨field, tagged, Buffer.contains_append.mpr ⟨?_, ?_⟩⟩
    · rw [position]
      exact Buffer.contains_slice page offset positionLength
    · rw [length_bigEndian]
      exact stands
  · rintro ⟨field, tagged, stands⟩
    obtain ⟨position, keyed⟩ := Buffer.contains_append.mp stands
    rw [length_bigEndian] at keyed
    rw [read_of_position position, readKey_of_contains tagged keyed small]
    rfl

/-- Of two rows in one place neither ends before the other. -/
theorem bytesWith_unique (small : page.size < addressLimit) {others : Bytes}
    (tagged : row.TaggedBy field) (stands : page.Contains offset (row.bytesWith field))
    (likewise : other.TaggedBy others) (too : page.Contains offset (other.bytesWith others)) :
    row = other ∧ field = others := by
  have found : untabled.read .full page offset = .ok row :=
    (read_full_iff small).mpr ⟨field, tagged, stands⟩
  have same : untabled.read .full page offset = .ok other :=
    (read_full_iff small).mpr ⟨others, likewise, too⟩
  obtain rfl : row = other := Except.ok.inj (found.symm.trans same)
  obtain ⟨first, -⟩ := Buffer.contains_append.mp (Buffer.contains_append.mp stands).2
  obtain ⟨second, -⟩ := Buffer.contains_append.mp (Buffer.contains_append.mp too).2
  exact ⟨rfl, tagged.terminated.eq_of_contains likewise.terminated first second⟩

/-! ## What is taken for a row -/

/-- Of a page that ends before a full row does, no row is made. -/
theorem read_take_error (small : page.size < addressLimit) (tagged : row.TaggedBy field)
    (stands : page.Contains offset (row.bytesWith field)) {length : Nat}
    (cut : length < offset + (row.bytesWith field).length) :
    ∃ cause, format.read .full (page.take length) offset = .error (.corruption cause) := by
  have size : (page.take length).size = min length page.size := by simp
  cases found : format.read .full (page.take length) offset with
  | error fault =>
    obtain ⟨cause, rfl⟩ := read_full_error found
    exact ⟨cause, rfl⟩
  | ok other =>
    -- Another row would stand in the same place, so it would be this one, which has no room.
    obtain ⟨others, likewise, inside⟩ := (read_full_iff (by omega)).mp found
    obtain ⟨rfl, rfl⟩ := bytesWith_unique small tagged stands likewise inside.of_take
    have room := inside.le_size (by rw [Row.length_bytesWith, positionLength]; omega)
    omega

/-- The reader takes this many bytes for a full row: it finds the row in them, and of any fewer it
says that they are corrupt, so that it takes no other number of bytes. -/
structure Consumes (format : RowFormat) (page : Buffer) (offset : Nat) (row : Row) (length : Nat) :
    Prop where
  found : format.read .full (page.take (offset + length)) offset = .ok row
  needed : ∀ fewer < offset + length, ∃ cause,
    format.read .full (page.take fewer) offset = .error (.corruption cause)

theorem consumes_of_contains (small : page.size < addressLimit) (tagged : row.TaggedBy field)
    (stands : page.Contains offset (row.bytesWith field)) :
    format.Consumes page offset row (row.bytesWith field).length where
  found := by
    have size : (page.take (offset + (row.bytesWith field).length)).size =
        min (offset + (row.bytesWith field).length) page.size := by simp
    exact (read_full_iff (by omega)).mpr ⟨field, tagged, stands.take (Nat.le_refl _)⟩
  needed _ cut := read_take_error small tagged stands cut

/-! ## The length of a key -/

/-- A number of more than ten bytes is refused in the place of a tag. -/
theorem read_full_tooLong (terminated : Terminated field) (long : maxLength < field.length)
    (stands : page.Contains (offset + positionLength) field) :
    format.read .full page offset = .error (.corruption .rowKeyLengthTooLong) := by
  have room := stands.le_size terminated.length_pos
  have front : page.slice (offset + positionLength) maxLength = field.take maxLength := by
    rw [← List.take_append_drop maxLength field] at stands
    have slice := (Buffer.contains_append.mp stands).1.slice
    rwa [List.length_take, Nat.min_eq_left (Nat.le_of_lt long)] at slice
  rw [read, if_neg (by omega), if_neg (by omega)]
  simp only [readKey, Varint.read, front, terminated.scan_take long]
  rfl

/-- Whatever full row is decoded, a number stands after its position, and the tag of the row's key
is the value of that number, with no bits lost, unless the number has a tenth byte above 1. A number
that does not fit 64 bits is refused unless it has exactly ten bytes. -/
theorem key_length_exact_iff (resolve : RowPos → Except Fault Row)
    (small : page.size < addressLimit) (offset : Nat) :
    let decoded := (standard resolve).read .full page offset
    (∀ row, decoded = .ok row →
        ∃ field, Terminated field ∧ page.Contains (offset + positionLength) field) ∧
      ∀ field, Terminated field → page.Contains (offset + positionLength) field →
        (∀ row, decoded = .ok row →
            (row.keyTag = value field ↔ ∀ tenth ∈ field[9]?, tenth.toNat ≤ 1)) ∧
          (UInt64.size ≤ value field → field.length ≠ maxLength →
            decoded = .error (.corruption .rowKeyLengthTooLong)) := by
  intro decoded
  have tag_of_ok {row : Row} (found : decoded = .ok row) :
      ∃ field, row.TaggedBy field ∧ page.Contains (offset + positionLength) field := by
    obtain ⟨field, tagged, stands⟩ := (read_full_iff small).mp found
    obtain ⟨-, keyed⟩ := Buffer.contains_append.mp stands
    rw [length_bigEndian] at keyed
    exact ⟨field, tagged, (Buffer.contains_append.mp keyed).1⟩
  refine ⟨?_, ?_⟩
  · intro row found
    obtain ⟨field, tagged, stands⟩ := tag_of_ok found
    exact ⟨field, tagged.terminated, stands⟩
  intro field terminated stands
  refine ⟨?_, ?_⟩
  · intro row found
    obtain ⟨others, tagged, too⟩ := tag_of_ok found
    obtain rfl : field = others := terminated.eq_of_contains tagged.terminated stands too
    rw [← terminated.value_lt_iff tagged.short, ← tagged.tag]
    exact Nat.mod_eq_iff_lt (by decide)
  · intro large other
    refine read_full_tooLong terminated ?_ stands
    by_contra short
    have fewer : field.length ≤ 9 := by
      simp only [maxLength] at short other
      omega
    have fits : value field < 128 ^ 9 :=
      Nat.lt_of_lt_of_le (value_lt field) (Nat.pow_le_pow_right (by decide) fewer)
    have limit : 128 ^ 9 < UInt64.size := by decide
    omega

/-- The number 2 in ten bytes. -/
def paddedTwo : Bytes := 130 :: List.replicate 8 128 ++ [0]

/-- The key of one byte after that number is read with its length. -/
theorem key_length_exact_padded :
    let page : Buffer := ([0, 0, 0, 0, 0, 0, 0, 1] ++ paddedTwo ++ [97, 98]).toArray
    untabled.read .full page 0 = .ok ⟨some [97], ⟨1⟩⟩ ∧
      (⟨some [97], ⟨1⟩⟩ : Row).keyTag = value paddedTwo := by
  intro page
  have small : page.size < addressLimit := by decide
  have terminated : Terminated paddedTwo := by
    refine terminated_iff.mpr ⟨130 :: List.replicate 8 128, 0, rfl, ?_, by decide⟩
    exact List.forall_mem_cons.mpr ⟨by decide, List.forall_mem_replicate.mpr (.inr (by decide))⟩
  have stands : page.Contains (0 + positionLength) paddedTwo :=
    ⟨rfl, rfl, rfl, rfl, rfl, rfl, rfl, rfl, rfl, rfl, trivial⟩
  have found : untabled.read .full page 0 = .ok ⟨some [97], ⟨1⟩⟩ := by decide +kernel
  obtain ⟨_, exact_iff⟩ := key_length_exact_iff _ small 0
  refine ⟨found, ((exact_iff paddedTwo terminated stands).1 _ found).mpr ?_⟩
  rintro _ ⟨⟩
  decide

/-- The number `2 ^ 64` in ten bytes. -/
def overflowing : Bytes := List.replicate 9 128 ++ [2]

/-- That number is taken for 0, and the row for one whose key is NULL. -/
theorem key_length_wraps :
    let page : Buffer := ([0, 0, 0, 0, 0, 0, 0, 1] ++ overflowing).toArray
    Terminated overflowing ∧ page.Contains (0 + positionLength) overflowing ∧
      value overflowing = 2 ^ 64 ∧ untabled.read .full page 0 = .ok ⟨none, ⟨1⟩⟩ ∧
        (⟨none, ⟨1⟩⟩ : Row).keyTag = 0 := by
  have terminated : Terminated overflowing := by
    refine terminated_iff.mpr ⟨List.replicate 9 128, 2, rfl, ?_, by decide⟩
    exact List.forall_mem_replicate.mpr (.inr (by decide))
  exact ⟨terminated, ⟨rfl, rfl, rfl, rfl, rfl, rfl, rfl, rfl, rfl, rfl, trivial⟩,
    by decide +kernel, by decide +kernel, rfl⟩

end RowFormat

end SlottedLeaf
