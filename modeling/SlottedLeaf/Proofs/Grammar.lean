import SlottedLeaf.Proofs.Following
import Mathlib.Data.Nat.Bitwise

/-!
# The grammar of leaf pages

`Buffer.HoldsLeaf` says of an image, field by field, that it is a page of an index with a leaf on
it. It mentions no reader: the fields are numbers at fixed places, and the offset table is a list of
numbers. A leaf is read of exactly these images. Of the others, those with a leaf of another index
are told from the ones that are no leaf at all.
-/

namespace SlottedLeaf

variable {index : Index} {page : PageId} {image : Buffer}

namespace Buffer

/-- The number in these bytes of an image, most significant first. -/
def number (image : Buffer) (offset width : Nat) : Nat := ofBigEndian (image.slice offset width)

/-- The numbers in the offset table, as many as the image says. -/
def offsetTable (image : Buffer) : List Nat :=
  (List.range (image.number 9 2)).map fun slot => image.number (11 + 2 * slot) 2

/-- The image is as long as a page, and has the type of a leaf and a whole offset table. -/
structure HoldsTable (index : Index) (image : Buffer) : Prop where
  sized : image.size = index.pageSize
  type : image.number 4 1 % 128 = 4
  table : 11 + 2 * image.number 9 2 ≤ image.size

/-- The image is a page with a leaf of the index: its rows start between the offset table and the
end of the page, none above the one before it. -/
structure HoldsLeaf (index : Index) (image : Buffer) : Prop extends HoldsTable index image where
  own : image.number 5 4 = index.table.number.toNat
  within : ∀ offset ∈ image.offsetTable,
    11 + 2 * image.number 9 2 ≤ offset ∧ offset < image.size
  falls : image.offsetTable.Pairwise (· ≥ ·)

instance : Decidable (image.HoldsTable index) :=
  decidable_of_iff (image.size = index.pageSize ∧ image.number 4 1 % 128 = 4 ∧
      11 + 2 * image.number 9 2 ≤ image.size)
    ⟨fun ⟨sized, type, table⟩ => ⟨sized, type, table⟩,
      fun held => ⟨held.sized, held.type, held.table⟩⟩

instance : Decidable (image.HoldsLeaf index) :=
  decidable_of_iff (image.HoldsTable index ∧ image.number 5 4 = index.table.number.toNat ∧
      (∀ offset ∈ image.offsetTable,
        11 + 2 * image.number 9 2 ≤ offset ∧ offset < image.size) ∧
      image.offsetTable.Pairwise (· ≥ ·))
    ⟨fun ⟨held, own, within, falls⟩ => ⟨held, own, within, falls⟩,
      fun holds => ⟨holds.toHoldsTable, holds.own, holds.within, holds.falls⟩⟩

theorem number_lt (image : Buffer) (offset width : Nat) :
    image.number offset width < 256 ^ width := by
  refine Nat.lt_of_lt_of_le (ofBigEndian_lt _) (Nat.pow_le_pow_right (by decide) ?_)
  rw [length_slice]
  exact Nat.min_le_left ..

theorem toNat_byte (image : Buffer) (offset : Nat) :
    (UInt8.ofNat (image.number offset 1)).toNat = image.number offset 1 :=
  UInt8.toNat_ofNat_of_lt' (image.number_lt offset 1)

theorem toNat_word (image : Buffer) (offset : Nat) :
    (UInt32.ofNat (image.number offset 4)).toNat = image.number offset 4 :=
  UInt32.toNat_ofNat_of_lt' (image.number_lt offset 4)

/-- Writing the number in these bytes gives the bytes back. -/
theorem bigEndian_number {offset width : Nat} (inside : offset + width ≤ image.size) :
    bigEndian width (image.number offset width) = image.slice offset width := by
  have length : (image.slice offset width).length = width := by
    rw [length_slice]
    omega
  have spelled := bigEndian_ofBigEndian (image.slice offset width)
  rwa [length] at spelled

/-- The number in one byte is the byte. -/
theorem ofNat_number {offset : Nat} {byte : UInt8} (here : image[offset]? = some byte) :
    UInt8.ofNat (image.number offset 1) = byte := by
  have alone : image.slice (offset + 1) 0 = [] :=
    List.eq_nil_of_length_eq_zero (by simp [length_slice])
  rw [number, slice_succ here, alone, ← UInt8.toNat_inj, UInt8.toNat_ofNat']
  show (256 * 0 + byte.toNat) % 256 = byte.toNat
  have := byte.toNat_lt
  omega

end Buffer

open Buffer

/-! ## Types -/

theorem PageKind.ofTypeByte_ok_iff {byte : UInt8} :
    ofTypeByte byte = .ok .leaf ↔ byte.toNat % 128 = 4 := by
  have leaf : byte &&& 0x7F = 4 ↔ byte.toNat % 128 = 4 := by
    rw [← UInt8.toNat_inj, toNat_low]
    rfl
  rw [ofTypeByte, ofTag, ← leaf]
  split
  · exact iff_of_true rfl ‹_›
  · refine iff_of_false ?_ ‹_›
    split <;> nofun

theorem toNat_high (byte : UInt8) :
    (byte &&& 0x80).toNat = (byte.toNat.testBit 7).toNat * 128 := by
  rw [UInt8.toNat_and]
  exact Nat.and_two_pow byte.toNat 7

/-- A type byte is its kind and its form put together. -/
theorem typeByte_ofTypeByte {kind : PageKind} {byte : UInt8}
    (known : PageKind.ofTypeByte byte = .ok kind) :
    typeByte kind (RowForm.ofTypeByte byte) = byte := by
  have low : kind.tag = byte &&& 0x7F := by
    rw [PageKind.ofTypeByte, PageKind.ofTag] at known
    split at known
    · cases known
      exact Eq.symm ‹_›
    · split at known
      · cases known
        exact Eq.symm ‹_›
      · cases known
  have high : (RowForm.ofTypeByte byte).flag = byte &&& 0x80 := by
    rw [RowForm.ofTypeByte]
    split
    · next clear => exact clear.symm
    · next bit =>
      rw [← UInt8.toNat_inj, toNat_high] at bit ⊢
      cases set : byte.toNat.testBit 7 with
      | false => exact absurd (by rw [set]; rfl) bit
      | true => rfl
  have whole : byte.toNat &&& (127 ||| 128) = byte.toNat :=
    (Nat.and_two_pow_sub_one_eq_mod byte.toNat 8).trans (Nat.mod_eq_of_lt byte.toNat_lt)
  rw [typeByte, low, high, ← UInt8.toNat_inj, UInt8.toNat_or, UInt8.toNat_and, UInt8.toNat_and]
  exact (Nat.and_or_distrib_left ..).symm.trans whole

theorem PageKind.ofTypeByte_error {byte : UInt8} {fault : Fault}
    (unknown : ofTypeByte byte = .error fault) : fault = .corruption .unknownPageKind := by
  rw [ofTypeByte, ofTag] at unknown
  split at unknown
  · cases unknown
  · split at unknown
    · cases unknown
    · cases unknown
      rfl

theorem RowForm.ofTypeByte_eq_full_iff {byte : UInt8} :
    ofTypeByte byte = .full ↔ byte.toNat.testBit 7 = true := by
  have clear : byte &&& 0x80 = 0 ↔ byte.toNat.testBit 7 = false := by
    rw [← UInt8.toNat_inj, toNat_high]
    cases byte.toNat.testBit 7 <;> decide
  rw [ofTypeByte]
  split
  · next zero => simp [clear.mp zero]
  · next bit => simpa [clear] using bit

/-! ## Headers and offset tables -/

theorem readField_of_le {width offset : Nat} (inside : offset + width ≤ image.size)
    (short : offset + width < addressLimit) :
    readField width image offset = .ok (image.number offset width) := by
  rw [readField, if_neg (by omega), if_neg (by omega), number]

namespace Header

/-- The header that an image spells. -/
def spelled (image : Buffer) : Header where
  parent := PageId.ofParentField (UInt32.ofNat (image.number 0 4))
  form := RowForm.ofTypeByte (UInt8.ofNat (image.number 4 1))
  table := ⟨UInt32.ofNat (image.number 5 4)⟩
  count := UInt16.ofNat (image.number 9 2)

theorem count_spelled (image : Buffer) : (spelled image).count.toNat = image.number 9 2 :=
  UInt16.toNat_ofNat_of_lt' (image.number_lt 9 2)

theorem offsetsEnd_spelled (image : Buffer) :
    (spelled image).offsetsEnd = 11 + 2 * image.number 9 2 := by
  rw [offsetsEnd, count_spelled]
  rfl

theorem table_spelled (image : Buffer) (table : TableId) :
    (spelled image).table = table ↔ image.number 5 4 = table.number.toNat := by
  rw [← image.toNat_word, UInt32.toNat_inj]
  exact ⟨congrArg TableId.number, congrArg TableId.mk⟩

/-- Of an image with room for a header every field is read, so that nothing but the type and the
end of the offset table can be wrong. -/
theorem decode_of_size (room : headerLength ≤ image.size) :
    decode image = PageKind.ofTypeByte (UInt8.ofNat (image.number 4 1)) >>= fun kind =>
      if kind ≠ .leaf then .error (.corruption .notALeaf)
      else if image.size < 11 + 2 * image.number 9 2 then .error (.corruption .offsetTableCut)
      else .ok (spelled image) := by
  have field {width offset : Nat} (inside : offset + width ≤ headerLength) :
      readField width image offset = .ok (image.number offset width) :=
    readField_of_le (Nat.le_trans inside room) (Nat.lt_of_le_of_lt inside (by decide))
  rw [decode, if_neg (Nat.not_lt.mpr room), ← offsetsEnd_spelled]
  simp only [field (show typeOffset + 1 ≤ _ by decide), field (show parentOffset + 4 ≤ _ by decide),
    field (show tableOffset + 4 ≤ _ by decide), field (show countOffset + 2 ≤ _ by decide)]
  rfl

theorem decode_ok (type : image.number 4 1 % 128 = 4)
    (table : 11 + 2 * image.number 9 2 ≤ image.size) : decode image = .ok (spelled image) := by
  have kind := PageKind.ofTypeByte_ok_iff.mpr ((image.toNat_byte 4).symm ▸ type)
  rw [decode_of_size (Nat.le_trans (Nat.le_add_right ..) table), kind]
  simp only [bind, Except.bind]
  rw [if_neg (by simp), if_neg (Nat.not_lt.mpr table)]

theorem decode_error
    (lacks : ¬ (image.number 4 1 % 128 = 4 ∧ 11 + 2 * image.number 9 2 ≤ image.size)) :
    ∃ cause, decode image = .error (.corruption cause) := by
  by_cases cut : image.size < headerLength
  · rw [decode, if_pos cut]
    exact ⟨_, rfl⟩
  rw [decode_of_size (Nat.le_of_not_lt cut)]
  cases known : PageKind.ofTypeByte (UInt8.ofNat (image.number 4 1)) with
  | error fault =>
    cases PageKind.ofTypeByte_error known
    exact ⟨_, rfl⟩
  | ok kind =>
    simp only [bind, Except.bind]
    cases kind with
    | node => exact ⟨_, rfl⟩
    | leaf =>
      have type := PageKind.ofTypeByte_ok_iff.mp known
      rw [image.toNat_byte] at type
      rw [if_neg (by simp), if_pos (Nat.lt_of_not_le fun table => lacks ⟨type, table⟩)]
      exact ⟨_, rfl⟩

theorem decode_ok_iff {header : Header} :
    decode image = .ok header ↔
      (image.number 4 1 % 128 = 4 ∧ 11 + 2 * image.number 9 2 ≤ image.size) ∧
        header = spelled image := by
  constructor
  · intro decoded
    by_cases held : image.number 4 1 % 128 = 4 ∧ 11 + 2 * image.number 9 2 ≤ image.size
    · rw [decode_ok held.1 held.2] at decoded
      cases decoded
      exact ⟨held, rfl⟩
    · obtain ⟨cause, refused⟩ := decode_error held
      rw [refused] at decoded
      cases decoded
  · rintro ⟨⟨type, table⟩, rfl⟩
    exact decode_ok type table

end Header

theorem OffsetTable.decodePairs_slice {slot count : Nat}
    (inside : 11 + 2 * (slot + count) ≤ image.size) :
    decodePairs count (image.slice (11 + 2 * slot) (2 * count)) =
      .ok ((List.range' slot count).map fun slot => image.number (11 + 2 * slot) 2) := by
  induction count generalizing slot with
  | zero => rfl
  | succ count ih =>
    have high : image[11 + 2 * slot]? = some image[11 + 2 * slot] := Array.getElem?_eq_getElem _
    have low : image[11 + 2 * slot + 1]? = some image[11 + 2 * slot + 1] :=
      Array.getElem?_eq_getElem _
    rw [Nat.mul_succ, slice_succ high, slice_succ low, decodePairs,
      show 11 + 2 * slot + 1 + 1 = 11 + 2 * (slot + 1) by omega, ih (by omega), List.range'_succ,
      List.map_cons]
    have pair : image.slice (11 + 2 * slot) 2 =
        [image[11 + 2 * slot], image[11 + 2 * slot + 1]] := by
      rw [slice_succ high, slice_succ low]
      congr 2
      exact List.eq_nil_of_length_eq_zero (by simp [length_slice])
    rw [number, pair]
    rfl

theorem OffsetTable.decode_eq (table : 11 + 2 * image.number 9 2 ≤ image.size) :
    OffsetTable.decode image (image.number 9 2) = .ok image.offsetTable := by
  have pairs := @decodePairs_slice image 0 (image.number 9 2) (by rwa [Nat.zero_add])
  rw [offsetTable, List.range_eq_range']
  exact pairs

/-! ## Images -/

namespace Leaf

theorem checkOffsets_error {start stop ceiling : Nat} {offsets : List Nat} {fault : Fault}
    (refused : checkOffsets start stop ceiling offsets = .error fault) :
    ∃ cause, fault = .corruption cause := by
  induction offsets generalizing ceiling with
  | nil => cases refused
  | cons offset rest ih =>
    rw [checkOffsets] at refused
    split at refused
    · cases refused
      exact ⟨_, rfl⟩
    · split at refused
      · cases refused
        exact ⟨_, rfl⟩
      · exact ih refused

/-- The leaf that an image spells, with every row still encoded. -/
def spelled (page : PageId) (image : Buffer) : Leaf :=
  let header := Header.spelled image
  ⟨page, header.parent, header.form, image.offsetTable.map (⟨·, none⟩), true, image⟩

/-- The ways in which reading an image as a page of the index ends. -/
inductive Shown (index : Index) (page : PageId) (image : Buffer) : Except Fault Leaf → Prop where
  | leaf : image.HoldsLeaf index → Shown index page image (.ok (spelled page image))
  /-- The leaf is one of another index. -/
  | other : image.HoldsTable index → image.number 5 4 ≠ index.table.number.toNat →
      Shown index page image
        (.error (.tableMismatch page index.table ⟨UInt32.ofNat (image.number 5 4)⟩))
  | corrupt (cause : Corruption) : ¬ image.HoldsLeaf index →
      (image.HoldsTable index → image.number 5 4 = index.table.number.toNat) →
      Shown index page image (.error (.corruption cause))

theorem ofImage_shown (index : Index) (page : PageId) (image : Buffer) :
    Shown index page image (ofImage index page image) := by
  -- The checks are followed in the order in which they are made: each that fails rules out the
  -- grammar, and only the one of the table is made of an image that has all the others ask for.
  rw [ofImage]
  by_cases sized : image.size = index.pageSize
  case neg =>
    rw [if_pos sized]
    exact .corrupt _ (fun holds => sized holds.sized) fun holds => absurd holds.sized sized
  rw [if_neg (not_not.mpr sized)]
  by_cases held : image.HoldsTable index
  case neg =>
    obtain ⟨cause, refused⟩ := Header.decode_error fun head => held ⟨sized, head.1, head.2⟩
    rw [refused]
    exact .corrupt cause (fun holds => held holds.toHoldsTable) fun holds => absurd holds held
  simp only [Header.decode_ok held.type held.table, bind, Except.bind]
  by_cases own : image.number 5 4 = index.table.number.toNat
  case neg =>
    rw [if_pos (mt (Header.table_spelled image index.table).mp own)]
    exact .other held own
  rw [if_neg (not_not.mpr ((Header.table_spelled image index.table).mpr own))]
  simp only [Header.count_spelled, OffsetTable.decode_eq held.table, Header.offsetsEnd_spelled]
  cases checked :
    checkOffsets (11 + 2 * image.number 9 2) image.size image.size image.offsetTable with
  | error fault =>
    obtain ⟨cause, rfl⟩ := checkOffsets_error checked
    refine .corrupt cause ?_ fun _ => own
    intro holds
    have taken := checkOffsets_ok_iff.mpr ⟨holds.within,
      List.pairwise_cons.mpr ⟨fun offset member => (holds.within offset member).2.le, holds.falls⟩⟩
    rw [checked] at taken
    cases taken
  | ok =>
    obtain ⟨within, falls⟩ := checkOffsets_ok_iff.mp checked
    exact .leaf ⟨held, own, within, (List.pairwise_cons.mp falls).2⟩

/-- The leaf is what the image says, with no row decoded and nothing changed. -/
structure Mirrors (page : PageId) (image : Buffer) (leaf : Leaf) : Prop where
  id : leaf.id = page
  clean : leaf.isDirty = false
  offsets : leaf.offsets = image.offsetTable
  encoded : ∀ slot ∈ leaf.slots, slot.row = none
  root : leaf.parent = none ↔ image.number 0 4 = 0
  parent : ∀ node, leaf.parent = some node → node.number.toNat = image.number 0 4
  form : leaf.form = .full ↔ (image.number 4 1).testBit 7 = true
  image : leaf.image = image

theorem offsets_spelled (page : PageId) (image : Buffer) :
    (spelled page image).offsets = image.offsetTable := by
  rw [offsets, spelled, List.map_map]
  exact List.map_id image.offsetTable

theorem mirrors_spelled (page : PageId) (image : Buffer) :
    (spelled page image).Mirrors page image := by
  have zero : UInt32.ofNat (image.number 0 4) = 0 ↔ image.number 0 4 = 0 := by
    rw [← UInt32.toNat_inj, image.toNat_word]
    rfl
  have parent : (spelled page image).parent =
      if UInt32.ofNat (image.number 0 4) = 0 then none
      else some ⟨UInt32.ofNat (image.number 0 4)⟩ := rfl
  simp only [zero] at parent
  refine ⟨rfl, rfl, offsets_spelled page image, ?_, ?_, ?_, ?_, rfl⟩
  · intro slot member
    obtain ⟨offset, -, rfl⟩ := List.mem_map.mp member
    rfl
  · rw [parent]
    split
    · exact iff_of_true rfl ‹_›
    · exact iff_of_false nofun ‹_›
  · rw [parent]
    split
    · nofun
    · rintro _ ⟨⟩
      exact image.toNat_word 0
  · rw [← image.toNat_byte]
    exact RowForm.ofTypeByte_eq_full_iff

end Leaf

/-! ## On a machine -/

namespace RawLeaf

open Machine RawCall

variable {leaf : RawLeaf}

theorem readNumber_gives (leaf : RawLeaf) (width : Nat) (image : Buffer) (offset : Nat) :
    (readNumber width image offset).Gives leaf (readField width image offset) := by
  have taken := take_gives leaf .fieldOffsetOverflow .fieldPastEnd image offset width
  unfold readNumber readField
  by_cases long : addressLimit ≤ offset + width
  · rw [if_pos long] at taken ⊢
    exact .then_error taken
  rw [if_neg long] at taken ⊢
  by_cases past : image.size < offset + width
  · rw [if_pos past] at taken ⊢
    exact .then_error taken
  rw [if_neg past] at taken ⊢
  refine .then_ok taken (.of_sure (if_pos ?_) (.of_pure _))
  rw [length_slice]
  omega

theorem readNumber_gives_ok {width offset : Nat} (inside : offset + width ≤ image.size)
    (short : offset + width < addressLimit) :
    (readNumber width image offset).Gives leaf (.ok (image.number offset width)) :=
  readField_of_le inside short ▸ readNumber_gives leaf width image offset

theorem entryOffset_gives {slot : Nat} (few : slot < 65536) :
    (entryOffset slot).Gives leaf (.ok (11 + 2 * slot)) := by
  have limit : addressLimit = 2 ^ 64 := rfl
  have product : mul entryLength slot = some (2 * slot) :=
    mul_eq (by rw [entryLength]; omega)
  have sum : add headerLength (2 * slot) = some (11 + 2 * slot) :=
    add_eq (by rw [headerLength]; omega)
  refine .of_sure product ?_
  rw [sum]
  exact fun engine => on_sure leaf engine _

theorem readHeader_gives (leaf : RawLeaf) (image : Buffer) :
    (readHeader image).Gives leaf (Header.decode image) := by
  unfold readHeader
  by_cases cut : image.size < headerLength
  · rw [if_pos cut, Header.decode, if_pos cut]
    exact .of_throw _
  have room : headerLength ≤ image.size := Nat.le_of_not_lt cut
  have field {width offset : Nat} (inside : offset + width ≤ headerLength) :
      (readNumber width image offset).Gives leaf (.ok (image.number offset width)) :=
    readNumber_gives_ok (Nat.le_trans inside room) (Nat.lt_of_le_of_lt inside (by decide))
  obtain ⟨type, here⟩ : ∃ type, image[Header.typeOffset]? = some type :=
    ⟨_, Array.getElem?_eq_getElem (Nat.lt_of_lt_of_le (by decide) room)⟩
  obtain rfl : UInt8.ofNat (image.number 4 1) = type := ofNat_number here
  rw [if_neg cut, Header.decode_of_size room]
  refine .of_sure here (.bind (.of_ofExcept _) ?_)
  intro kind
  by_cases node : kind ≠ .leaf
  · rw [if_pos node, if_pos node]
    exact .of_throw _
  rw [if_neg node, if_neg node]
  refine .then_ok (field (by decide)) ?_
  refine .then_ok (field (by decide)) ?_
  refine .then_ok (field (by decide)) ?_
  have stop : (entryOffset (Header.spelled image).count.toNat).Gives leaf
      (.ok (11 + 2 * image.number 9 2)) :=
    Header.count_spelled image ▸ entryOffset_gives (UInt16.toNat_lt _)
  refine .then_ok stop ?_
  split
  · exact .of_throw _
  · exact .of_pure _

theorem readOffsets_gives {slot rounds : Nat} (inside : 11 + 2 * (slot + rounds) ≤ image.size)
    (few : slot + rounds < 65536) :
    (readOffsets image slot rounds).Gives leaf
      (.ok ((List.range' slot rounds).map fun slot => image.number (11 + 2 * slot) 2)) := by
  have limit : addressLimit = 2 ^ 64 := rfl
  induction rounds generalizing slot with
  | zero => exact .of_pure _
  | succ rounds ih =>
    have offset : (readNumber 2 image (11 + 2 * slot)).Gives leaf
        (.ok (image.number (11 + 2 * slot) 2)) :=
      readNumber_gives_ok (by omega) (by omega)
    have rest := ih (by omega : 11 + 2 * (slot + 1 + rounds) ≤ image.size) (by omega)
    exact .then_ok (entryOffset_gives (by omega)) (.then_ok offset (.then_ok rest (.of_pure _)))

/-- A machine reads the offset table that a header announces. -/
theorem readTable_gives (leaf : RawLeaf) {header : Header}
    (decoded : Header.decode image = .ok header) :
    (readOffsets image 0 header.count.toNat).Gives leaf
      (OffsetTable.decode image header.count.toNat) := by
  obtain ⟨⟨_, table⟩, rfl⟩ := Header.decode_ok_iff.mp decoded
  have offsets := @readOffsets_gives image leaf 0 (image.number 9 2)
    (by rwa [Nat.zero_add]) (by rw [Nat.zero_add]; exact image.number_lt 9 2)
  rw [Header.count_spelled, OffsetTable.decode_eq table, offsetTable, List.range_eq_range']
  exact offsets

theorem raw_spelled (page : PageId) (image : Buffer) :
    (Leaf.spelled page image).raw =
      ⟨page, (Header.spelled image).parent, (Header.spelled image).form, image.offsetTable,
        .replicate image.offsetTable.length none, 11 + 2 * image.number 9 2, true, image⟩ := by
  have rows : (Leaf.spelled page image).slots.map Slot.row =
      .replicate image.offsetTable.length none := by
    rw [Leaf.spelled, List.map_map]
    exact List.map_const' ..
  have start : (Leaf.spelled page image).start = 11 + 2 * image.number 9 2 := by
    simp [Leaf.start, Leaf.count, Leaf.spelled, offsetTable, headerLength, entryLength]
  rw [Leaf.raw, rows, start, Leaf.offsets_spelled]
  rfl

/-- A machine makes of an image what is made of it, and stops at none. -/
theorem ofImage_gives (leaf : RawLeaf) (index : Index) (page : PageId) (image : Buffer) :
    (ofImage index page image).Gives leaf ((Leaf.ofImage index page image).map Leaf.raw) := by
  unfold ofImage Leaf.ofImage
  by_cases sized : image.size = index.pageSize
  case neg =>
    rw [if_pos sized, if_pos sized]
    exact .of_throw _
  rw [if_neg (not_not.mpr sized), if_neg (not_not.mpr sized)]
  have head := readHeader_gives leaf image
  cases decoded : Header.decode image with
  | error fault =>
    rw [decoded] at head
    exact .then_error head
  | ok header =>
  rw [decoded] at head
  obtain ⟨⟨_, table⟩, rfl⟩ := Header.decode_ok_iff.mp decoded
  refine .then_ok head ?_
  simp only [bind, Except.bind]
  by_cases own : (Header.spelled image).table = index.table
  case neg =>
    rw [if_pos own, if_pos own]
    exact .of_throw _
  rw [if_neg (not_not.mpr own), if_neg (not_not.mpr own)]
  have offsets := readTable_gives leaf decoded
  simp only [Header.count_spelled, OffsetTable.decode_eq table, Header.offsetsEnd_spelled]
    at offsets ⊢
  refine .then_ok offsets (.then_ok (entryOffset_gives (image.number_lt 9 2)) ?_)
  cases Leaf.checkOffsets (11 + 2 * image.number 9 2) image.size image.size image.offsetTable with
  | error fault => exact .then_error (.of_ofExcept (.error fault))
  | ok =>
    refine .then_ok (.of_ofExcept (.ok ())) ?_
    show Gives _ leaf (.ok (Leaf.spelled page image).raw)
    rw [raw_spelled]
    exact .of_pure _

theorem read_raw (leaf : RawLeaf) (index : Index) (page : PageId) (image : Buffer)
    (engine : Engine) :
    let ended := (Leaf.read index page image).on engine
    (read index page image).on leaf engine = some ((ended.1.map Leaf.raw, leaf), ended.2) := by
  intro ended
  have made : ended = _ := Leaf.read_on index page image engine
  rw [read, on_bind, ofImage_gives, made]
  cases shown : Leaf.ofImage index page image with
  | error fault => rfl
  | ok spelled =>
    have count : spelled.raw.offsets.length = spelled.count := List.length_map ..
    simp only [Except.map, on_bind, count]
    rfl

end RawLeaf

/-! ## What is read -/

namespace Leaf

/-- What a fault says of an image that is no page of the index: its bytes are to blame, and if they
are those of a leaf of another index, the fault names the two tables. -/
structure Refuses (index : Index) (page : PageId) (image : Buffer) (fault : Fault) : Prop where
  corrupt : fault.isCorruption = true
  mismatch : (∃ id owner found, fault = .tableMismatch id owner found) ↔
    image.HoldsTable index ∧ image.number 5 4 ≠ index.table.number.toNat
  names : ∀ id owner found, fault = .tableMismatch id owner found →
    id = page ∧ owner = index.table ∧ found.number.toNat = image.number 5 4

/-- A leaf is read of an image exactly if the image is a page with a leaf of the index. The leaf
mirrors the image, and one page more has been read then; otherwise the image is refused and nothing
has changed. A machine does the same, and whatever the image is, it does not stop. -/
theorem read_iff_holdsLeaf (index : Index) (page : PageId) (image : Buffer) (engine : Engine) :
    let ended := (read index page image).on engine
    (∀ atHand, (RawLeaf.read index page image).on atHand engine =
        some ((ended.1.map Leaf.raw, atHand), ended.2)) ∧
      ((∃ leaf, ended.1 = .ok leaf) ↔ image.HoldsLeaf index) ∧
      (∀ leaf, ended.1 = .ok leaf → leaf.Mirrors page image ∧
        ended.2 = (engine.counted .pagesRead 1).reported (.leafRead page leaf.count leaf.form)) ∧
      ∀ fault, ended.1 = .error fault → Refuses index page image fault ∧ ended.2 = engine := by
  intro ended
  refine ⟨fun atHand => RawLeaf.read_raw atHand index page image engine, ?_⟩
  have made : ended = _ := read_on index page image engine
  have shown := ofImage_shown index page image
  rw [made]
  generalize ofImage index page image = outcome at shown
  cases shown with
  | leaf holds =>
    refine ⟨iff_of_true ⟨_, rfl⟩ holds, ?_, nofun⟩
    rintro _ ⟨⟩
    exact ⟨mirrors_spelled page image, rfl⟩
  | other held foreign =>
    refine ⟨iff_of_false nofun fun holds => foreign holds.own, nofun, ?_⟩
    rintro _ ⟨⟩
    refine ⟨⟨rfl, iff_of_true ⟨_, _, _, rfl⟩ ⟨held, foreign⟩, ?_⟩, rfl⟩
    rintro _ _ _ ⟨⟩
    exact ⟨rfl, rfl, image.toNat_word 5⟩
  | corrupt cause lacks own =>
    refine ⟨iff_of_false nofun lacks, nofun, ?_⟩
    rintro _ ⟨⟩
    exact ⟨⟨rfl, iff_of_false nofun fun ⟨held, foreign⟩ => foreign (own held), nofun⟩, rfl⟩

/-- A page of the smallest size, with as many slots as leave one byte for the rows. -/
def crowded (table : UInt8) : Buffer :=
  ([0, 0, 0, 0, 4, 0, 0, 0, table, 0, 26] ++ (List.replicate 26 [0, 63]).flatten ++ [0]).toArray

/-- Such a page of the index is read, and one of another index is refused. -/
theorem read_iff_holdsLeaf_crowded :
    ((crowded 1).HoldsLeaf .plain ∧
      ∃ leaf, ((read .plain ⟨7⟩ (crowded 1)).on (.inMemory 64 1)).1 = .ok leaf ∧
        leaf.Mirrors ⟨7⟩ (crowded 1)) ∧
      ((crowded 2).HoldsTable .plain ∧ (crowded 2).number 5 4 ≠ 1 ∧
        ∃ fault, ((read .plain ⟨7⟩ (crowded 2)).on (.inMemory 64 1)).1 = .error fault ∧
          Refuses .plain ⟨7⟩ (crowded 2) fault) := by
  have holds : (crowded 1).HoldsLeaf .plain := by decide +kernel
  have held : (crowded 2).HoldsTable .plain := by decide +kernel
  have foreign : (crowded 2).number 5 4 ≠ 1 := by decide +kernel
  have run (table : UInt8) := read_iff_holdsLeaf .plain ⟨7⟩ (crowded table) (.inMemory 64 1)
  refine ⟨⟨holds, ?_⟩, held, foreign, ?_⟩
  · obtain ⟨-, accepts, mirrors, -⟩ := run 1
    obtain ⟨leaf, shown⟩ := accepts.mpr holds
    exact ⟨leaf, shown, (mirrors leaf shown).1⟩
  · obtain ⟨-, accepts, -, refuses⟩ := run 2
    cases outcome : ((read .plain ⟨7⟩ (crowded 2)).on (.inMemory 64 1)).1 with
    | ok leaf => exact absurd (accepts.mp ⟨leaf, outcome⟩).own foreign
    | error fault => exact ⟨fault, rfl, (refuses fault outcome).1⟩

end Leaf

end SlottedLeaf
