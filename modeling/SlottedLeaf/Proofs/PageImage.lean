import SlottedLeaf.Leaf.Image
import SlottedLeaf.Proofs.RowCodec
import SlottedLeaf.Proofs.WellFormed

/-!
# Page images

An image is written from the front, header and offset table, and then row by row down from its end.
Rows that lie apart from each other and from the table are not written over, so all of it stands in
the image, and a leaf that is read from the image shows what was written.
-/

namespace SlottedLeaf

open RowEntry

variable {page : Buffer}

/-! ## The header -/

namespace Header

/-- What a header is written as. -/
def bytes (header : Header) : Bytes :=
  bigEndian 4 (PageId.toParentField header.parent).toNat ++
    (bigEndian 1 (typeByte .leaf header.form).toNat ++
      (bigEndian 4 header.table.number.toNat ++ bigEndian 2 header.count.toNat))

variable (header : Header)

theorem length_bytes : header.bytes.length = headerLength := by
  simp [bytes, headerLength]

theorem put_apply (inside : headerLength ≤ page.size) (small : page.size < addressLimit) :
    header.put.apply page = (.ok (), page.overwrite 0 header.bytes) := by
  simp only [headerLength] at inside
  have size (other : Buffer) (offset : Nat) (bytes : Bytes) :
      (other.overwrite offset bytes).size = other.size := Buffer.size_overwrite other offset bytes
  simp only [put, Edit.apply_bind, parentOffset, typeOffset, tableOffset, countOffset]
  rw [Edit.apply_field _ (by omega) small]
  simp only [Edit.apply_get, size]
  rw [if_neg (by omega)]
  simp only [Edit.apply_bind]
  rw [Edit.apply_field _ (by rw [size]; omega) (by rwa [size])]
  simp only
  rw [Edit.apply_field _ (by rw [size, size]; omega) (by rwa [size, size])]
  simp only
  rw [Edit.apply_field _ (by rw [size, size, size]; omega) (by rwa [size, size, size])]
  rw [Buffer.overwrite_overwrite page (by simp), Buffer.overwrite_overwrite page (by simp),
    Buffer.overwrite_overwrite page (by simp), bytes, List.append_assoc, List.append_assoc]

theorem put_fills : header.put.Fills parentOffset headerLength := by
  rw [put, show headerLength = 4 + (1 + (4 + 2)) from rfl]
  refine (Edit.Fills.field 4 parentOffset _).bind fun _ => ?_
  refine Edit.Fills.get (fun buffer => .guard ?_) fun buffer other sized => by simp only [sized]
  refine (Edit.Fills.field 1 typeOffset _).bind fun _ => ?_
  exact (Edit.Fills.field 4 tableOffset _).bind fun _ => .field 2 countOffset _

/-- A header that stands on a page is read, unless it names the reserved page as its parent. -/
theorem decode_of_contains (contains : page.Contains 0 header.bytes)
    (unreserved : header.parent ≠ some .reserved) (inside : header.offsetsEnd ≤ page.size)
    (small : page.size < addressLimit) : Header.decode page = .ok header := by
  obtain ⟨parent, rest⟩ := Buffer.contains_append.mp contains
  obtain ⟨type, rest⟩ := Buffer.contains_append.mp rest
  obtain ⟨table, count⟩ := Buffer.contains_append.mp rest
  simp only [length_bigEndian, Nat.zero_add, Nat.reduceAdd] at type table count
  have room : headerLength ≤ page.size := Nat.le_trans (Nat.le_add_right _ _) inside
  have room_eleven : 11 ≤ page.size := room
  have whole (number : UInt32) : UInt32.ofNat (number.toNat % 256 ^ 4) = number := by
    have small := number.toNat_lt
    rw [show number.toNat % 256 ^ 4 = number.toNat by omega, UInt32.ofNat_toNat]
  have kind (byte : UInt8) : UInt8.ofNat (byte.toNat % 256 ^ 1) = byte := by
    have small := byte.toNat_lt
    rw [show byte.toNat % 256 ^ 1 = byte.toNat by omega, UInt8.ofNat_toNat]
  have slots (number : UInt16) : UInt16.ofNat (number.toNat % 256 ^ 2) = number := by
    have small := number.toNat_lt
    rw [show number.toNat % 256 ^ 2 = number.toNat by omega, UInt16.ofNat_toNat]
  rw [Header.decode, parentOffset, typeOffset, tableOffset, countOffset,
    parent.readField (by omega) small, type.readField (by omega) small,
    table.readField (by omega) small, count.readField (by omega) small]
  have type := ofTypeByte_typeByte .leaf header.form
  rw [if_neg (Nat.not_lt.mpr room)]
  simp only [bind, Except.bind, kind, type.1, type.2, whole, slots, ne_eq, not_true,
    if_false, PageId.ofParentField_toParentField unreserved]
  rw [if_neg (Nat.not_lt.mpr inside)]
  rfl

end Header

/-! ## The offset table -/

namespace OffsetTable

/-- What offsets are written as. -/
def bytes (offsets : List Nat) : Bytes := offsets.flatMap (bigEndian entryLength)

theorem length_bytes (offsets : List Nat) :
    (bytes offsets).length = entryLength * offsets.length := by
  simp [bytes, Nat.mul_comm]

theorem putFrom_apply {slot : Nat} {offsets : List Nat} (low : ∀ offset ∈ offsets, offset ≤ 65535)
    (inside : entryOffset slot + entryLength * offsets.length ≤ page.size)
    (small : page.size < addressLimit) :
    (putFrom slot offsets).apply page =
      (.ok (), page.overwrite (entryOffset slot) (bytes offsets)) := by
  induction offsets generalizing slot page with
  | nil => rfl
  | cons offset rest ih =>
    rw [List.length_cons, Nat.mul_succ] at inside
    have next : entryOffset slot + entryLength = entryOffset (slot + 1) := by
      simp only [entryOffset, Nat.mul_succ, Nat.add_assoc]
    have low_here := low offset List.mem_cons_self
    have rest_low : ∀ offset ∈ rest, offset ≤ 65535 := by
      intro offset member
      exact low offset (List.mem_cons_of_mem _ member)
    rw [putFrom, if_neg (Nat.not_lt.mpr low_here)]
    simp only [Edit.apply_bind]
    rw [Edit.apply_field _ (by omega) small]
    simp only
    rw [ih rest_low (by rw [Buffer.size_overwrite]; omega) (by rwa [Buffer.size_overwrite]),
      Buffer.overwrite_overwrite page (by rw [length_bigEndian, next]), bytes, bytes,
      List.flatMap_cons]

theorem putFrom_fills (slot : Nat) (offsets : List Nat) :
    (putFrom slot offsets).Fills (entryOffset slot) (entryLength * offsets.length) := by
  induction offsets generalizing slot with
  | nil => exact .pure () _
  | cons offset rest ih =>
    have next := ih (slot + 1)
    rw [show entryOffset (slot + 1) = entryOffset slot + entryLength from rfl] at next
    rw [putFrom, List.length_cons, Nat.mul_succ, Nat.add_comm _ entryLength]
    exact .guard ((Edit.Fills.field entryLength _ offset).bind fun _ => next)

theorem decodePairs_bytes {offsets : List Nat} (low : ∀ offset ∈ offsets, offset ≤ 65535) :
    decodePairs offsets.length (bytes offsets) = .ok offsets := by
  induction offsets with
  | nil => rfl
  | cons offset rest ih =>
    have low_here := low offset List.mem_cons_self
    have rest_low : ∀ offset ∈ rest, offset ≤ 65535 := by
      intro offset member
      exact low offset (List.mem_cons_of_mem _ member)
    have number : ofBigEndian (bigEndian entryLength offset) = offset := by
      rw [ofBigEndian_bigEndian, entryLength]
      omega
    have pair : bytes (offset :: rest) =
        UInt8.ofNat (offset / 256) :: UInt8.ofNat offset :: bytes rest := rfl
    rw [List.length_cons, pair, decodePairs, ih rest_low]
    exact congrArg (fun number => Except.ok (number :: rest)) number

/-- Offsets that are read are as many as were asked for, take two bytes each, and are written as the
bytes that they were read from. -/
theorem decodePairs_ok {count : Nat} {source : Bytes} {offsets : List Nat}
    (decoded : decodePairs count source = .ok offsets) :
    offsets.length = count ∧ (∀ offset ∈ offsets, offset ≤ 65535) ∧
      bytes offsets <+: source := by
  induction count, source using decodePairs.induct generalizing offsets with
  | case1 source =>
    cases decoded
    exact ⟨rfl, nofun, List.nil_prefix⟩
  | case2 count high low rest ih =>
    rw [decodePairs] at decoded
    obtain ⟨others, later, decoded⟩ := except_bind_ok decoded
    cases decoded
    obtain ⟨few, small, starts⟩ := ih later
    have here : ofBigEndian [high, low] < 256 ^ 2 := ofBigEndian_lt [high, low]
    have pair : bigEndian entryLength (ofBigEndian [high, low]) = [high, low] :=
      bigEndian_ofBigEndian [high, low]
    refine ⟨congrArg (· + 1) few, List.forall_mem_cons.mpr ⟨by omega, small⟩, ?_⟩
    rw [bytes, List.flatMap_cons, pair]
    exact (List.prefix_append_right_inj [high, low]).mpr starts
  | case3 count source short =>
    rw [decodePairs] at decoded
    · cases decoded
    · exact short

theorem decode_of_contains {offsets : List Nat} (low : ∀ offset ∈ offsets, offset ≤ 65535)
    (contains : page.Contains headerLength (bytes offsets)) :
    decode page offsets.length = .ok offsets := by
  have slice := contains.slice
  rw [length_bytes] at slice
  rw [decode, slice, decodePairs_bytes low]

end OffsetTable

/-! ## The rows -/

theorem Index.Standard.pageSize_lt {index : Index} (standard : index.Standard) :
    index.pageSize < addressLimit := by
  have limit : 65536 < addressLimit := by decide
  exact Nat.lt_of_le_of_lt standard.pageSize_le limit

/-- A buffer once rows are written over it, each at its offset. -/
def RowEntry.overlay (form : RowForm) : List RowEntry → Buffer → Buffer
  | [], page => page
  | entry :: rest, page => overlay form rest (page.overwrite entry.offset (entry.row.bytes form))

namespace RowEntry

variable {form : RowForm} {top : Nat} {entries : List RowEntry} {entry : RowEntry}

@[simp]
theorem size_overlay : (overlay form entries page).size = page.size := by
  induction entries generalizing page with
  | nil => rfl
  | cons entry rest ih => rw [overlay, ih, Buffer.size_overwrite]

/-- What stands below or above stacked rows stays when they are written. -/
theorem contains_overlay (stacked : Stacked (fun row => (row.bytes form).length) top entries)
    {offset : Nat} {bytes : Bytes} (contains : page.Contains offset bytes)
    (apart : offset + bytes.length ≤ lowest top entries ∨ top ≤ offset) :
    (overlay form entries page).Contains offset bytes := by
  induction entries generalizing page top with
  | nil => exact contains
  | cons entry rest ih =>
    have below : entry.offset + (entry.row.bytes form).length ≤ top := stacked.1
    have low := stacked.2.lowest_le
    simp only [lowest] at apart
    exact ih stacked.2 (contains.overwrite (by omega)) (by omega)

/-- Stacked rows all stand in the buffer they are written to. -/
theorem overlay_contains (stacked : Stacked (fun row => (row.bytes form).length) top entries)
    (inside : top ≤ page.size) (member : entry ∈ entries) :
    (overlay form entries page).Contains entry.offset (entry.row.bytes form) := by
  -- A row is written over what is there, and the rows after it all go below it.
  induction entries generalizing page top with
  | nil => cases member
  | cons first rest ih =>
    have below : first.offset + (first.row.bytes form).length ≤ top := stacked.1
    rcases List.mem_cons.mp member with rfl | member
    · exact contains_overlay stacked.2 (Buffer.contains_overwrite page (by omega))
        (.inr (Nat.le_refl _))
    · exact ih stacked.2 (by rw [Buffer.size_overwrite]; omega) member

end RowEntry

namespace Leaf

variable {index : Index} {leaf : Leaf} {form : RowForm} {top : Nat} {entries : List RowEntry}

theorem putRows_apply (stacked : Stacked (fun row => (row.bytes form).length) top entries)
    (inside : top ≤ page.size) (small : page.size < addressLimit) :
    (putRows form (entries.map RowEntry.slot)).apply page =
      (.ok (), overlay form entries page) := by
  induction entries generalizing page top with
  | nil => rfl
  | cons entry rest ih =>
    have below : entry.offset + (entry.row.bytes form).length ≤ top := stacked.1
    have fits : entry.offset + (entry.row.bytes form).length ≤ page.size := by omega
    simp only [List.map_cons, RowEntry.slot, putRows, Edit.apply_bind,
      RowFormat.put_apply fits small]
    exact ih stacked.2 (by rw [Buffer.size_overwrite]; omega) (by rwa [Buffer.size_overwrite])

def header (index : Index) (leaf : Leaf) (entries : List RowEntry) : Header :=
  ⟨leaf.parent, leaf.form, index.table, UInt16.ofNat entries.length⟩

/-- The image of a leaf with these entries. -/
def rendering (index : Index) (leaf : Leaf) (entries : List RowEntry) : Buffer :=
  overlay leaf.form entries ((Buffer.zeros index.pageSize).overwrite 0
    ((leaf.header index entries).bytes ++ OffsetTable.bytes (entries.map RowEntry.offset)))

/-- The leaf as it is read from that image. -/
def encoded (index : Index) (leaf : Leaf) (entries : List RowEntry) : Leaf :=
  ⟨leaf.id, leaf.parent, leaf.form, entries.map fun entry => ⟨entry.offset, none⟩, true,
    leaf.rendering index entries⟩

@[simp]
theorem size_rendering : (leaf.rendering index entries).size = index.pageSize := by
  simp [rendering, Buffer.zeros]

namespace Lays

variable (lays : leaf.Lays index entries)

include lays

/-- The header and the offset table end where the last row starts, or below. -/
theorem start_le : headerLength + entryLength * entries.length ≤ lowest index.pageSize entries := by
  rw [← lays.shows.start]
  exact lays.clear

variable (standard : index.Standard)

include standard

theorem stacked_bytes :
    Stacked (fun row => (row.bytes leaf.form).length) index.pageSize entries := by
  obtain ⟨resolve, same⟩ := standard.format
  have stacked := lays.stacked
  rw [same] at stacked
  rw [funext (RowFormat.length_bytes resolve leaf.form)]
  exact stacked

theorem length_le : entries.length ≤ 65535 := by
  have start := lays.start_le
  have low := lays.stacked.lowest_le
  have page := standard.pageSize_le
  simp only [entryLength] at start
  omega

theorem offset_le : ∀ offset ∈ entries.map RowEntry.offset, offset ≤ 65535 := by
  refine List.forall_mem_map.mpr ?_
  intro entry member
  have inside := lays.stacked.offset_le member
  have filled := standard.le_size leaf.form entry.row
  have page := standard.pageSize_le
  omega

theorem count_toNat : (leaf.header index entries).count.toNat = entries.length := by
  have short := lays.length_le standard
  rw [header, UInt16.toNat_ofNat']
  omega

theorem put_apply :
    ((leaf.holding entries).put index).apply (.zeros index.pageSize) =
      (.ok (), leaf.rendering index entries) := by
  -- Header and table are written as one, from the front; the rows all go past their end.
  have small := standard.pageSize_lt
  have start := lays.start_le
  have low := lays.stacked.lowest_le
  have stacked := lays.stacked_bytes standard
  have size : (Buffer.zeros index.pageSize).size = index.pageSize := Array.size_replicate
  have table : OffsetTable.entryOffset 0 + entryLength * (entries.map RowEntry.offset).length ≤
      index.pageSize := by
    rw [List.length_map, OffsetTable.entryOffset]
    omega
  simp only [put, Edit.apply_bind, count_holding, offsets_holding, slots_holding, parent_holding,
    form_holding]
  rw [show (⟨leaf.parent, leaf.form, index.table, UInt16.ofNat entries.length⟩ : Header) =
      leaf.header index entries from rfl,
    Header.put_apply _ (by rw [size]; omega) (by rwa [size])]
  simp only [OffsetTable.put]
  rw [OffsetTable.putFrom_apply (lays.offset_le standard) (by rwa [Buffer.size_overwrite, size])
      (by rwa [Buffer.size_overwrite, size]),
    Buffer.overwrite_overwrite _ (by rw [Header.length_bytes, Nat.zero_add]; rfl)]
  simp only
  exact putRows_apply stacked (Nat.le_of_eq (by rw [Buffer.size_overwrite, size]))
    (by rwa [Buffer.size_overwrite, size])

omit lays in
/-- The offsets of stacked rows pass the check on reading. -/
theorem checkOffsets_eq {start stop : Nat}
    (stacked : Stacked (index.format.size leaf.form) top entries)
    (clear : start ≤ lowest top entries) (under : top ≤ stop) :
    checkOffsets start stop top (entries.map RowEntry.offset) = .ok () := by
  induction entries generalizing top with
  | nil => rfl
  | cons entry rest ih =>
    have below := stacked.1
    have low := stacked.2.lowest_le
    have filled := standard.le_size leaf.form entry.row
    simp only [lowest] at clear
    rw [List.map_cons, checkOffsets, if_neg (by omega), if_neg (by omega)]
    exact ih stacked.2 clear (by omega)

/-- The header and the offset table stand in the image. -/
theorem rendering_contains : (leaf.rendering index entries).Contains 0
    ((leaf.header index entries).bytes ++ OffsetTable.bytes (entries.map RowEntry.offset)) := by
  have start := lays.start_le
  have low := lays.stacked.lowest_le
  have length : ((leaf.header index entries).bytes ++
      OffsetTable.bytes (entries.map RowEntry.offset)).length =
        headerLength + entryLength * entries.length := by
    rw [List.length_append, Header.length_bytes, OffsetTable.length_bytes, List.length_map]
  refine contains_overlay (lays.stacked_bytes standard) (Buffer.contains_overwrite _ ?_) ?_
  · rw [length, Buffer.zeros, Array.size_replicate]
    omega
  · rw [length]
    omega

theorem rendering_contains_row {entry : RowEntry} (member : entry ∈ entries) :
    (leaf.rendering index entries).Contains entry.offset (entry.row.bytes leaf.form) :=
  overlay_contains (lays.stacked_bytes standard)
    (Nat.le_of_eq (by rw [Buffer.size_overwrite, Buffer.zeros, Array.size_replicate])) member

theorem offsetsEnd_header : (leaf.header index entries).offsetsEnd =
    headerLength + entryLength * entries.length := by
  rw [Header.offsetsEnd, lays.count_toNat standard]

theorem decode_rendering (unreserved : leaf.parent ≠ some .reserved) :
    Header.decode (leaf.rendering index entries) = .ok (leaf.header index entries) := by
  have start := lays.start_le
  have low := lays.stacked.lowest_le
  obtain ⟨first, _⟩ := Buffer.contains_append.mp (lays.rendering_contains standard)
  refine Header.decode_of_contains _ first unreserved ?_ ?_
  · rw [lays.offsetsEnd_header standard, size_rendering]
    omega
  · rw [size_rendering]
    exact standard.pageSize_lt

/-- The image is read as the leaf that was written, with every row encoded. -/
theorem ofImage_rendering (unreserved : leaf.parent ≠ some .reserved) :
    ofImage index leaf.id (leaf.rendering index entries) = .ok (leaf.encoded index entries) := by
  obtain ⟨_, second⟩ := Buffer.contains_append.mp (lays.rendering_contains standard)
  rw [Nat.zero_add, Header.length_bytes] at second
  have read := OffsetTable.decode_of_contains (lays.offset_le standard) second
  rw [List.length_map] at read
  have checked : checkOffsets (leaf.header index entries).offsetsEnd index.pageSize index.pageSize
      (entries.map RowEntry.offset) = .ok () := by
    rw [lays.offsetsEnd_header standard]
    exact checkOffsets_eq standard lays.stacked lays.start_le (Nat.le_refl _)
  rw [ofImage, if_neg (by simp), lays.decode_rendering standard unreserved]
  simp only [bind, Except.bind, lays.count_toNat standard, read, size_rendering, checked]
  rw [if_neg (by simp [header])]
  simp [encoded, header, pure, Except.pure]

/-- What a leaf is read back as shows what was written. -/
theorem shows_encoded
    (resolves : leaf.form = .positionOnly →
      ∀ entry ∈ entries, index.format.resolve entry.row.pos = .ok entry.row) :
    (leaf.encoded index entries).Shows index entries := by
  have count : (leaf.encoded index entries).start =
      headerLength + entryLength * entries.length := by
    rw [start, Leaf.count, encoded, List.length_map]
  have decoded : ∀ entry ∈ entries,
      (leaf.encoded index entries).decodeAt index entry.offset = .ok entry.row := by
    intro entry member
    have above := Nat.le_trans lays.start_le (lays.stacked.lowest_le_offset member)
    have inside := (lays.stacked_bytes standard).offset_le member
    have filled := standard.le_size leaf.form entry.row
    have below := lays.stacked.offset_le member
    have size : (leaf.encoded index entries).image.size = index.pageSize := size_rendering
    rw [decodeAt, count, if_neg (by rw [size]; omega)]
    exact RowFormat.read_of_contains (lays.rendering_contains_row standard member)
      (by rw [size]; exact inside) (by rw [size]; exact standard.pageSize_lt)
      fun positions => resolves positions entry member
  refine List.forall₂_map_left_iff.mpr (List.forall₂_same.mpr ?_)
  intro entry member
  exact ⟨rfl, .inr ⟨rfl, decoded entry member⟩⟩

end Lays

end Leaf

end SlottedLeaf
