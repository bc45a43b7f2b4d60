import SlottedLeaf.Proofs.Grammar
import SlottedLeaf.Proofs.PageImage
import SlottedLeaf.Proofs.Rewriting

/-!
# The head of a page, written and read

The header and the offset table each have bytes of their own. Writing either changes these bytes
alone, and reading it then gives it back; what was read is written as the very bytes it was read
from. Since neither looks at a byte, they are written in any order with one outcome.
-/

namespace SlottedLeaf

variable {page : Buffer}

/-! ## The header -/

namespace Header

/-- A page that is read as a header starts with its bytes. -/
theorem contains_of_decode {header : Header} (decoded : decode page = .ok header) :
    page.Contains 0 header.bytes := by
  obtain ⟨⟨type, table⟩, rfl⟩ := decode_ok_iff.mp decoded
  have stands {offset width : Nat} (inside : offset + width ≤ 11) :
      page.Contains offset (bigEndian width (page.number offset width)) := by
    rw [Buffer.bigEndian_number (by omega)]
    exact page.contains_slice offset width
  have kind := PageKind.ofTypeByte_ok_iff.mpr ((page.toNat_byte 4).symm ▸ type)
  simp only [bytes, spelled, PageId.toParentField_ofParentField, typeByte_ofTypeByte kind,
    Buffer.toNat_byte, Buffer.toNat_word, UInt16.toNat_ofNat_of_lt' (page.number_lt 9 2),
    Buffer.contains_append, length_bigEndian]
  exact ⟨stands (by decide), stands (by decide), stands (by decide), stands (by decide)⟩

variable {header : Header}

/-- A header is written wherever its offset table has room, over the first bytes alone, and is read
from the page then. -/
theorem put_ok (unreserved : header.parent ≠ some .reserved)
    (inside : header.offsetsEnd ≤ page.size) (small : page.size < addressLimit) :
    ∃ written, header.put.apply page = (.ok (), written) ∧
      page.ChangesOnly written 0 headerLength ∧ decode written = .ok header := by
  have room : headerLength ≤ page.size := Nat.le_trans (Nat.le_add_right ..) inside
  have sized := page.size_overwrite 0 header.bytes
  refine ⟨_, header.put_apply room small, ?_, ?_⟩
  · rw [← header.length_bytes]
    exact page.changesOnly_overwrite 0 header.bytes
  · refine header.decode_of_contains (page.contains_overwrite ?_) unreserved ?_ ?_
    · rwa [header.length_bytes, Nat.zero_add]
    · rwa [sized]
    · rwa [sized]

/-- The header of a page is written as it stands there. -/
theorem put_decoded (decoded : decode page = .ok header) (small : page.size < addressLimit) :
    header.put.apply page = (.ok (), page) := by
  have stands := contains_of_decode decoded
  have room : headerLength ≤ page.size := by
    rw [← header.length_bytes, ← Nat.zero_add header.bytes.length]
    exact stands.le_size (by rw [header.length_bytes]; decide)
  rw [header.put_apply room small, stands.overwrite_self]

end Header

/-! ## The offset table -/

namespace OffsetTable

variable {offsets : List Nat}

/-- Offsets of two bytes each are written wherever their table has room, over its bytes alone, and
are read from the page then. -/
theorem put_ok (low : ∀ offset ∈ offsets, offset ≤ 65535)
    (inside : headerLength + entryLength * offsets.length ≤ page.size)
    (small : page.size < addressLimit) :
    ∃ written, (put offsets).apply page = (.ok (), written) ∧
      page.ChangesOnly written headerLength (entryLength * offsets.length) ∧
      decode written offsets.length = .ok offsets := by
  refine ⟨_, putFrom_apply low inside small, ?_, ?_⟩
  · rw [← length_bytes]
    exact page.changesOnly_overwrite headerLength (bytes offsets)
  · exact decode_of_contains low (page.contains_overwrite (by rwa [length_bytes]))

/-- The offset table of a page is written as it stands there. -/
theorem put_decoded {count : Nat} (decoded : decode page count = .ok offsets)
    (small : page.size < addressLimit) : (put offsets).apply page = (.ok (), page) := by
  obtain ⟨few, low, starts⟩ := decodePairs_ok decoded
  have stands : page.Contains headerLength (bytes offsets) := by
    obtain ⟨rest, whole⟩ := starts
    have slice := page.contains_slice headerLength (entryLength * count)
    rw [← whole] at slice
    exact (Buffer.contains_append.mp slice).1
  cases offsets with
  | nil => rfl
  | cons offset rest =>
    have room : entryOffset 0 + entryLength * (offset :: rest).length ≤ page.size := by
      rw [← length_bytes]
      exact stands.le_size (by rw [length_bytes]; exact Nat.succ_pos _)
    rw [put, putFrom_apply low room small]
    exact congrArg (Prod.mk _) stands.overwrite_self

end OffsetTable

/-! ## Both -/

/-- The header and the offset table of a page are written and read each as if the other were not
there, on every page that has an address for each of its bytes. What is written is read and what was
read is written unchanged; each changes its own bytes alone; and the two are written in either
order, with the same outcomes and the same page. -/
theorem head_round_trips (small : page.size < addressLimit) :
    (∀ header : Header, header.parent ≠ some .reserved → header.offsetsEnd ≤ page.size →
      ∃ written, header.put.apply page = (.ok (), written) ∧
        page.ChangesOnly written 0 headerLength ∧ Header.decode written = .ok header) ∧
    (∀ header : Header, Header.decode page = .ok header →
      header.put.apply page = (.ok (), page)) ∧
    (∀ offsets : List Nat, (∀ offset ∈ offsets, offset ≤ 65535) →
      headerLength + entryLength * offsets.length ≤ page.size →
      ∃ written, (OffsetTable.put offsets).apply page = (.ok (), written) ∧
        page.ChangesOnly written headerLength (entryLength * offsets.length) ∧
        OffsetTable.decode written offsets.length = .ok offsets) ∧
    (∀ count offsets, OffsetTable.decode page count = .ok offsets →
      (OffsetTable.put offsets).apply page = (.ok (), page)) ∧
    ∀ (header : Header) (offsets : List Nat),
      let headed := header.put.apply page
      let tabled := (OffsetTable.put offsets).apply page
      ∃ both, header.put.apply tabled.2 = (headed.1, both) ∧
        (OffsetTable.put offsets).apply headed.2 = (tabled.1, both) := by
  refine ⟨?_, ?_, ?_, ?_, ?_⟩
  · intro header unreserved inside
    exact Header.put_ok unreserved inside small
  · intro header decoded
    exact Header.put_decoded decoded small
  · intro offsets low inside
    exact OffsetTable.put_ok low inside small
  · intro count offsets decoded
    exact OffsetTable.put_decoded decoded small
  · intro header offsets
    exact header.put_fills.comm (OffsetTable.putFrom_fills 0 offsets) (Nat.le_refl _) page

/-- A page that a table of two offsets fills but for two bytes, and a header of three slots and
three offsets that go over it. -/
theorem head_round_trips_over :
    let page : Buffer := #[0, 0, 0, 9, 132, 0, 0, 0, 7, 0, 2, 0, 16, 0, 15, 1, 2]
    let header : Header := ⟨none, .positionOnly, ⟨1⟩, 3⟩
    let old : Header := ⟨some ⟨9⟩, .full, ⟨7⟩, 2⟩
    page.size < addressLimit ∧
      (∃ written, header.put.apply page = (.ok (), written) ∧
        Header.decode written = .ok header) ∧
      old.put.apply page = (.ok (), page) ∧
      (∃ written, (OffsetTable.put [300, 65535, 0]).apply page = (.ok (), written) ∧
        OffsetTable.decode written 3 = .ok [300, 65535, 0]) ∧
      (OffsetTable.put [16, 15]).apply page = (.ok (), page) := by
  intro page header old
  have small : page.size < addressLimit := by decide
  obtain ⟨writes, rewrites, lists, relists, -⟩ := head_round_trips small
  obtain ⟨written, put, -, again⟩ := writes header (by decide) (by decide)
  obtain ⟨table, listed, -, offsets⟩ := lists [300, 65535, 0] (by decide) (by decide)
  exact ⟨small, ⟨written, put, again⟩, rewrites old (by decide +kernel), ⟨table, listed, offsets⟩,
    relists 2 [16, 15] (by decide +kernel)⟩

end SlottedLeaf
