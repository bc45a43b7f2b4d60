import SlottedLeaf.Proofs.Encodings

/-!
# Writing rows where they have room

A row is written where it has room and nowhere else, and then changes its own bytes and no others.
It is read from them whatever stands around them. A row that was read has room in the place it was
read from, since it is written with the shortest tag: however long the one on the page is, the row
goes over it without reaching its neighbour.
-/

namespace SlottedLeaf

namespace Buffer

/-- One buffer is as long as another, and differs from it in these bytes at most. -/
structure ChangesOnly (before after : Buffer) (offset length : Nat) : Prop where
  size : after.size = before.size
  elsewhere : ∀ i, i < offset ∨ offset + length ≤ i → after[i]? = before[i]?

/-- Two buffers have the same bytes in this range. -/
def AgreeOn (buffer other : Buffer) (offset length : Nat) : Prop :=
  ∀ i, offset ≤ i → i < offset + length → buffer[i]? = other[i]?

theorem changesOnly_overwrite (buffer : Buffer) (offset : Nat) (source : Bytes) :
    buffer.ChangesOnly (buffer.overwrite offset source) offset source.length where
  size := size_overwrite buffer offset source
  elsewhere i outside := by
    rw [getElem?_overwrite, if_neg (by omega)]

end Buffer

/-- Bytes that do not fit are refused, and the buffer is left as it was. -/
theorem Edit.apply_bytes_error {buffer : Buffer} {offset : Nat} {source : Bytes}
    (past : buffer.size < offset + source.length) :
    ∃ cause, (bytes offset source).apply buffer = (.error (.invalid cause), buffer) := by
  rw [apply_bytes_eq]
  by_cases far : addressLimit ≤ offset + source.length
  · exact ⟨_, if_pos far⟩
  · rw [if_neg far, if_pos past]
    exact ⟨_, rfl⟩

namespace RowFormat

variable {format : RowFormat} {form : RowForm} {row : Row} {page : Buffer} {offset : Nat}

/-- A row that has room is written, and stands in its place then. -/
theorem put_ok (resolve : RowPos → Except Fault Row)
    (inside : offset + (standard resolve).size form row ≤ page.size)
    (small : page.size < addressLimit) :
    ∃ written, (put form offset row).apply page = (.ok (), written) ∧
      page.ChangesOnly written offset ((standard resolve).size form row) ∧
      written.Contains offset (row.bytes form) := by
  rw [← length_bytes resolve] at inside ⊢
  exact ⟨_, put_apply inside small, page.changesOnly_overwrite offset (row.bytes form),
    Buffer.contains_overwrite page inside⟩

/-- A row that has no room is refused. Its position may be written all the same. -/
theorem put_error (past : page.size < offset + (row.bytes form).length)
    (small : page.size < addressLimit) :
    ∃ cause, ((put form offset row).apply page).1 = .error (.invalid cause) := by
  have length := length_bigEndian positionLength row.pos.value.toNat
  rw [put, Edit.apply_bind]
  by_cases cut : page.size < offset + positionLength
  · obtain ⟨cause, refused⟩ : ∃ cause,
        (Edit.field positionLength offset row.pos.value.toNat).apply page =
          (.error (.invalid cause), page) :=
      Edit.apply_bytes_error (by rwa [length])
    rw [refused]
    exact ⟨cause, rfl⟩
  · rw [Edit.apply_field _ (Nat.le_of_not_lt cut) small]
    cases form with
    | positionOnly =>
      rw [Row.bytes, List.append_nil, length] at past
      exact absurd past cut
    | full =>
      rw [Row.bytes, List.length_append, length, ← Nat.add_assoc] at past
      have sized :=
        Buffer.size_overwrite page offset (bigEndian positionLength row.pos.value.toNat)
      obtain ⟨cause, refused⟩ := Edit.apply_bytes_error (sized.trans_lt past)
      simp only [if_pos, refused]
      exact ⟨cause, rfl⟩

/-- A row is written exactly where it has room. Only its own bytes are changed, and a buffer that
has these bytes, whatever else it has, is read as the row; of a buffer that ends before they do no
full row is made. -/
theorem write_read (resolve : RowPos → Except Fault Row) (form : RowForm) (row : Row)
    (small : page.size < addressLimit) (offset : Nat) :
    let format := standard resolve
    let length := format.size form row
    let result := (put form offset row).apply page
    (offset + length ≤ page.size →
      result.1 = .ok () ∧ page.ChangesOnly result.2 offset length ∧
      ∀ other : Buffer, other.size < addressLimit → other.AgreeOn result.2 offset length →
        ((form = .positionOnly → resolve row.pos = .ok row) →
          format.read form other offset = .ok row) ∧
        (form = .full → ∀ shorter < offset + length, ∃ cause,
          format.read .full (other.take shorter) offset = .error (.corruption cause))) ∧
    (page.size < offset + length → ∃ fault, result.1 = .error fault) := by
  intro format length result
  have measured : (row.bytes form).length = length := length_bytes resolve form row
  refine ⟨?_, ?_⟩
  · intro inside
    obtain ⟨written, put, changes, stands⟩ := put_ok resolve inside small
    rw [show result = (.ok (), written) from put]
    refine ⟨rfl, changes, ?_⟩
    intro other addressed agree
    rw [← measured] at agree ⊢
    have there : other.Contains offset (row.bytes form) := stands.congr agree
    have room := there.le_size (row.length_bytes_pos form)
    refine ⟨fun resolves => read_of_contains there room addressed resolves, ?_⟩
    rintro rfl shorter cut
    exact read_take_error addressed (Row.taggedBy_encode (Row.keyTag_lt room addressed)) there cut
  · intro past
    rw [← measured] at past
    obtain ⟨cause, refused⟩ := put_error past small
    exact ⟨_, refused⟩

/-- A row whose tag takes two bytes, with other bytes on both sides of it; and in a place that is
too near the end of the page. -/
theorem write_read_between :
    let page : Buffer := .replicate 150 0xFF
    let row : Row := ⟨some (.replicate 127 97), ⟨7⟩⟩
    page.size < addressLimit ∧ 5 + untabled.size .full row = 142 ∧
      untabled.read .full ((put .full 5 row).apply page).2 5 = .ok row ∧
      ∃ fault, ((put .full 14 row).apply page).1 = .error fault := by
  intro page row
  have small : page.size < addressLimit := by decide +kernel
  have length : untabled.size .full row = 137 := by decide +kernel
  have before : 5 + untabled.size .full row ≤ page.size := by decide +kernel
  have past : page.size < 14 + untabled.size .full row := by decide +kernel
  obtain ⟨-, changes, reads⟩ := (write_read untabled.resolve .full row small 5).1 before
  obtain ⟨fault, refused⟩ := (write_read untabled.resolve .full row small 14).2 past
  refine ⟨small, by rw [length], ?_, fault, refused⟩
  exact (reads _ (by rw [changes.size]; exact small) fun _ _ _ => rfl).1 nofun

/-! ## Rows that were read -/

/-- A full row that is found on a page has room where it was found. It takes no more bytes there
than were read, its own bytes are all that writing it changes, and it is found there again. -/
theorem rewrite_in_place (resolve : RowPos → Except Fault Row) (small : page.size < addressLimit)
    (found : (standard resolve).read .full page offset = .ok row) :
    let format := standard resolve
    let length := format.size .full row
    offset + length ≤ page.size ∧
      (∃ consumed, format.Consumes page offset row consumed ∧ length ≤ consumed) ∧
      ∃ written, (put .full offset row).apply page = (.ok (), written) ∧
        page.ChangesOnly written offset length ∧ format.read .full written offset = .ok row := by
  intro format length
  obtain ⟨field, tagged, stands⟩ := (read_full_iff small).mp found
  have measured : (row.bytesWith field).length =
      positionLength + field.length + row.keyBytes.length := row.length_bytesWith field
  have consumes : format.Consumes page offset row (row.bytesWith field).length :=
    consumes_of_contains small tagged stands
  -- The reader keeps the low bits of what the tag spells, so the row's own tag spells no more.
  have most : row.keyTag ≤ Varint.value field := tagged.tag ▸ Nat.mod_le _ _
  have shorter : length ≤ (row.bytesWith field).length := by
    have encoded := Varint.encodedLength_le_length tagged.terminated.length_pos most
    rw [measured]
    show positionLength + Varint.encodedLength row.keyTag + row.keyBytes.length ≤ _
    omega
  have room : offset + length ≤ page.size := by
    have inside := stands.le_size (by rw [measured, positionLength]; omega)
    omega
  refine ⟨room, ⟨_, consumes, shorter⟩, ?_⟩
  obtain ⟨written, put, changes, there⟩ := put_ok resolve room small
  refine ⟨written, put, changes, ?_⟩
  refine read_of_contains there ?_ (by rwa [changes.size]) (by rintro ⟨⟩)
  rw [length_bytes resolve, changes.size]
  exact room

/-- A row whose tag has ten bytes is written with a tag of one. -/
theorem rewrite_in_place_padded :
    let page : Buffer := ([0, 0, 0, 0, 0, 0, 0, 1] ++ paddedTwo ++ [97, 98]).toArray
    let row : Row := ⟨some [97], ⟨1⟩⟩
    untabled.read .full page 0 = .ok row ∧ untabled.size .full row = 10 ∧
      ∃ written, (put .full 0 row).apply page = (.ok (), written) ∧
        untabled.read .full written 0 = .ok row := by
  intro page row
  have small : page.size < addressLimit := by decide
  have found : untabled.read .full page 0 = .ok row := by decide +kernel
  have length : untabled.size .full row = 10 := by decide +kernel
  obtain ⟨-, -, written, put, -, again⟩ := rewrite_in_place _ small found
  exact ⟨found, length, written, put, again⟩

end RowFormat

end SlottedLeaf
