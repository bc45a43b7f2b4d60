import SlottedLeaf.Proofs.Contents
import SlottedLeaf.Proofs.Numbers
import SlottedLeaf.Row.Format

/-!
# Rows in a buffer

`Row.bytes` is what a row is written as. It is as long as the format says, and read back it gives
the row, whatever stands after it. The tag of a key is read in whatever way it is written, as long
as its low 64 bits are right.
-/

namespace SlottedLeaf

/-- What a row is written as. -/
def Row.bytes (form : RowForm) (row : Row) : Bytes :=
  bigEndian positionLength row.pos.value.toNat ++ match form with
    | .positionOnly => []
    | .full => row.keyField

/-- The field is a number that is read as the tag of the row's key. -/
structure Row.TaggedBy (row : Row) (field : Bytes) : Prop where
  terminated : Varint.Terminated field
  short : field.length ≤ Varint.maxLength
  tag : Varint.value field % UInt64.size = row.keyTag

theorem Row.keyTag_le (row : Row) : row.keyTag ≤ row.keyBytes.length + 1 := by
  cases known : row.key <;> simp [Row.keyTag, Row.keyBytes, known]

theorem Row.length_bytes_pos (form : RowForm) (row : Row) : 0 < (row.bytes form).length := by
  simp only [Row.bytes, List.length_append, length_bigEndian]
  exact Nat.add_pos_left (by decide) _

/-- A key that fits a page has a tag that fits 64 bits. -/
theorem Row.keyTag_lt {row : Row} {page : Buffer} {offset : Nat}
    (inside : offset + (row.bytes .full).length ≤ page.size) (small : page.size < addressLimit) :
    row.keyTag < UInt64.size := by
  have bound := row.keyTag_le
  have filled := Varint.encodedLength_pos row.keyTag
  have limit : addressLimit = UInt64.size := rfl
  rw [Row.bytes, List.length_append, Row.keyField, List.length_append,
    Varint.length_encode] at inside
  omega

/-- The tag of a key is read as it is written, if its length fits 64 bits. -/
theorem Row.taggedBy_encode {row : Row} (small : row.keyTag < UInt64.size) :
    row.TaggedBy (Varint.encode row.keyTag) where
  terminated := Varint.terminated_encode row.keyTag
  short := by
    rw [Varint.length_encode]
    exact Varint.encodedLength_le (Nat.lt_trans small (by decide))
  tag := by rw [Varint.value_encode, Nat.mod_eq_of_lt small]

namespace RowFormat

variable {format : RowFormat} {form : RowForm} {row : Row} {page : Buffer} {offset : Nat}

/-- A row is written as many bytes as the format has for it. -/
theorem length_bytes (resolve : RowPos → Except Fault Row) (form : RowForm) (row : Row) :
    (row.bytes form).length = (standard resolve).size form row := by
  cases form with
  | positionOnly => simp [Row.bytes, size, standard]
  | full => simp [Row.bytes, size, Row.keyField, Varint.length_encode, Nat.add_assoc]

theorem put_apply (inside : offset + (row.bytes form).length ≤ page.size)
    (small : page.size < addressLimit) :
    (put form offset row).apply page = (.ok (), page.overwrite offset (row.bytes form)) := by
  have length := length_bigEndian positionLength row.pos.value.toNat
  cases form with
  | positionOnly =>
    simp only [Row.bytes, List.append_nil, length] at inside
    simp only [put, Edit.apply_bind, Edit.apply_field _ inside small, Row.bytes, List.append_nil]
    rfl
  | full =>
    simp only [Row.bytes, List.length_append, length] at inside
    have first : offset + positionLength ≤ page.size := by omega
    have second : offset + positionLength + row.keyField.length ≤
        (page.overwrite offset (bigEndian positionLength row.pos.value.toNat)).size := by
      rw [Buffer.size_overwrite]
      omega
    simp only [put, Edit.apply_bind, Edit.apply_field _ first small, if_pos]
    rw [Edit.apply_bytes second (by rwa [Buffer.size_overwrite]),
      Buffer.overwrite_overwrite page (by rw [length]), Row.bytes]

/-- A key that stands on a page after its tag is read, however the tag is written. -/
theorem readKey_of_contains {field : Bytes} (tagged : row.TaggedBy field)
    (contains : page.Contains offset (field ++ row.keyBytes)) (small : page.size < addressLimit) :
    readKey page offset = .ok row.key := by
  have filled := tagged.terminated.length_pos
  have inside := contains.le_size (by rw [List.length_append]; omega)
  rw [List.length_append] at inside
  obtain ⟨tag, keyed⟩ := Buffer.contains_append.mp contains
  obtain ⟨rest, slice⟩ := tag.slice_of_le tagged.short
  simp only [readKey, Varint.read, slice, tagged.terminated.scan_append tagged.short, Except.map,
    tagged.tag, List.length_append]
  cases known : row.key with
  | none => simp [Row.keyTag, known]
  | some key =>
    have bytes : row.keyBytes = key := by simp [Row.keyBytes, known]
    rw [bytes] at inside keyed
    rw [show row.keyTag = key.length + 1 by simp [Row.keyTag, known]]
    simp only [Nat.add_sub_cancel]
    rw [if_neg (by omega), if_neg (by omega), keyed.slice]

/-- Where a position stands, what is read is up to what follows it. -/
theorem read_of_position {pos : RowPos}
    (contains : page.Contains offset (bigEndian positionLength pos.value.toNat)) :
    format.read form page offset = match form with
      | .positionOnly => format.resolve pos
      | .full => (readKey page (offset + positionLength)).map (⟨·, pos⟩) := by
  have length := length_bigEndian positionLength pos.value.toNat
  have inside := contains.le_size (by rw [length]; decide)
  have slice := contains.slice
  rw [length] at inside slice
  have number : pos.value.toNat % 256 ^ positionLength = pos.value.toNat :=
    Nat.mod_eq_of_lt pos.value.toNat_lt
  have same : (⟨UInt64.ofNat (ofBigEndian (page.slice offset positionLength))⟩ : RowPos) = pos := by
    rw [slice, ofBigEndian_bigEndian, number, UInt64.ofNat_toNat]
  rw [read, if_neg (by omega), if_neg (by omega), same]
  cases form <;> rfl

/-- A row that stands on a page is read. -/
theorem read_of_contains (contains : page.Contains offset (row.bytes form))
    (inside : offset + (row.bytes form).length ≤ page.size) (small : page.size < addressLimit)
    (resolves : form = .positionOnly → format.resolve row.pos = .ok row) :
    format.read form page offset = .ok row := by
  obtain ⟨first, second⟩ := Buffer.contains_append.mp contains
  rw [length_bigEndian] at second
  rw [read_of_position first]
  cases form with
  | positionOnly => exact resolves rfl
  | full =>
    have tagged := Row.taggedBy_encode (Row.keyTag_lt inside small)
    simp only [readKey_of_contains tagged second small]
    rfl

end RowFormat

end SlottedLeaf
