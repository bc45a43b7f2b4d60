import SlottedLeaf.Bytes.Field
import SlottedLeaf.Bytes.Varint
import SlottedLeaf.Page.Kind

/-!
# Rows as bytes

A full row is its position in eight bytes, a key tag, and the key. The tag is a variable-length
number: zero for NULL, and one more than the key's length otherwise. A position-only row is the
position alone; the table that the index belongs to resolves it.
-/

namespace SlottedLeaf

def positionLength : Nat := 8

/-- How an index measures, writes and reads its rows. -/
structure RowFormat where
  /-- The room kept for a position-only row. -/
  positionSize : Nat
  /-- Whether a unique index lets NULL keys repeat. -/
  nullsRepeat : Bool
  /-- The table row at a position. -/
  resolve : RowPos → Except Fault Row

namespace Row

/-- The tag written before a row's key. -/
def keyTag (row : Row) : Nat :=
  match row.key with
  | none => 0
  | some key => key.length + 1

def keyBytes (row : Row) : Bytes := row.key.getD []

def keyField (row : Row) : Bytes := Varint.encode row.keyTag ++ row.keyBytes

end Row

namespace RowFormat

/-- The usual format: a position-only row takes the length of a position, and NULL keys repeat. -/
def standard (resolve : RowPos → Except Fault Row) : RowFormat := ⟨positionLength, true, resolve⟩

/-- A format that keeps `positionSize` bytes for a position-only row and lets no key of a unique
index repeat. -/
def reserving (positionSize : Nat) (resolve : RowPos → Except Fault Row) : RowFormat :=
  ⟨positionSize, false, resolve⟩

def size (format : RowFormat) (form : RowForm) (row : Row) : Nat :=
  match form with
  | .positionOnly => format.positionSize
  | .full => positionLength + Varint.encodedLength row.keyTag + row.keyBytes.length

/-- Whether a unique index lets the row's key repeat. -/
def mayRepeat (format : RowFormat) (row : Row) : Bool := format.nullsRepeat && row.key.isNone

def put (form : RowForm) (offset : Nat) (row : Row) : Edit Unit := do
  Edit.field positionLength offset row.pos.value.toNat
  if form = .full then
    Edit.bytes (offset + positionLength) row.keyField

def readKey (page : Buffer) (offset : Nat) : Except Fault (Option Bytes) :=
  let tag := page.slice offset Varint.maxLength
  match Varint.read tag with
  | .error .cut => .error (.corruption .rowKeyLengthCut)
  | .error .tooLong => .error (.corruption .rowKeyLengthTooLong)
  | .ok (0, _) => .ok none
  | .ok (length + 1, rest) =>
    let start := offset + (tag.length - rest.length)
    if addressLimit ≤ start + length then .error (.corruption .rowLengthOverflow)
    else if page.size < start + length then .error (.corruption .rowCut)
    else .ok (some (page.slice start length))

def read (format : RowFormat) (form : RowForm) (page : Buffer) (offset : Nat) :
    Except Fault Row :=
  if page.size < offset then .error (.corruption .rowOffsetPastEnd)
  else if page.size < offset + positionLength then .error (.corruption .rowPositionCut)
  else
    let pos : RowPos := ⟨UInt64.ofNat (ofBigEndian (page.slice offset positionLength))⟩
    match form with
    | .positionOnly => format.resolve pos
    | .full => do
      let key ← readKey page (offset + positionLength)
      return ⟨key, pos⟩

end RowFormat

end SlottedLeaf
