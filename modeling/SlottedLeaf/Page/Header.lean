import SlottedLeaf.Bytes.Field
import SlottedLeaf.Page.Kind

/-!
# The header of a leaf page

The header takes the first eleven bytes of a page: the parent in four bytes, the type byte, the
table in four bytes and the count of slots in two. The offset table follows it, two bytes to a
slot.
-/

namespace SlottedLeaf

/-- The length of the header, and the place of the offset table. -/
def headerLength : Nat := 11

def entryLength : Nat := 2

/-- The header of a leaf page. -/
structure Header where
  parent : Option PageId
  form : RowForm
  table : TableId
  count : UInt16
deriving DecidableEq, Repr

namespace Header

def parentOffset : Nat := 0

def typeOffset : Nat := 4

def tableOffset : Nat := 5

def countOffset : Nat := 9

/-- The end of the offset table of a page with this header. -/
def offsetsEnd (header : Header) : Nat := headerLength + entryLength * header.count.toNat

/-- Reads the header of a leaf page. The offset table it announces must fit the page. -/
def decode (page : Buffer) : Except Fault Header := do
  if page.size < headerLength then
    throw (.corruption .headerCut)
  let type := UInt8.ofNat (← readField 1 page typeOffset)
  if (← PageKind.ofTypeByte type) ≠ .leaf then
    throw (.corruption .notALeaf)
  let header : Header := {
    parent := PageId.ofParentField (UInt32.ofNat (← readField 4 page parentOffset))
    form := RowForm.ofTypeByte type
    table := ⟨UInt32.ofNat (← readField 4 page tableOffset)⟩
    count := UInt16.ofNat (← readField 2 page countOffset)
  }
  if page.size < header.offsetsEnd then
    throw (.corruption .offsetTableCut)
  return header

def put (header : Header) : Edit Unit := do
  Edit.field 4 parentOffset (PageId.toParentField header.parent).toNat
  if (← get).size ≤ typeOffset then
    throw (.invalid .headerDoesNotFit)
  Edit.field 1 typeOffset (typeByte .leaf header.form).toNat
  Edit.field 4 tableOffset header.table.number.toNat
  Edit.field 2 countOffset header.count.toNat

end Header

end SlottedLeaf
