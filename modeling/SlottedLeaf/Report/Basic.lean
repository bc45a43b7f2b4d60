import SlottedLeaf.Page.OffsetTable
import SlottedLeaf.Store.File

/-!
# Page reports

A report shows the layout of one leaf page without reading its rows: the header, the free space, and
the raw bytes of each slot, which end where the slot before begins.
-/

namespace SlottedLeaf

/-- The place and the bytes of one slot. -/
structure SlotReport where
  offset : Nat
  bytes : Bytes
deriving DecidableEq, Repr

/-- The layout of one leaf page. -/
structure Report where
  page : PageId
  pageSize : Nat
  header : Header
  slots : List SlotReport
deriving DecidableEq, Repr

namespace Report

/-- The slots of an offset table in a page image, the first of which ends at `ceiling` and each
other where the one before it starts. A row may not reach into the table. -/
def slotsOf (image : Buffer) (header : Header) : Nat → List Nat → Except Fault (List SlotReport)
  | _, [] => .ok []
  | ceiling, offset :: rest => do
    let (start, stop) ← OffsetTable.between image.size offset ceiling
    if start < header.offsetsEnd then
      throw (.corruption .offsetInsideTable)
    return ⟨start, image.slice start (stop - start)⟩ :: (← slotsOf image header start rest)

def ofImage (page : PageId) (image : Buffer) : Except Fault Report := do
  let header ← Header.decode image
  let offsets ← OffsetTable.decode image header.count.toNat
  let slots ← slotsOf image header image.size offsets
  return ⟨page, image.size, header, slots⟩

/-- The report on a page of a file, and the content of the file afterwards: opening the file as a
page store gives a file without pages its first one. -/
def ofFile (pageSize : Nat) (page : PageId) (content : Bytes) : Except Fault Report × Bytes :=
  match FileStore.ofFile pageSize (.ofBytes content) with
  | .error fault => (.error fault, content)
  | .ok store => (store.read page >>= ofImage page, store.file.toBytes)

/-- Where the rows start: at the last slot, or at the end of a page without slots. -/
def rowsStart (report : Report) : Nat :=
  (report.slots.getLast?.map SlotReport.offset).getD report.pageSize

/-- The bytes between the offset table and the rows. -/
def freeSpace (report : Report) : Nat := report.rowsStart - report.header.offsetsEnd

end Report

end SlottedLeaf
