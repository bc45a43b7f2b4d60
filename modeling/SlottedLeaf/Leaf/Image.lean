import SlottedLeaf.Leaf.Basic

/-!
# Leaves and page images

Reading a page image checks the header and the offset table and leaves the rows encoded. Writing
renders the whole leaf over zeros, so nothing of a former image stays.
-/

namespace SlottedLeaf.Leaf

/-- Checks that offsets lie in `[start, stop)` and do not ascend from `ceiling` on. -/
def checkOffsets (start stop : Nat) : Nat → List Nat → Except Fault Unit
  | _, [] => .ok ()
  | ceiling, offset :: rest => do
    if offset < start ∨ stop ≤ offset then
      throw (.corruption .offsetOutsideData)
    if ceiling < offset then
      throw (.corruption .offsetsAscend)
    checkOffsets start stop offset rest

/-- The leaf that a page image shows, with every row still encoded. -/
def ofImage (index : Index) (id : PageId) (image : Buffer) : Except Fault Leaf := do
  if image.size ≠ index.pageSize then
    throw (.corruption .pageLength)
  let header ← Header.decode image
  if header.table ≠ index.table then
    throw (.tableMismatch id index.table header.table)
  let offsets ← OffsetTable.decode image header.count.toNat
  checkOffsets header.offsetsEnd image.size image.size offsets
  return ⟨id, header.parent, header.form, offsets.map (⟨·, none⟩), true, image⟩

def read (index : Index) (id : PageId) (image : Buffer) : EngineCall Leaf := do
  let leaf ← MonadExcept.ofExcept (ofImage index id image)
  Engine.count .pagesRead 1
  Engine.report (.leafRead id leaf.count leaf.form)
  return leaf

def load (index : Index) (id : PageId) : EngineCall Leaf := do
  read index id (← Engine.readPage id)

def putRows (form : RowForm) : List Slot → Edit Unit
  | [] => return
  | ⟨_, none⟩ :: _ => throw (.internal .rowNotLoaded)
  | ⟨offset, some row⟩ :: rest => do
    RowFormat.put form offset row
    putRows form rest

/-- Writes the header, the offset table and the rows of a leaf. -/
def put (index : Index) (leaf : Leaf) : Edit Unit := do
  let header : Header := ⟨leaf.parent, leaf.form, index.table, UInt16.ofNat leaf.count⟩
  header.put
  OffsetTable.put leaf.offsets
  putRows leaf.form leaf.slots

def render (index : Index) : LeafCall Unit := do
  loadRows index
  let leaf ← get
  if 65535 < leaf.count then
    throw (.internal .tooManyEntries)
  let (outcome, image) := (leaf.put index).apply (.zeros leaf.image.size)
  set { leaf with image }
  MonadExcept.ofExcept outcome

/-- Writes the leaf to the store, if it changed since it was last read or written. -/
def write (index : Index) : LeafCall Unit := do
  if (← get).isDirty then
    render index
    let leaf ← get
    Engine.writePage leaf.id leaf.image
    set { leaf with written := true }
    Engine.count .pagesWritten 1
    Engine.report (.leafWritten leaf.id leaf.count leaf.form)

/-- A new root leaf, allocated and written. -/
def createRoot (index : Index) : EngineCall Leaf := do
  let id ← Engine.allocatePage
  ExceptT.mk do
    let (outcome, leaf) ← (write index).run.run (create index id none .full)
    return outcome.map fun _ => leaf

end SlottedLeaf.Leaf
