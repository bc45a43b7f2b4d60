import SlottedLeaf.Index
import SlottedLeaf.Page.OffsetTable

/-!
# Leaf pages

A leaf is the working copy of one leaf page. Its slots say where each row starts and, once decoded,
what the row is; a row that was never looked at is still in the image alone. Every change decodes
all rows first, because it moves offsets away from the bytes in the image.

`LeafCall` is a call on a leaf. It may change the leaf and the engine, and a call that fails keeps
what it did up to the failure.
-/

namespace SlottedLeaf

/-- A slot: where its row starts on the page, and the row once it has been decoded. -/
structure Slot where
  offset : Nat
  row : Option Row
deriving DecidableEq, Repr

/-- The working copy of a leaf page. -/
structure Leaf where
  id : PageId
  /-- The node above; none for the root. -/
  parent : Option PageId
  form : RowForm
  slots : List Slot
  /-- Whether the image shows the leaf as it is. -/
  written : Bool
  /-- The page as last read or written. -/
  image : Buffer
deriving DecidableEq, Repr

/-- A call on a leaf. -/
abbrev LeafCall (α : Type) := ExceptT Fault (StateT Leaf (StateM Engine)) α

instance (priority := low) : MonadLift EngineCall LeafCall where
  monadLift call := ExceptT.mk (StateT.lift call.run)

namespace LeafCall

/-- The outcome of a call, the leaf after it and the engine after it. -/
def on {α : Type} (call : LeafCall α) (leaf : Leaf) (engine : Engine) :
    (Except Fault α × Leaf) × Engine :=
  (call.run.run leaf).run engine

/-- Runs a call on another leaf, and gives that leaf back. If the call fails, so does this one. -/
def onOther {α : Type} (call : LeafCall α) (other : Leaf) : LeafCall (α × Leaf) :=
  ExceptT.mk do
    let (outcome, other) ← StateT.lift (call.run.run other)
    return outcome.map (·, other)

end LeafCall

namespace Leaf

def create (index : Index) (id : PageId) (parent : Option PageId) (form : RowForm) : Leaf :=
  ⟨id, parent, form, [], false, .zeros index.pageSize⟩

def isRoot (leaf : Leaf) : Bool := leaf.parent.isNone

def count (leaf : Leaf) : Nat := leaf.slots.length

/-- Whether the leaf changed since it was last read or written. -/
def isDirty (leaf : Leaf) : Bool := !leaf.written

def offsets (leaf : Leaf) : List Nat := leaf.slots.map Slot.offset

/-- The end of the header and the offset table. -/
def start (leaf : Leaf) : Nat := headerLength + entryLength * leaf.count

/-- Where the last row starts; the end of the page if there is none. -/
def lastOffset (index : Index) (leaf : Leaf) : Nat :=
  OffsetTable.ceiling leaf.offsets index.pageSize leaf.count

/-- The unused bytes between the offset table and the rows. -/
def freeSpace (index : Index) (leaf : Leaf) : Nat := leaf.lastOffset index - leaf.start

/-- Whether there is room for a row of this length and its entry in the offset table. -/
def fits (index : Index) (leaf : Leaf) (length : Nat) : Bool :=
  leaf.start + entryLength + length ≤ leaf.lastOffset index

def text (index : Index) (leaf : Leaf) : String :=
  "page[" ++ toString leaf.id.number.toNat ++ "] b-tree leaf table:" ++
    toString index.table.number.toNat ++ " entries:" ++ toString leaf.count

/-- Decodes the row that starts at an offset of the image. -/
def decodeAt (index : Index) (leaf : Leaf) (offset : Nat) : Except Fault Row :=
  if offset < leaf.start ∨ leaf.image.size ≤ offset then
    .error (.corruption .offsetOutsideData)
  else index.format.read leaf.form leaf.image offset

/-- The row of a slot, decoded on first access. -/
def row (index : Index) (slot : Nat) : LeafCall Row := do
  let leaf ← get
  match leaf.slots[slot]? with
  | none => throw (.invalid .slotOutOfRange)
  | some ⟨_, some row⟩ => return row
  | some ⟨offset, none⟩ =>
    let row ← MonadExcept.ofExcept (leaf.decodeAt index offset)
    set { leaf with slots := leaf.slots.set slot ⟨offset, some row⟩ }
    Engine.count .rowsDecoded 1
    return row

/-- Decodes slots from the first on, up to one that does not decode. Gives the slots after it, the
number of rows decoded, and the failure if there is one. -/
def decodeSlots (decode : Nat → Except Fault Row) :
    List Slot → List Slot × Nat × Except Fault Unit
  | [] => ([], 0, .ok ())
  | ⟨offset, some row⟩ :: rest =>
    let (slots, decoded, outcome) := decodeSlots decode rest
    (⟨offset, some row⟩ :: slots, decoded, outcome)
  | ⟨offset, none⟩ :: rest =>
    match decode offset with
    | .error fault => (⟨offset, none⟩ :: rest, 0, .error fault)
    | .ok row =>
      let (slots, decoded, outcome) := decodeSlots decode rest
      (⟨offset, some row⟩ :: slots, decoded + 1, outcome)

def loadRows (index : Index) : LeafCall Unit := do
  let leaf ← get
  let (slots, decoded, outcome) := decodeSlots (leaf.decodeAt index) leaf.slots
  set { leaf with slots }
  Engine.count .rowsDecoded decoded
  MonadExcept.ofExcept outcome

def loadedRows (slots : List Slot) : Except Fault (List Row) :=
  slots.mapM fun slot => match slot.row with
    | some row => .ok row
    | none => .error (.internal .rowNotLoaded)

def rows (index : Index) : LeafCall (List Row) := do
  loadRows index
  MonadExcept.ofExcept (loadedRows (← get).slots)

def setParent (parent : Option PageId) : LeafCall Unit := do
  let leaf ← get
  if leaf.parent ≠ parent then
    set { leaf with parent, written := false }

/-- Checks slots from the first on: each row ends where the row before it starts, or below, and is
above it in the index's order. Gives where the last row starts. -/
def checkSlots (size : Row → Nat) : Nat → Option Row → List Slot → Except Fault Nat
  | ceiling, _, [] => .ok ceiling
  | _, _, ⟨_, none⟩ :: _ => .error (.internal .rowNotLoaded)
  | ceiling, previous, ⟨offset, some row⟩ :: rest =>
    if ceiling < offset + size row then .error (.internal .rowsOverlap)
    else if previous.any (fun previous => previous.compareRows row ≠ .lt) then
      .error (.internal .rowsOutOfOrder)
    else checkSlots size offset (some row) rest

/-- Checks the layout of the leaf: rows in order, apart from each other and from the offset
table. -/
def checkLayout (index : Index) (leaf : Leaf) : Except Fault Unit := do
  let lowest ← checkSlots (index.format.size leaf.form) index.pageSize none leaf.slots
  if lowest < leaf.start then
    throw (.internal .rowsOverlapTable)

/-- Checks the layout, if the index asks for it. -/
def checkInvariants (index : Index) (leaf : Leaf) : Except Fault Unit :=
  if index.options.checkInvariants then leaf.checkLayout index else .ok ()

end Leaf

end SlottedLeaf
