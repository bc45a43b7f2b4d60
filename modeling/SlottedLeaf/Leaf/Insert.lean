import SlottedLeaf.Leaf.Search

/-!
# Inserting a row

A row that fits is put in its place, and the rows after it move down by its length. A row that does
not fit asks for a split, unless the leaf holds one row at most: then the leaf goes over to
position-only rows.
-/

namespace SlottedLeaf

/-- What became of a row to be inserted. -/
inductive Insertion where
  /-- It is on the leaf. -/
  | inserted
  /-- The leaf is full, and should be split at this slot. -/
  | splitAt (slot : Nat)
deriving DecidableEq, Repr

namespace Leaf

def lowered (length offset : Nat) : Except Fault Nat :=
  if offset < length then .error (.internal .offsetUnderflow) else .ok (offset - length)

/-- The slots with a row of this length put at `slot`; the rows from there on move down by its
length. -/
def insertSlot (pageSize slot length : Nat) (row : Row) (slots : List Slot) :
    Except Fault (List Slot) := do
  let moved ← (slots.drop slot).mapM fun other => do
    return { other with offset := ← lowered length other.offset }
  let offset ← lowered length (OffsetTable.ceiling (slots.map Slot.offset) pageSize slot)
  return slots.take slot ++ ⟨offset, some row⟩ :: moved

/-- The slots with every row packed from the end of the page, in the form of `size`. -/
def packSlots (size : Row → Nat) : Nat → List Slot → Except Fault (List Slot)
  | _, [] => .ok []
  | _, ⟨_, none⟩ :: _ => .error (.internal .rowNotLoaded)
  | ceiling, ⟨_, some row⟩ :: rest => do
    if ceiling < size row then
      throw (.internal .positionRowTooLarge)
    let offset := ceiling - size row
    return ⟨offset, some row⟩ :: (← packSlots size offset rest)

/-- Goes over to position-only rows, packed from the end of the page. -/
def compact (index : Index) : LeafCall Unit := do
  let former ← get
  modify fun leaf => { leaf with form := .positionOnly }
  let slots ← MonadExcept.ofExcept
    (packSlots (index.format.size .positionOnly) index.pageSize former.slots)
  modify fun leaf => { leaf with slots, written := false }
  if former.form = .full then
    Engine.count .compactions 1
    Engine.report (.leafCompacted former.id index.table former.count)

def place (index : Index) (slot : Nat) (row : Row) : LeafCall Unit := do
  let leaf ← get
  let length := index.format.size leaf.form row
  let slots ← MonadExcept.ofExcept (insertSlot index.pageSize slot length row leaf.slots)
  set { leaf with slots, written := false }
  MonadExcept.ofExcept ((← get).checkInvariants index)
  Engine.notePage leaf.id
  Engine.count .rowsInserted 1
  Engine.report (.rowInserted leaf.id slot length)

def insert (index : Index) (row : Row) : LeafCall Insertion := do
  loadRows index
  let slot ← search index .insertion row
  let leaf ← get
  if leaf.fits index (index.format.size leaf.form row) then
    place index slot row
    return .inserted
  else if 1 < leaf.count then
    let point := leaf.count / 2
    Engine.count .splitSignals 1
    Engine.report (.splitSignalled leaf.id leaf.count point)
    return .splitAt point
  else
    compact index
    let leaf ← get
    if !leaf.fits index (index.format.size leaf.form row) then
      throw (.internal .rowDoesNotFit)
    place index slot row
    return .inserted

end Leaf

end SlottedLeaf
