import SlottedLeaf.Leaf.Search

/-!
# Removing a row

The rows after a removed row move up by the bytes that it took, so a gap below it stays where it
is. The only row of a leaf is not removed: the caller reclaims the page.
-/

namespace SlottedLeaf

/-- What became of a row to be removed. -/
inductive Removal where
  /-- It is the only row; the leaf is as it was. -/
  | emptied (only : Row)
  /-- It was the last row; this is the last row now. -/
  | lastChanged (last : Row)
  /-- It was removed from among others. -/
  | unchanged
deriving DecidableEq, Repr

namespace Leaf

/-- The slots without `slot`, whose row took `length` bytes; the rows after it move up. -/
def removeSlot (slot length : Nat) (slots : List Slot) : List Slot :=
  slots.take slot ++
    (slots.drop (slot + 1)).map fun other => { other with offset := other.offset + length }

/-- Takes the row of a slot off a leaf that holds another. -/
def removeAt (index : Index) (slot : Nat) : LeafCall Unit := do
  loadRows index
  let leaf ← get
  if leaf.count ≤ slot then
    throw (.invalid .slotOutOfRange)
  if leaf.count ≤ 1 then
    throw (.internal .removingOnlyRow)
  let (start, stop) ← MonadExcept.ofExcept
    (OffsetTable.extent leaf.offsets index.pageSize slot)
  let length := stop - start
  set { leaf with slots := removeSlot slot length leaf.slots, written := false }
  MonadExcept.ofExcept ((← get).checkInvariants index)
  Engine.count .rowsRemoved 1
  Engine.report (.rowRemoved leaf.id slot length)

/-- Whether the slot holds the row sought, key and position. -/
def holds (index : Index) (slot : Nat) (target : Row) : LeafCall Bool := do
  if slot < (← get).count then
    return target.compareRows (← row index slot) = .eq
  else return false

def remove (index : Index) (target : Row) : LeafCall Removal := do
  let slot ← search index .removal target
  if !(← holds index slot target) then
    throw (.rowNotFound (← get).id target)
  if (← get).count = 1 then
    let only ← row index slot
    Engine.report (.leafEmptied (← get).id)
    return .emptied only
  removeAt index slot
  Engine.notePage (← get).id
  if slot = (← get).count then
    return .lastChanged (← row index (slot - 1))
  return .unchanged

end Leaf

end SlottedLeaf
