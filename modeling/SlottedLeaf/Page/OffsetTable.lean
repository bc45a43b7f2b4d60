import SlottedLeaf.Page.Header

/-!
# The offset table

Rows pack downward from the end of the page, so the row of a slot ends where the row of the slot
before it starts, and the first row ends with the page. The offset table lists where each row
starts.
-/

namespace SlottedLeaf.OffsetTable

def entryOffset (slot : Nat) : Nat := headerLength + entryLength * slot

/-- The numbers of the first `count` pairs of bytes. -/
def decodePairs : Nat → Bytes → Except Fault (List Nat)
  | 0, _ => .ok []
  | count + 1, high :: low :: rest => do
    return ofBigEndian [high, low] :: (← decodePairs count rest)
  | _ + 1, _ => .error (.corruption .fieldPastEnd)

def decode (page : Buffer) (count : Nat) : Except Fault (List Nat) :=
  decodePairs count (page.slice headerLength (entryLength * count))

/-- Writes offsets into the entries from `slot` on. -/
def putFrom : Nat → List Nat → Edit Unit
  | _, [] => return
  | slot, offset :: rest => do
    if 65535 < offset then
      throw (.internal .offsetTooLarge)
    Edit.field entryLength (entryOffset slot) offset
    putFrom (slot + 1) rest

def put (offsets : List Nat) : Edit Unit := putFrom 0 offsets

/-- Where the row of a slot ends: at the row of the slot before it, or at the end of the page. -/
def ceiling (offsets : List Nat) (pageSize slot : Nat) : Nat :=
  match slot with
  | 0 => pageSize
  | previous + 1 => (offsets[previous]?).getD pageSize

/-- The bytes of a row, from its start up to its end on a page. -/
def between (pageSize start stop : Nat) : Except Fault (Nat × Nat) :=
  if stop < start ∨ pageSize < stop then .error (.corruption .extentInverted)
  else .ok (start, stop)

/-- The bytes of a slot's row, from its start up to its end. -/
def extent (offsets : List Nat) (pageSize slot : Nat) : Except Fault (Nat × Nat) :=
  match offsets[slot]? with
  | none => .error (.invalid .slotOutOfRange)
  | some start => between pageSize start (ceiling offsets pageSize slot)

end SlottedLeaf.OffsetTable
