import SlottedLeaf.Leaf.Image
import SlottedLeaf.Leaf.Split
import SlottedLeaf.Leaf.Walk

/-!
# Leaves on a machine

A machine keeps the offsets and the rows of a leaf in two vectors, with the end of the offset table
beside them, and computes in 64-bit words. It stops dead where an index lies outside a vector, where
a sum or a difference is not a word, and where a loop goes on for more rounds than it was given; a
call then has no outcome at all. Every call here does, access by access and sum by sum, what the
call of the same name does to a `Leaf`.
-/

namespace SlottedLeaf

/-! ## What a machine may stop at -/

namespace Machine

variable {α : Type}

def add (a b : Nat) : Option Nat := if a + b < addressLimit then some (a + b) else none

def sub (a b : Nat) : Option Nat := if b ≤ a then some (a - b) else none

def mul (a b : Nat) : Option Nat := if a * b < addressLimit then some (a * b) else none

/-- A word shifted up by fewer bits than it has; what passes its upper end is lost. -/
def shiftLeft (word bits : Nat) : Option Nat :=
  if bits < 64 then some (word <<< bits % UInt64.size) else none

def setAt (list : List α) (i : Nat) (item : α) : Option (List α) :=
  if i < list.length then some (list.set i item) else none

/-- Puts an item before the one at an index, or at the end. -/
def insertAt (list : List α) (i : Nat) (item : α) : Option (List α) :=
  if i ≤ list.length then some (list.take i ++ item :: list.drop i) else none

def removeAt (list : List α) (i : Nat) : Option (List α) :=
  if i < list.length then some (list.take i ++ list.drop (i + 1)) else none

/-- The items before an index, and those from there on. -/
def cut (list : List α) (i : Nat) : Option (List α × List α) :=
  if i ≤ list.length then some (list.take i, list.drop i) else none

/-- The bytes `[start, stop)` of a page. -/
def span (page : Buffer) (start stop : Nat) : Option Bytes :=
  if start ≤ stop ∧ stop ≤ page.size then some (page.slice start (stop - start)) else none

/-- Bytes that must be of this length. -/
def whole (length : Nat) (bytes : Bytes) : Option Bytes :=
  if bytes.length = length then some bytes else none

/-- Where the row of a slot ends: at the row of the slot before it, or at the end of the page. -/
def ceiling (pageSize : Nat) (offsets : List Nat) : Nat → Option Nat
  | 0 => some pageSize
  | previous + 1 => offsets[previous]?

/-- Lowers offsets from the first on, up to one that is less than the length. -/
def lowerAll (length : Nat) : List Nat → List Nat × Except Fault Unit
  | [] => ([], .ok ())
  | offset :: rest =>
    if offset < length then (offset :: rest, .error (.internal .offsetUnderflow))
    else
      let (lowered, outcome) := lowerAll length rest
      ((offset - length) :: lowered, outcome)

def raiseAll (length : Nat) : List Nat → Option (List Nat)
  | [] => some []
  | offset :: rest => do
    return (← add offset length) :: (← raiseAll length rest)

def keyTag (row : Row) : Option Nat :=
  match row.key with
  | none => some 0
  | some key => add key.length 1

def rowSize (format : RowFormat) (form : RowForm) (row : Row) : Option Nat :=
  match form with
  | .positionOnly => some format.positionSize
  | .full => do
    let header ← add positionLength (Varint.encodedLength (← keyTag row))
    add header row.keyBytes.length

end Machine

/-- The working copy of a leaf page as a machine keeps it. -/
structure RawLeaf where
  id : PageId
  parent : Option PageId
  form : RowForm
  offsets : List Nat
  rows : List (Option Row)
  /-- The end of the header and the offset table. -/
  start : Nat
  written : Bool
  image : Buffer
deriving DecidableEq, Repr

/-- A call on a machine: it stops dead, fails, or gives an answer. -/
abbrev RawCall (α : Type) := ExceptT Fault (StateT RawLeaf (StateT Engine Option)) α

instance (priority := low) : MonadLift EngineCall RawCall where
  monadLift call := ExceptT.mk fun leaf engine =>
    let (outcome, engine) := call.run.run engine
    some ((outcome, leaf), engine)

namespace RawCall

variable {α : Type}

/-- The outcome of a call, the leaf after it and the engine after it; nothing if the machine
stops. -/
def on (call : RawCall α) (leaf : RawLeaf) (engine : Engine) :
    Option ((Except Fault α × RawLeaf) × Engine) :=
  (call.run.run leaf).run engine

/-- Goes on with a value that must be there. -/
def sure (value : Option α) : RawCall α :=
  ExceptT.mk fun leaf engine => value.map fun value => ((.ok value, leaf), engine)

/-- Edits the image of the leaf. -/
def edit (change : Edit α) : RawCall α :=
  ExceptT.mk fun leaf engine =>
    let (outcome, image) := change.apply leaf.image
    some ((outcome, { leaf with image }), engine)

/-- Runs a call on another leaf, and gives that leaf back. If the call fails, so does this one. -/
def onOther (call : RawCall α) (other : RawLeaf) : RawCall (α × RawLeaf) :=
  ExceptT.mk fun leaf engine =>
    (call.on other engine).map fun ((outcome, other), engine) =>
      ((outcome.map (·, other), leaf), engine)

end RawCall

namespace RawLeaf

open Machine RawCall

variable (index : Index)

def create (id : PageId) (parent : Option PageId) (form : RowForm) : RawLeaf :=
  ⟨id, parent, form, [], [], headerLength, false, .zeros index.pageSize⟩

def lastOffset (leaf : RawLeaf) : Nat := leaf.offsets.getLast?.getD index.pageSize

/-! ## Rows -/

/-- Takes bytes from a cursor on, and gives the cursor after them. -/
def take (overflow cut : Corruption) (page : Buffer) (cursor length : Nat) :
    RawCall (Bytes × Nat) := do
  if addressLimit ≤ cursor + length then
    throw (.corruption overflow)
  let stop := cursor + length
  if page.size < stop then
    throw (.corruption cut)
  return (← sure (span page cursor stop), stop)

/-- Reads a variable-length number, byte by byte: `taken` is what the bytes so far spell, and
`shift` how many bits they do. Gives the cursor after it. -/
def readTag (page : Buffer) : (rounds taken shift cursor : Nat) → RawCall (Nat × Nat)
  | 0, _, _, _ => throw (.corruption .rowKeyLengthTooLong)
  | rounds + 1, taken, shift, cursor =>
    match page[cursor]? with
    | none => throw (.corruption .rowKeyLengthCut)
    | some byte => do
      let next ← sure (add cursor 1)
      -- The bits of the group are clear of those taken so far, so that joining them is adding.
      let group ← sure (shiftLeft (byte.toNat % 128) shift)
      let taken := (taken + group) % UInt64.size
      if byte.toNat < 128 then
        return (taken, next)
      else
        readTag page rounds taken (← sure (add shift 7)) next

def readKey (page : Buffer) (cursor : Nat) : RawCall (Option Bytes) := do
  match ← readTag page Varint.maxLength 0 0 cursor with
  | (0, _) => return none
  | (length + 1, cursor) =>
    let (key, _) ← take .rowLengthOverflow .rowCut page cursor length
    return some key

def readRow (format : RowFormat) (form : RowForm) (page : Buffer) (offset : Nat) :
    RawCall Row := do
  if page.size < offset then
    throw (.corruption .rowOffsetPastEnd)
  let (bytes, cursor) ← take .rowPositionCut .rowPositionCut page offset positionLength
  let pos : RowPos := ⟨UInt64.ofNat (ofBigEndian bytes)⟩
  match form with
  | .positionOnly => MonadExcept.ofExcept (format.resolve pos)
  | .full =>
    let key ← readKey page cursor
    return ⟨key, pos⟩

def decodeRow (slot : Nat) : RawCall Row := do
  let leaf ← get
  let offset ← sure leaf.offsets[slot]?
  if offset < leaf.start ∨ leaf.image.size ≤ offset then
    throw (.corruption .offsetOutsideData)
  let row ← readRow index.format leaf.form leaf.image offset
  Engine.count .rowsDecoded 1
  return row

/-- Decodes the row of a slot and keeps it. -/
def fetch (slot : Nat) : RawCall Row := do
  let row ← decodeRow index slot
  let rows ← sure (setAt (← get).rows slot (some row))
  modify fun leaf => { leaf with rows }
  return row

def row (slot : Nat) : RawCall Row := do
  let leaf ← get
  if leaf.rows.length ≤ slot then
    throw (.invalid .slotOutOfRange)
  match ← sure leaf.rows[slot]? with
  | some row => return row
  | none => fetch index slot

/-- Decodes the rows of the slots from `slot` on. -/
def loadFrom : (slot rounds : Nat) → RawCall Unit
  | _, 0 => return
  | slot, rounds + 1 => do
    match ← sure (← get).rows[slot]? with
    | some _ => loadFrom (slot + 1) rounds
    | none =>
      let _ ← fetch index slot
      loadFrom (slot + 1) rounds

def loadRows : RawCall Unit := do loadFrom index 0 (← get).rows.length

def loadedRows : List (Option Row) → Except Fault (List Row)
  | [] => .ok []
  | none :: _ => .error (.internal .rowNotLoaded)
  | some row :: rest => do
    return row :: (← loadedRows rest)

def collect : RawCall (List Row) := do
  loadRows index
  MonadExcept.ofExcept (loadedRows (← get).rows)

/-! ## Reading images -/

def readNumber (width : Nat) (page : Buffer) (offset : Nat) : RawCall Nat := do
  let (bytes, _) ← take .fieldOffsetOverflow .fieldPastEnd page offset width
  return ofBigEndian (← sure (whole width bytes))

/-- Where the entry of a slot in the offset table is, or the end of the table of that many slots. -/
def entryOffset (slot : Nat) : RawCall Nat := do
  sure (add headerLength (← sure (mul entryLength slot)))

def readHeader (page : Buffer) : RawCall Header := do
  if page.size < headerLength then
    throw (.corruption .headerCut)
  let type ← sure page[Header.typeOffset]?
  if (← MonadExcept.ofExcept (PageKind.ofTypeByte type)) ≠ .leaf then
    throw (.corruption .notALeaf)
  let parent ← readNumber 4 page Header.parentOffset
  let table ← readNumber 4 page Header.tableOffset
  let count ← readNumber 2 page Header.countOffset
  let header : Header :=
    ⟨PageId.ofParentField (UInt32.ofNat parent), RowForm.ofTypeByte type, ⟨UInt32.ofNat table⟩,
      UInt16.ofNat count⟩
  if page.size < (← entryOffset header.count.toNat) then
    throw (.corruption .offsetTableCut)
  return header

/-- Reads the entries of the slots from `slot` on. -/
def readOffsets (page : Buffer) : (slot rounds : Nat) → RawCall (List Nat)
  | _, 0 => return []
  | slot, rounds + 1 => do
    let offset ← readNumber entryLength page (← entryOffset slot)
    return offset :: (← readOffsets page (slot + 1) rounds)

def ofImage (id : PageId) (image : Buffer) : RawCall RawLeaf := do
  if image.size ≠ index.pageSize then
    throw (.corruption .pageLength)
  let header ← readHeader image
  if header.table ≠ index.table then
    throw (.tableMismatch id index.table header.table)
  let offsets ← readOffsets image 0 header.count.toNat
  let start ← entryOffset header.count.toNat
  MonadExcept.ofExcept (Leaf.checkOffsets start image.size image.size offsets)
  return ⟨id, header.parent, header.form, offsets, .replicate offsets.length none, start, true,
    image⟩

def read (id : PageId) (image : Buffer) : RawCall RawLeaf := do
  let leaf ← ofImage index id image
  Engine.count .pagesRead 1
  Engine.report (.leafRead id leaf.offsets.length leaf.form)
  return leaf

/-! ## Layout -/

def fits (length : Nat) : RawCall Bool := do
  let leaf ← get
  let table ← sure (add leaf.start entryLength)
  let needed ← sure (add table length)
  return needed ≤ leaf.lastOffset index

/-- Checks the slots from `slot` on: `offsets` is what is left of the offset table, `upper` where
the row before starts, and `previous` that row. Gives where the last row starts. -/
def checkFrom : (slot : Nat) → List Nat → (upper : Nat) → (previous : Option Row) → RawCall Nat
  | _, [], upper, _ => return upper
  | slot, offset :: rest, upper, previous => do
    let leaf ← get
    match ← sure leaf.rows[slot]? with
    | none => throw (.internal .rowNotLoaded)
    | some row =>
      let stop ← sure (add offset (← sure (rowSize index.format leaf.form row)))
      if upper < stop then
        throw (.internal .rowsOverlap)
      if previous.any fun previous => previous.compareRows row ≠ .lt then
        throw (.internal .rowsOutOfOrder)
      checkFrom (slot + 1) rest offset (some row)

def checkInvariants : RawCall Unit := do
  if index.options.checkInvariants then
    let leaf ← get
    if leaf.offsets.length ≠ leaf.rows.length then
      throw (.internal (.reported "offset table and rows diverged"))
    let table ← sure (mul entryLength leaf.offsets.length)
    if leaf.start ≠ (← sure (add headerLength table)) then
      throw (.internal (.reported "start does not match offset table"))
    let lowest ← checkFrom index 0 leaf.offsets index.pageSize none
    if lowest < leaf.start then
      throw (.internal .rowsOverlapTable)
  else return

/-! ## Searching -/

def searchBetween (aim : Leaf.Aim) (target : Row) : (rounds low high : Nat) → RawCall Nat
  | 0, _, _ => sure none
  | rounds + 1, low, high =>
    if low < high then do
      let middle := (← sure (add low high)) / 2
      match aim.turn index target (← row index middle) with
      | .after => searchBetween aim target rounds (← sure (add middle 1)) high
      | .before => searchBetween aim target rounds low middle
      | .found => return middle
      | .clash => throw (.duplicateKey (← get).id target)
    else return low

/-- Searches the leaf. Every round leaves fewer slots to be searched. -/
def search (aim : Leaf.Aim) (target : Row) : RawCall Nat := do
  let count := (← get).offsets.length
  searchBetween index aim target (count + 1) 0 count

/-! ## Inserting -/

/-- Packs the rows from `slot` on below an offset. -/
def packFrom : (slot rounds ceiling : Nat) → RawCall Unit
  | _, 0, _ => return
  | slot, rounds + 1, ceiling => do
    match ← sure (← get).rows[slot]? with
    | none => throw (.internal .rowNotLoaded)
    | some row =>
      let length ← sure (rowSize index.format .positionOnly row)
      if ceiling < length then
        throw (.internal .positionRowTooLarge)
      let offset := ceiling - length
      let offsets ← sure (setAt (← get).offsets slot offset)
      modify fun leaf => { leaf with offsets }
      packFrom (slot + 1) rounds offset

/-- Packs the rows from the end of the page. -/
def packSlots : RawCall Unit := do
  packFrom index 0 (← get).offsets.length index.pageSize
  modify fun leaf => { leaf with written := false }

def compact : RawCall Unit := do
  let former ← get
  modify fun leaf => { leaf with form := .positionOnly }
  packSlots index
  if former.form = .full then
    Engine.count .compactions 1
    Engine.report (.leafCompacted former.id index.table former.offsets.length)

/-- Puts a row and its offset into the vectors, once the offsets from there on are lowered. -/
def insertSlot (slot length : Nat) (row : Row) : RawCall Unit := do
  let upper ← sure (ceiling index.pageSize (← get).offsets slot)
  let (before, after) ← sure (cut (← get).offsets slot)
  let (lowered, outcome) := lowerAll length after
  modify fun leaf => { leaf with offsets := before ++ lowered }
  MonadExcept.ofExcept outcome
  if upper < length then
    throw (.internal .offsetUnderflow)
  let offsets ← sure (insertAt (← get).offsets slot (upper - length))
  modify fun leaf => { leaf with offsets }
  let rows ← sure (insertAt (← get).rows slot (some row))
  modify fun leaf => { leaf with rows }
  let start ← sure (add (← get).start entryLength)
  modify fun leaf => { leaf with start, written := false }

def place (slot length : Nat) (row : Row) : RawCall Unit := do
  insertSlot index slot length row
  checkInvariants index
  let id := (← get).id
  Engine.notePage id
  Engine.count .rowsInserted 1
  Engine.report (.rowInserted id slot length)

def insert (row : Row) : RawCall Insertion := do
  loadRows index
  let slot ← search index .insertion row
  let length ← sure (rowSize index.format (← get).form row)
  if ← fits index length then
    place index slot length row
    return .inserted
  else
    let leaf ← get
    if 1 < leaf.offsets.length then
      let point := leaf.offsets.length / 2
      Engine.count .splitSignals 1
      Engine.report (.splitSignalled leaf.id leaf.offsets.length point)
      return .splitAt point
    else
      compact index
      let length ← sure (rowSize index.format (← get).form row)
      if !(← fits index length) then
        throw (.internal .rowDoesNotFit)
      place index slot length row
      return .inserted

/-! ## Removing -/

def extent (slot : Nat) : RawCall (Nat × Nat) := do
  let leaf ← get
  match leaf.offsets[slot]? with
  | none => throw (.invalid .slotOutOfRange)
  | some start =>
    let stop ← sure (ceiling index.pageSize leaf.offsets slot)
    MonadExcept.ofExcept (OffsetTable.between index.pageSize start stop)

/-- Takes a row and its offset out of the vectors, once the offsets after it are raised. -/
def removeSlot (slot length : Nat) : RawCall Unit := do
  let (before, after) ← sure (cut (← get).offsets (← sure (add slot 1)))
  let raised ← sure (raiseAll length after)
  let offsets ← sure (Machine.removeAt (before ++ raised) slot)
  modify fun leaf => { leaf with offsets }
  let former ← get
  let rows ← sure (Machine.removeAt former.rows slot)
  modify fun leaf => { leaf with rows }
  if (← sure former.rows[slot]?).isNone then
    throw (.internal .rowNotLoaded)
  let start ← sure (sub (← get).start entryLength)
  modify fun leaf => { leaf with start, written := false }

def removeAt (slot : Nat) : RawCall Unit := do
  loadRows index
  let leaf ← get
  if leaf.offsets.length ≤ slot then
    throw (.invalid .slotOutOfRange)
  if leaf.offsets.length ≤ 1 then
    throw (.internal .removingOnlyRow)
  let (start, stop) ← extent index slot
  let length ← sure (sub stop start)
  removeSlot slot length
  checkInvariants index
  Engine.count .rowsRemoved 1
  Engine.report (.rowRemoved leaf.id slot length)

def holds (slot : Nat) (target : Row) : RawCall Bool := do
  if slot < (← get).offsets.length then
    return target.compareRows (← row index slot) = .eq
  else return false

def remove (target : Row) : RawCall Removal := do
  let slot ← search index .removal target
  if !(← holds index slot target) then
    throw (.rowNotFound (← get).id target)
  if (← get).offsets.length = 1 then
    let only ← row index slot
    Engine.report (.leafEmptied (← get).id)
    return .emptied only
  removeAt index slot
  Engine.notePage (← get).id
  if slot = (← get).offsets.length then
    return .lastChanged (← row index (← sure (sub slot 1)))
  return .unchanged

/-! ## Splitting -/

/-- Moves rows, each from `slot` to the end of `target`, until there is none left at `slot`. -/
def moveTail (slot : Nat) : (rounds : Nat) → (target : RawLeaf) → RawCall RawLeaf
  | 0, _ => sure none
  | rounds + 1, target => do
    if slot < (← get).offsets.length then
      let moving ← row index slot
      match ← (insert index moving).onOther target with
      | (.inserted, target) =>
        removeAt index slot
        moveTail slot rounds target
      | (.splitAt _, _) => throw (.internal .splitTargetFull)
    else return target

/-- Splits the leaf. Every row is moved in one round, and the last round finds that out. -/
def split (point : Nat) : RawCall RawLeaf := do
  let leaf ← get
  if point = 0 ∨ leaf.offsets.length ≤ point then
    throw (.invalid .splitPoint)
  let id ← Engine.allocatePage
  let moved ← sure (sub leaf.offsets.length point)
  loadRows index
  let right ← moveTail index point (moved + 1) (create index id leaf.parent leaf.form)
  Engine.count .splits 1
  Engine.report (.leafSplit leaf.id id point moved)
  return right

/-! ## Walking -/

def setParent (parent : Option PageId) : RawCall Unit := do
  let leaf ← get
  if leaf.parent ≠ parent then
    set { leaf with parent, written := false }

def seek (target : Row) (past : Bool) : RawCall Leaf.Landing := do
  let slot ← search index (.bound past) target
  let leaf ← get
  if slot < leaf.offsets.length then return .here slot
  else match leaf.parent with
    | some node => return .above node
    | none => return .nowhere

def last (leaf : RawLeaf) : Cursor :=
  match sub leaf.offsets.length 1 with
  | none => .off
  | some slot => ⟨some leaf.id, slot⟩

def nextLeaf {σ : Type} (nodes : NodeLayer σ) (leaf : RawLeaf) : NodeCall σ Unit :=
  match leaf.parent with
  | none => modify fun (_, state) => (.off, state)
  | some node => nodes.next node leaf.id

def previousLeaf {σ : Type} (nodes : NodeLayer σ) (leaf : RawLeaf) : NodeCall σ Unit :=
  match leaf.parent with
  | none => modify fun (_, state) => (.off, state)
  | some node => nodes.previous node leaf.id

/-! ## Writing -/

def putHeader (header : Header) : RawCall Unit := do
  edit (Edit.field 4 Header.parentOffset (PageId.toParentField header.parent).toNat)
  if (← get).image.size ≤ Header.typeOffset then
    throw (.invalid .headerDoesNotFit)
  edit (Edit.field 1 Header.typeOffset (typeByte .leaf header.form).toNat)
  edit (Edit.field 4 Header.tableOffset header.table.number.toNat)
  edit (Edit.field 2 Header.countOffset header.count.toNat)

def putOffsets : (slot : Nat) → List Nat → RawCall Unit
  | _, [] => return
  | slot, offset :: rest => do
    if 65535 < offset then
      throw (.internal .offsetTooLarge)
    let entry ← sure (add headerLength (← sure (mul entryLength slot)))
    edit (Edit.field entryLength entry offset)
    putOffsets (slot + 1) rest

def putRow (form : RowForm) (offset : Nat) (row : Row) : RawCall Unit := do
  edit (Edit.field positionLength offset row.pos.value.toNat)
  if form = .full then
    -- The room set aside for the key field.
    let _ ← sure (sub (← sure (rowSize index.format form row)) positionLength)
    let _ ← sure (keyTag row)
    let start ← sure (add offset positionLength)
    edit (Edit.bytes start row.keyField)

def putRows (form : RowForm) (rows : List (Option Row)) : (slot : Nat) → List Nat → RawCall Unit
  | _, [] => return
  | slot, offset :: rest => do
    match ← sure rows[slot]? with
    | none => throw (.internal .rowNotLoaded)
    | some row =>
      putRow index form offset row
      putRows form rows (slot + 1) rest

def render : RawCall Unit := do
  loadRows index
  let leaf ← get
  if 65535 < leaf.offsets.length then
    throw (.internal .tooManyEntries)
  modify fun leaf => { leaf with image := .zeros leaf.image.size }
  putHeader ⟨leaf.parent, leaf.form, index.table, UInt16.ofNat leaf.offsets.length⟩
  putOffsets 0 leaf.offsets
  putRows index leaf.form leaf.rows 0 leaf.offsets

def write : RawCall Unit := do
  if (← get).written then
    return
  else
    render index
    let leaf ← get
    Engine.writePage leaf.id leaf.image
    modify fun leaf => { leaf with written := true }
    Engine.count .pagesWritten 1
    Engine.report (.leafWritten leaf.id leaf.offsets.length leaf.form)

end RawLeaf

end SlottedLeaf
