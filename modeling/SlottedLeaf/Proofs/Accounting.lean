import SlottedLeaf.Proofs.Grammar
import SlottedLeaf.Proofs.Reporting

/-!
# What a report accounts for

The slots of a report end each where the one before starts, the first at the end of the page. So
they lie side by side from where the rows start, every byte from there on is shown in one slot, and
with the header, the offset table and the free bytes they make up the page. No byte outside the page
is asked for, whatever the file has in it.
-/

namespace SlottedLeaf

namespace Report

/-! ## Slots side by side -/

/-- The slots end each where the one before starts, the first one at `top`, and show the bytes of
the page there. -/
def Tiles (image : Bytes) : Nat → List SlotReport → Prop
  | _, [] => True
  | top, slot :: rest =>
    slot.offset + slot.bytes.length = top ∧
      slot.bytes = image.slice slot.offset slot.bytes.length ∧ Tiles image slot.offset rest

/-- Where the last of the slots starts; `top` if there is none. -/
def lowest : Nat → List SlotReport → Nat
  | top, [] => top
  | _, slot :: rest => lowest slot.offset rest

/-- The byte at this place is one of those that the slot of this number shows. -/
def Covers (slots : List SlotReport) (number place : Nat) : Prop :=
  ∃ slot, slots[number]? = some slot ∧
    slot.offset ≤ place ∧ place < slot.offset + slot.bytes.length

theorem rowsStart_eq (report : Report) :
    report.rowsStart = lowest report.pageSize report.slots := by
  obtain ⟨page, top, header, slots⟩ := report
  simp only [rowsStart]
  induction slots generalizing top with
  | nil => rfl
  | cons slot rest ih =>
    rw [lowest, ← ih slot.offset]
    cases rest with
    | nil => rfl
    | cons next rest => rw [List.getLast?_cons_cons]; rfl

namespace Tiles

variable {image : Bytes} {top : Nat} {slots : List SlotReport}

theorem sum_eq (tiles : Tiles image top slots) :
    (slots.map fun slot => slot.bytes.length).sum + lowest top slots = top := by
  induction slots generalizing top with
  | nil => simp [lowest]
  | cons slot rest ih =>
    have later := ih tiles.2.2
    have here := tiles.1
    simp only [List.map_cons, List.sum_cons, lowest]
    omega

/-- From the last slot to the first the bytes follow each other, up to the top. -/
theorem joined (tiles : Tiles image top slots) :
    slots.reverse.flatMap SlotReport.bytes ++ image.drop top = image.drop (lowest top slots) := by
  induction slots generalizing top with
  | nil => rfl
  | cons slot rest ih =>
    obtain ⟨ends, shown, tiles⟩ := tiles
    have parts := List.take_append_drop slot.bytes.length (image.drop slot.offset)
    rw [List.drop_drop, ends] at parts
    have here : slot.bytes ++ image.drop top = image.drop slot.offset :=
      (congrArg (· ++ image.drop top) shown).trans parts
    rw [List.reverse_cons, List.flatMap_append, List.flatMap_singleton, List.append_assoc, here,
      lowest, ih tiles]

/-- No slot shows a byte from elsewhere. -/
theorem within (tiles : Tiles image top slots) {number place : Nat}
    (covers : Covers slots number place) : lowest top slots ≤ place ∧ place < top := by
  induction slots generalizing top number with
  | nil =>
    obtain ⟨slot, here, _⟩ := covers
    cases here
  | cons slot rest ih =>
    obtain ⟨ends, shown, tiles⟩ := tiles
    have low := tiles.sum_eq
    cases number with
    | zero =>
      obtain ⟨_, ⟨⟩, from_here, below⟩ := covers
      rw [lowest]
      omega
    | succ number =>
      have later := ih tiles (show Covers rest number place from covers)
      rw [lowest]
      omega

/-- Every byte between the last slot and the top is shown, and in one slot. -/
theorem once (tiles : Tiles image top slots) {place : Nat} (low : lowest top slots ≤ place)
    (high : place < top) : ∃! number, Covers slots number place := by
  induction slots generalizing top with
  | nil =>
    rw [lowest] at low
    omega
  | cons slot rest ih =>
    obtain ⟨ends, shown, tiles⟩ := tiles
    by_cases here : slot.offset ≤ place
    · refine ⟨0, ⟨slot, rfl, here, by omega⟩, ?_⟩
      rintro (_ | number) covers
      · rfl
      · have later := tiles.within (show Covers rest number place from covers)
        omega
    · obtain ⟨number, covers, alone⟩ := ih tiles low (by omega)
      refine ⟨number + 1, covers, ?_⟩
      rintro (_ | other) again
      · obtain ⟨_, ⟨⟩, from_here, _⟩ := again
        omega
      · exact congrArg (· + 1) (alone other again)

end Tiles

theorem tiles_of_slotsOf {image : Buffer} {header : Header} {top : Nat} {offsets : List Nat}
    {slots : List SlotReport} (listed : slotsOf image header top offsets = .ok slots) :
    Tiles image.toList top slots := by
  induction offsets generalizing top slots with
  | nil =>
    cases listed
    trivial
  | cons offset rest ih =>
    obtain ⟨bounds, others, later, rfl⟩ := slotsOf_cons_ok listed
    have length : (image.slice offset (top - offset)).length = top - offset := by
      rw [Buffer.length_slice]
      omega
    refine ⟨?_, ?_, ih later⟩
    · show offset + (image.slice offset (top - offset)).length = top
      omega
    · show image.slice offset (top - offset) = _
      rw [length, Buffer.slice_eq]

/-- No slot reaches into the offset table. -/
theorem offsetsEnd_le_lowest {image : Buffer} {header : Header} {top : Nat} {offsets : List Nat}
    {slots : List SlotReport} (listed : slotsOf image header top offsets = .ok slots)
    (under : header.offsetsEnd ≤ top) : header.offsetsEnd ≤ lowest top slots := by
  induction offsets generalizing top slots with
  | nil =>
    cases listed
    exact under
  | cons offset rest ih =>
    obtain ⟨bounds, others, later, rfl⟩ := slotsOf_cons_ok listed
    rw [lowest]
    exact ih later bounds.1

/-! ## Pages -/

/-- The slots of the report show each byte of the page from where the rows start, one after the
other and none twice, and the rest of the page is the header, the offset table and the free
bytes. -/
structure AccountsFor (report : Report) (page : Bytes) : Prop where
  size : page.length = report.pageSize
  count : report.slots.length = report.header.count.toNat
  tiles : Tiles page report.pageSize report.slots
  within : ∀ number place, Covers report.slots number place →
    report.rowsStart ≤ place ∧ place < report.pageSize
  once : ∀ place, report.rowsStart ≤ place → place < report.pageSize →
    ∃! number, Covers report.slots number place
  printed : ∀ slot ∈ report.slots, Bytes.ofHex? slot.bytes.toHex =
    some (page.slice slot.offset slot.bytes.length)
  joined : report.slots.reverse.flatMap SlotReport.bytes = page.drop report.rowsStart
  clear : report.header.offsetsEnd ≤ report.rowsStart
  sum : headerLength + entryLength * report.header.count.toNat + report.freeSpace +
    (report.slots.map fun slot => slot.bytes.length).sum = report.pageSize

theorem Tiles.shown {image : Bytes} {top : Nat} {slots : List SlotReport}
    (tiles : Tiles image top slots) {slot : SlotReport} (member : slot ∈ slots) :
    slot.bytes = image.slice slot.offset slot.bytes.length := by
  induction slots generalizing top with
  | nil => cases member
  | cons first rest ih =>
    rcases List.mem_cons.mp member with rfl | later
    · exact tiles.2.1
    · exact ih tiles.2.2 later

/-- A report accounts for the image that it is made of. -/
theorem accountsFor_of_ofImage {page : PageId} {image : Buffer} {report : Report}
    (made : ofImage page image = .ok report) : report.AccountsFor image.toList := by
  obtain ⟨header, offsets, slots, decoded, listed, found, rfl⟩ := ofImage_ok made
  obtain ⟨⟨_, table⟩, spells⟩ := Header.decode_ok_iff.mp decoded
  have under : header.offsetsEnd ≤ image.size := by
    rw [spells, Header.offsetsEnd_spelled]
    exact table
  have tiles := tiles_of_slotsOf found
  have clear := offsetsEnd_le_lowest found under
  have total := tiles.sum_eq
  have start := rowsStart_eq ⟨page, image.size, header, slots⟩
  refine ⟨Array.length_toList, ?_, tiles, ?_, ?_, ?_, ?_, ?_, ?_⟩
  · rw [← (OffsetTable.decodePairs_ok listed).1, ← slotsOf_ok found, List.length_map]
  · intro number place covers
    rw [start]
    exact tiles.within covers
  · intro place low high
    rw [start] at low
    exact tiles.once low high
  · intro slot member
    rw [Bytes.ofHex?_toHex, ← tiles.shown member]
  · have whole := tiles.joined
    rw [List.drop_of_length_le Array.length_toList.le, List.append_nil] at whole
    rw [start]
    exact whole
  · rw [start]
    exact clear
  · have free : freeSpace ⟨page, image.size, header, slots⟩ =
        lowest image.size slots - header.offsetsEnd := by rw [freeSpace, start]
    rw [free]
    show header.offsetsEnd + (lowest image.size slots - header.offsetsEnd) +
      (slots.map fun slot => slot.bytes.length).sum = image.size
    omega

end Report

/-! ## Files -/

/-- A page that is read of a file is one that the file has, and its bytes are those of the file. -/
theorem FileStore.toList_of_read {pageSize : Nat} {content : Bytes} {page : PageId}
    {store : FileStore} {image : Buffer} (opens : ofFile pageSize (.ofBytes content) = .ok store)
    (kept : store.read page = .ok image) :
    page.number.toNat * pageSize + pageSize ≤ content.length ∧
      image.toList = content.slice (page.number.toNat * pageSize) pageSize := by
  obtain ⟨_, _, _, rfl⟩ := ofFile_ok opens
  have length : (SparseFile.ofBytes content).length = content.length := rfl
  rw [length] at kept
  obtain ⟨⟨unreserved, below⟩, rfl⟩ :=
    Store.read_eq_ok_iff.mp (show (Store.file _).read page = .ok image from kept)
  have numbered : page.number.toNat ≠ 0 := by
    intro zero
    exact unreserved (congrArg PageId.mk (UInt32.toNat_inj.mp zero))
  have below : page.number.toNat < max (content.length / pageSize) 1 := below
  have pages : content.length / pageSize ≠ 0 := by omega
  have inside : page.number.toNat * pageSize + pageSize ≤ content.length := by
    have last : page.number.toNat + 1 ≤ content.length / pageSize := by omega
    have ends := Nat.le_trans (Nat.mul_le_mul_right pageSize last)
      (Nat.div_mul_le_self content.length pageSize)
    rwa [Nat.succ_mul] at ends
  have whole : (content.slice (page.number.toNat * pageSize) pageSize).length = pageSize := by
    rw [Bytes.slice, List.length_take, List.length_drop]
    omega
  have unpadded : (content.slice (page.number.toNat * pageSize) pageSize).resize pageSize =
      content.slice (page.number.toNat * pageSize) pageSize := by
    rw [Bytes.resize, whole, Nat.sub_self, List.take_of_length_le whole.le]
    exact List.append_nil _
  refine ⟨inside, ?_⟩
  rw [Store.kept, if_neg pages, SparseFile.window_ofBytes]
  exact unpadded

/-! ## On a machine -/

namespace Machine

/-- What division leaves over; a machine stops at zero. -/
def rem (a b : Nat) : Option Nat := if b = 0 then none else some (a % b)

def quot (a b : Nat) : Option Nat := if b = 0 then none else some (a / b)

end Machine

namespace RawReport

open Machine RawCall RawLeaf

/-- Opens a file of this length, and gives the number of its pages. -/
def openFile (pageSize length : Nat) : RawCall Nat := do
  MonadExcept.ofExcept (checkPageSize pageSize)
  if (← sure (rem length pageSize)) ≠ 0 then
    throw (.corruption .fileLength)
  let pages ← sure (quot length pageSize)
  if UInt32.size ≤ pages then
    throw (.corruption .tooManyPages)
  return max pages 1

/-- Reads a page of a file of these bytes. -/
def readPage (pageSize : Nat) (page : PageId) (content : Bytes) : RawCall Buffer := do
  let count ← openFile pageSize content.length
  MonadExcept.ofExcept (checkPageId page)
  let start ← sure (mul page.number.toNat pageSize)
  if count ≤ page.number.toNat then
    throw (.invalid .readUnallocated)
  let stop ← sure (add start pageSize)
  let bytes ← sure (span content.toArray start stop)
  return bytes.toArray

/-- Lists the slots from `slot` on. -/
def slotsFrom (pageSize : Nat) (image : Buffer) (header : Header) (offsets : List Nat) :
    (slot rounds : Nat) → RawCall (List SlotReport)
  | _, 0 => return []
  | slot, rounds + 1 => do
    let offset ← sure offsets[slot]?
    let (start, stop) ← MonadExcept.ofExcept
      (OffsetTable.between pageSize offset (← sure (ceiling pageSize offsets slot)))
    if start < (← entryOffset header.count.toNat) then
      throw (.corruption .offsetInsideTable)
    -- The length that is printed.
    let _ ← sure (sub stop start)
    let bytes ← sure (span image start stop)
    return ⟨start, bytes⟩ :: (← slotsFrom pageSize image header offsets (slot + 1) rounds)

def ofFile (pageSize : Nat) (page : PageId) (content : Bytes) : RawCall Report := do
  let image ← readPage pageSize page content
  let header ← readHeader image
  let offsets ← readOffsets image 0 header.count.toNat
  let slots ← slotsFrom pageSize image header offsets 0 offsets.length
  return ⟨page, pageSize, header, slots⟩

theorem slotsFrom_gives {image : Buffer} {header : Header} {offsets : List Nat} (leaf : RawLeaf)
    {slot rounds : Nat} (inside : slot + rounds = offsets.length) :
    (slotsFrom image.size image header offsets slot rounds).Gives leaf
      (Report.slotsOf image header (OffsetTable.ceiling offsets image.size slot)
        (offsets.drop slot)) := by
  induction rounds generalizing slot with
  | zero =>
    rw [List.drop_of_length_le (by omega)]
    exact .of_pure _
  | succ rounds ih =>
    have here : offsets[slot]? = some offsets[slot] := List.getElem?_eq_getElem (by omega)
    have next : OffsetTable.ceiling offsets image.size (slot + 1) = offsets[slot] := by
      rw [OffsetTable.ceiling, here]
      rfl
    have onward : slot + 1 + rounds = offsets.length := by omega
    have rest := ih onward
    rw [next] at rest
    rw [List.drop_eq_getElem_cons (by omega), slotsFrom, Report.slotsOf]
    refine .of_sure here (.of_sure (ceiling_eq (by omega) image.size) ?_)
    rw [OffsetTable.between]
    by_cases inverted : OffsetTable.ceiling offsets image.size slot < offsets[slot] ∨
        image.size < OffsetTable.ceiling offsets image.size slot
    · rw [if_pos inverted]
      exact .then_error (.of_ofExcept _)
    rw [if_neg inverted]
    refine .then_ok (.of_ofExcept _) (.then_ok (entryOffset_gives header.count.toNat_lt) ?_)
    show Gives _ leaf (if offsets[slot] < 11 + 2 * header.count.toNat then
        .error (.corruption .offsetInsideTable)
      else Report.slotsOf image header offsets[slot] (offsets.drop (slot + 1)) >>= fun others =>
        .ok (⟨offsets[slot], image.slice offsets[slot]
          (OffsetTable.ceiling offsets image.size slot - offsets[slot])⟩ :: others))
    by_cases low : offsets[slot] < 11 + 2 * header.count.toNat
    · rw [if_pos low, if_pos low]
      exact .of_throw _
    rw [if_neg low, if_neg low]
    refine .of_sure (sub_eq (by omega)) (.of_sure (if_pos (by omega)) ?_)
    exact .bind rest fun _ => .of_pure _

theorem openFile_gives (leaf : RawLeaf) (pageSize : Nat) (content : Bytes) :
    (openFile pageSize content.length).Gives leaf
      ((FileStore.ofFile pageSize (.ofBytes content)).map FileStore.pageCount) := by
  have length : (SparseFile.ofBytes content).length = content.length := rfl
  rw [openFile, FileStore.ofFile, length]
  cases valid : checkPageSize pageSize with
  | error fault => exact .then_error (.of_ofExcept _)
  | ok _ =>
    have small := ((checkPageSize_eq_ok_iff pageSize).mp valid).1
    have positive : pageSize ≠ 0 := Nat.ne_of_gt (Nat.lt_of_lt_of_le (by decide) small)
    refine .then_ok (.of_ofExcept _) (.of_sure (if_neg positive) ?_)
    simp only [bind, Except.bind]
    by_cases ragged : content.length % pageSize ≠ 0
    · rw [if_pos ragged, if_pos ragged]
      exact .of_throw _
    rw [if_neg ragged, if_neg ragged]
    refine .of_sure (if_neg positive) ?_
    by_cases many : UInt32.size ≤ content.length / pageSize
    · rw [if_pos many, if_pos many]
      exact .of_throw _
    · rw [if_neg many, if_neg many]
      exact .of_pure _

/-- A machine reads of a file what the store over it reads. -/
theorem readPage_gives (leaf : RawLeaf) (pageSize : Nat) (page : PageId) (content : Bytes) :
    (readPage pageSize page content).Gives leaf
      (FileStore.ofFile pageSize (.ofBytes content) >>= fun store => store.read page) := by
  have opened := openFile_gives leaf pageSize content
  cases opens : FileStore.ofFile pageSize (.ofBytes content) with
  | error fault =>
    rw [opens] at opened
    exact .then_error opened
  | ok store =>
  rw [opens] at opened
  obtain ⟨valid, _, _, same⟩ := FileStore.ofFile_ok opens
  have large := ((checkPageSize_eq_ok_iff pageSize).mp valid).2
  refine .then_ok opened ?_
  show Gives _ leaf (store.read page)
  rw [FileStore.read]
  cases unreserved : checkPageId page with
  | error fault => exact .then_error (.of_ofExcept _)
  | ok _ =>
    refine .then_ok (.of_ofExcept _) ?_
    have far : page.number.toNat * pageSize ≤ 2 ^ 32 * 65536 :=
      Nat.mul_le_mul page.number.toNat_lt.le large
    have limit : addressLimit = 2 ^ 64 := rfl
    refine .of_sure (mul_eq (by omega)) ?_
    simp only [bind, Except.bind]
    by_cases absent : store.pageCount ≤ page.number.toNat
    · have refused : store.isAllocated page = false := decide_eq_false (Nat.not_lt.mpr absent)
      rw [if_pos absent, refused]
      exact .of_throw _
    · have allocated : store.isAllocated page = true := decide_eq_true (Nat.lt_of_not_le absent)
      have kept := FileStore.read_eq (ne_reserved_of_checkPageId unreserved) allocated
      obtain ⟨inside, shown⟩ := FileStore.toList_of_read opens kept
      have room : pageSize ≤ 65536 := large
      rw [if_neg absent, allocated]
      refine .of_sure (add_eq (by omega)) (.of_sure (if_pos ⟨Nat.le_add_right .., inside⟩) ?_)
      rw [Buffer.slice_eq, Nat.add_sub_cancel_left, ← shown]
      exact .of_pure (store.file.window (store.offset page) store.pageSize)

/-- A machine makes of a file what is made of it, and stops at none. -/
theorem ofFile_gives (leaf : RawLeaf) (pageSize : Nat) (page : PageId) (content : Bytes) :
    (ofFile pageSize page content).Gives leaf (Report.ofFile pageSize page content).1 := by
  have opened := readPage_gives leaf pageSize page content
  rw [Report.ofFile]
  cases opens : FileStore.ofFile pageSize (.ofBytes content) with
  | error fault =>
    rw [opens] at opened
    exact .then_error opened
  | ok store =>
  rw [opens] at opened
  have opened : (readPage pageSize page content).Gives leaf (store.read page) := opened
  show Gives _ leaf (store.read page >>= Report.ofImage page)
  cases kept : store.read page with
  | error fault =>
    rw [kept] at opened
    exact .then_error opened
  | ok image =>
  rw [kept] at opened
  -- What is read is as long as a page, so that slots inside the page lie inside the image.
  obtain rfl : image.size = pageSize :=
    (FileStore.size_of_read kept).trans (FileStore.pageSize_of_ofFile opens)
  refine .then_ok opened ?_
  show Gives _ leaf (Report.ofImage page image)
  have head := readHeader_gives leaf image
  rw [Report.ofImage]
  cases decoded : Header.decode image with
  | error fault =>
    rw [decoded] at head
    exact .then_error head
  | ok header =>
    rw [decoded] at head
    refine .then_ok head (.bind (readTable_gives leaf decoded) fun offsets => ?_)
    exact .bind (@slotsFrom_gives image header offsets leaf 0 offsets.length (Nat.zero_add _))
      fun _ => .of_pure _

end RawReport

namespace Report

/-- Whatever the file, the page and its size are, a machine makes the report or fails where none is
made, and asks for no byte outside the page. A report that is made accounts for every byte of the
page. -/
theorem report_accounts (pageSize : Nat) (page : PageId) (content : Bytes) :
    let ended := (ofFile pageSize page content).1
    (∀ atHand engine, (RawReport.ofFile pageSize page content).on atHand engine =
        some ((ended, atHand), engine)) ∧
      ∀ report, ended = .ok report →
        report.page = page ∧ report.pageSize = pageSize ∧
          report.AccountsFor (content.slice (page.number.toNat * pageSize) pageSize) := by
  intro ended
  refine ⟨fun atHand => RawReport.ofFile_gives atHand pageSize page content, ?_⟩
  intro report made
  have made : (ofFile pageSize page content).1 = .ok report := made
  rw [ofFile] at made
  cases opens : FileStore.ofFile pageSize (.ofBytes content) with
  | error fault =>
    rw [opens] at made
    cases made
  | ok store =>
    rw [opens] at made
    obtain ⟨image, kept, made⟩ := except_bind_ok made
    have sized := (FileStore.size_of_read kept).trans (FileStore.pageSize_of_ofFile opens)
    have accounts := accountsFor_of_ofImage made
    rw [(FileStore.toList_of_read opens kept).2] at accounts
    obtain ⟨_, _, _, _, _, _, rfl⟩ := ofImage_ok made
    exact ⟨rfl, sized, accounts⟩

/-- A page with an empty slot, and one that ends with bytes of no row. -/
theorem report_accounts_gap :
    let rows : Bytes := (List.range 24).map UInt8.ofNat
    let image : Bytes := [0, 0, 0, 0, 4, 0, 0, 0, 1, 0, 3, 0, 54, 0, 54, 0, 40] ++
      List.replicate 23 0 ++ rows
    let report : Report := ⟨⟨1⟩, 64, ⟨none, .positionOnly, ⟨1⟩, 3⟩,
      [⟨54, rows.drop 14⟩, ⟨54, []⟩, ⟨40, rows.take 14⟩]⟩
    (ofFile 64 ⟨1⟩ (List.replicate 64 0 ++ image)).1 = .ok report ∧ report.freeSpace = 23 ∧
      report.AccountsFor image := by
  intro rows image report
  have made : (ofFile 64 ⟨1⟩ (List.replicate 64 0 ++ image)).1 = .ok report := by decide +kernel
  obtain ⟨_, _, accounts⟩ := (report_accounts 64 ⟨1⟩ (List.replicate 64 0 ++ image)).2 report made
  exact ⟨made, by decide +kernel, accounts⟩

end Report

end SlottedLeaf
