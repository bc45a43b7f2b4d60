import SlottedLeaf.Report.Basic
import SlottedLeaf.Proofs.PageImage
import SlottedLeaf.Proofs.Pages
import SlottedLeaf.Proofs.WellFormed

/-!
# Reports and leaves of one image

A report and a leaf are made of the same image by two readers. Both decode the header and the offset
table and go over the offsets once: a report asks of each slot that its row starts clear of the
table and not above its end, a leaf that the offsets do not ascend and lie inside the page. They
come to the same but for a row without bytes at the very end of the page, which a report takes and a
leaf refuses.
-/

namespace SlottedLeaf

variable {index : Index} {page : PageId} {image : Buffer} {header : Header}

/-! ## Offsets -/

/-- Rows start at the last offset, or at the end of a page without rows. -/
theorem Leaf.lastOffset_eq (index : Index) (leaf : Leaf) :
    leaf.lastOffset index = leaf.offsets.getLast?.getD index.pageSize := by
  have length : leaf.offsets.length = leaf.count := List.length_map ..
  rw [Leaf.lastOffset, ← length, List.getLast?_eq_getElem?]
  cases offsets : leaf.offsets with
  | nil => rfl
  | cons offset rest => rfl

namespace Report

/-- What an offset and the ceiling above it have that a slot is listed for. -/
theorem slotsOf_cons_ok {ceiling offset : Nat} {rest : List Nat} {slots : List SlotReport}
    (listed : slotsOf image header ceiling (offset :: rest) = .ok slots) :
    (header.offsetsEnd ≤ offset ∧ offset ≤ ceiling ∧ ceiling ≤ image.size) ∧
      ∃ others, slotsOf image header offset rest = .ok others ∧
        slots = ⟨offset, image.slice offset (ceiling - offset)⟩ :: others := by
  rw [slotsOf, OffsetTable.between] at listed
  obtain ⟨⟨start, stop⟩, between, listed⟩ := except_bind_ok listed
  obtain ⟨falls, between⟩ := except_guard_ok between
  cases between
  obtain ⟨clear, listed⟩ := except_guard_ok listed
  obtain ⟨others, later, listed⟩ := except_bind_ok listed
  cases listed
  exact ⟨by omega, others, later, rfl⟩

/-- A report lists the slots in the order of the offset table. -/
theorem slotsOf_ok {ceiling : Nat} {offsets : List Nat} {slots : List SlotReport}
    (listed : slotsOf image header ceiling offsets = .ok slots) :
    slots.map SlotReport.offset = offsets := by
  induction offsets generalizing ceiling slots with
  | nil =>
    cases listed
    rfl
  | cons offset rest ih =>
    obtain ⟨_, others, later, rfl⟩ := slotsOf_cons_ok listed
    rw [List.map_cons, ih later]

/-- Where a leaf takes the offsets, a report does. -/
theorem slotsOf_of_checkOffsets {ceiling : Nat} {offsets : List Nat} (under : ceiling ≤ image.size)
    (checked : Leaf.checkOffsets header.offsetsEnd image.size ceiling offsets = .ok ()) :
    (∃ slots, slotsOf image header ceiling offsets = .ok slots) ∧
      ∀ offset ∈ offsets, offset < image.size := by
  induction offsets generalizing ceiling with
  | nil => exact ⟨⟨[], rfl⟩, nofun⟩
  | cons offset rest ih =>
    rw [Leaf.checkOffsets] at checked
    obtain ⟨inside, checked⟩ := except_guard_ok checked
    obtain ⟨falls, checked⟩ := except_guard_ok checked
    obtain ⟨⟨slots, listed⟩, below⟩ := ih (by omega) checked
    refine ⟨⟨⟨offset, image.slice offset (ceiling - offset)⟩ :: slots, ?_⟩,
      List.forall_mem_cons.mpr ⟨by omega, below⟩⟩
    rw [slotsOf, OffsetTable.between, if_neg (by omega)]
    simp only [bind, Except.bind]
    rw [if_neg (by omega), listed]
    rfl

/-- Where a report takes offsets inside the page, a leaf does. -/
theorem checkOffsets_of_slotsOf {ceiling : Nat} {offsets : List Nat} {slots : List SlotReport}
    (listed : slotsOf image header ceiling offsets = .ok slots)
    (below : ∀ offset ∈ offsets, offset < image.size) :
    Leaf.checkOffsets header.offsetsEnd image.size ceiling offsets = .ok () := by
  induction offsets generalizing ceiling slots with
  | nil => rfl
  | cons offset rest ih =>
    obtain ⟨bounds, others, later, rfl⟩ := slotsOf_cons_ok listed
    obtain ⟨here, below⟩ := List.forall_mem_cons.mp below
    rw [Leaf.checkOffsets, if_neg (by omega), if_neg (by omega)]
    exact ih later below

/-! ## Images -/

/-- What an image has that a report is made of. -/
theorem ofImage_ok {report : Report} (made : ofImage page image = .ok report) :
    ∃ header offsets slots, Header.decode image = .ok header ∧
      OffsetTable.decode image header.count.toNat = .ok offsets ∧
      slotsOf image header image.size offsets = .ok slots ∧
      report = ⟨page, image.size, header, slots⟩ := by
  rw [ofImage] at made
  obtain ⟨header, decoded, made⟩ := except_bind_ok made
  obtain ⟨offsets, listed, made⟩ := except_bind_ok made
  obtain ⟨slots, found, made⟩ := except_bind_ok made
  cases made
  exact ⟨header, offsets, slots, decoded, listed, found, rfl⟩

/-- The report and the leaf have the same layout. -/
structure Describes (index : Index) (report : Report) (leaf : Leaf) : Prop where
  page : report.page = leaf.id
  pageSize : report.pageSize = index.pageSize
  parent : report.header.parent = leaf.parent
  table : report.header.table = index.table
  form : report.header.form = leaf.form
  count : report.header.count.toNat = leaf.count
  offsets : report.slots.map SlotReport.offset = leaf.offsets
  freeSpace : report.freeSpace = leaf.freeSpace index

/-- The report on an image and the leaf of it have the same layout. -/
theorem describes_of_ofImage {report : Report} {leaf : Leaf}
    (made : ofImage page image = .ok report) (shown : Leaf.ofImage index page image = .ok leaf) :
    report.Describes index leaf := by
  obtain ⟨header, offsets, slots, decoded, listed, found, rfl⟩ := ofImage_ok made
  obtain ⟨sized, same, again, redecoded, own, relisted, _, rfl⟩ := Leaf.ofImage_ok shown
  obtain rfl : header = same := Except.ok.inj (decoded.symm.trans redecoded)
  obtain rfl : offsets = again := Except.ok.inj (listed.symm.trans relisted)
  have few : (offsets.map fun offset => Slot.mk offset none).length = header.count.toNat := by
    rw [List.length_map, (OffsetTable.decodePairs_ok listed).1]
  have listing : (offsets.map fun offset => Slot.mk offset none).map Slot.offset = offsets := by
    rw [List.map_map]
    exact List.map_id offsets
  have reported := slotsOf_ok found
  refine ⟨rfl, sized, rfl, own, rfl, few.symm, reported.trans listing.symm, ?_⟩
  rw [freeSpace, rowsStart, ← List.getLast?_map, reported, Leaf.freeSpace, Leaf.lastOffset_eq,
    Leaf.offsets, listing, Leaf.start, Leaf.count, few, sized]
  rfl

/-- Of an image with the index's table, a leaf is read if a report is made and the rows start inside
the page. -/
theorem ofImage_iff (sized : image.size = index.pageSize)
    (own : ∀ header, Header.decode image = .ok header → header.table = index.table) :
    (∃ leaf, Leaf.ofImage index page image = .ok leaf) ↔
      ∃ report, ofImage page image = .ok report ∧
        ∀ slot ∈ report.slots, slot.offset < index.pageSize := by
  constructor
  · rintro ⟨leaf, shown⟩
    obtain ⟨_, header, offsets, decoded, _, listed, checked, rfl⟩ := Leaf.ofImage_ok shown
    obtain ⟨⟨slots, found⟩, below⟩ := slotsOf_of_checkOffsets le_rfl checked
    refine ⟨⟨page, image.size, header, slots⟩, ?_, ?_⟩
    · simp only [ofImage, bind, Except.bind, decoded, listed, found]
      rfl
    · intro slot among
      rw [← sized]
      refine below slot.offset ?_
      rw [← slotsOf_ok found]
      exact List.mem_map_of_mem among
  · rintro ⟨report, made, below⟩
    obtain ⟨header, offsets, slots, decoded, listed, found, rfl⟩ := ofImage_ok made
    have inside : ∀ offset ∈ offsets, offset < image.size := by
      rw [← slotsOf_ok found, sized]
      exact List.forall_mem_map.mpr below
    refine ⟨⟨page, header.parent, header.form, offsets.map (⟨·, none⟩), true, image⟩, ?_⟩
    have checked := checkOffsets_of_slotsOf found inside
    rw [Leaf.ofImage, if_neg (not_not.mpr sized)]
    simp only [bind, Except.bind, decoded, listed, checked]
    rw [if_neg (not_not.mpr (own header decoded))]
    rfl

/-- The offsets of a report have two bytes. -/
theorem offset_lt_of_ofImage {report : Report} (made : ofImage page image = .ok report) :
    ∀ slot ∈ report.slots, slot.offset < 65536 := by
  obtain ⟨header, offsets, slots, _, listed, found, rfl⟩ := ofImage_ok made
  have small := (OffsetTable.decodePairs_ok listed).2.1
  rw [← slotsOf_ok found] at small
  intro slot member
  exact Nat.lt_succ_of_le (List.forall_mem_map.mp small slot member)

end Report

/-! ## Files -/

/-- The store over a file has pages of the size that it was opened with. -/
theorem FileStore.pageSize_of_ofFile {pageSize : Nat} {file : SparseFile} {store : FileStore}
    (opens : ofFile pageSize file = .ok store) : store.pageSize = pageSize := by
  obtain ⟨_, _, _, rfl⟩ := ofFile_ok opens
  rfl

/-- A file store reads whole pages. -/
theorem FileStore.size_of_read {store : FileStore} (kept : store.read page = .ok image) :
    image.size = store.pageSize := by
  have kept : (Store.file store).read page = .ok image := kept
  obtain ⟨_, rfl⟩ := Store.read_eq_ok_iff.mp kept
  exact SparseFile.size_window ..

theorem Leaf.read_outcome (index : Index) (page : PageId) (image : Buffer) (engine : Engine) :
    ((read index page image).on engine).1 = ofImage index page image := by
  rw [read_on]
  cases ofImage index page image <;> rfl

namespace Report

variable {content : Bytes} {store : FileStore}

theorem ofFile_eq (opens : FileStore.ofFile index.pageSize (.ofBytes content) = .ok store)
    (kept : store.read page = .ok image) :
    (ofFile index.pageSize page content).1 = ofImage page image := by
  rw [ofFile, opens]
  simp only [kept]
  rfl

/-- Of a page of a file, a report is made where an index with the page's table reads a leaf, and
otherwise only of a page with a row that starts at its very end, which no page of 65536 bytes has.
A report and a leaf of one page have the same layout. -/
theorem report_iff_leaf (engine : Engine)
    (opens : FileStore.ofFile index.pageSize (.ofBytes content) = .ok store)
    (kept : store.read page = .ok image)
    (own : ∀ header, Header.decode image = .ok header → header.table = index.table) :
    let reported := (ofFile index.pageSize page content).1
    let read := ((Leaf.read index page image).on engine).1
    ((∃ leaf, read = .ok leaf) ↔
        ∃ report, reported = .ok report ∧ ∀ slot ∈ report.slots, slot.offset < index.pageSize) ∧
      (65536 ≤ index.pageSize → ((∃ leaf, read = .ok leaf) ↔ ∃ report, reported = .ok report)) ∧
      ∀ report leaf, reported = .ok report → read = .ok leaf → report.Describes index leaf := by
  intro reported read
  have made : reported = ofImage page image := ofFile_eq opens kept
  have shown : read = Leaf.ofImage index page image := Leaf.read_outcome ..
  have sized : image.size = index.pageSize :=
    (FileStore.size_of_read kept).trans (FileStore.pageSize_of_ofFile opens)
  have accepts : (∃ leaf, Leaf.ofImage index page image = .ok leaf) ↔ _ := ofImage_iff sized own
  rw [made, shown]
  refine ⟨accepts, ?_, fun report leaf => describes_of_ofImage⟩
  intro large
  rw [accepts]
  constructor
  · rintro ⟨report, made, _⟩
    exact ⟨report, made⟩
  · rintro ⟨report, made⟩
    refine ⟨report, made, ?_⟩
    intro slot among
    exact Nat.lt_of_lt_of_le (offset_lt_of_ofImage made slot among) large

/-- A root page with two rows of ten bytes. -/
def twoRows : Bytes :=
  [0, 0, 0, 0, 132, 0, 0, 0, 1, 0, 2, 0, 54, 0, 44] ++ List.replicate 29 0 ++
    [0, 0, 0, 0, 0, 0, 0, 2, 2, 98] ++ [0, 0, 0, 0, 0, 0, 0, 1, 2, 97]

/-- The report on that page in a file, and the leaf that is read of it. -/
theorem report_iff_leaf_twoRows :
    let content := List.replicate 64 0 ++ twoRows
    let report : Report := ⟨⟨1⟩, 64, ⟨none, .full, ⟨1⟩, 2⟩,
      [⟨54, [0, 0, 0, 0, 0, 0, 0, 1, 2, 97]⟩, ⟨44, [0, 0, 0, 0, 0, 0, 0, 2, 2, 98]⟩]⟩
    let leaf : Leaf := ⟨⟨1⟩, none, .full, [⟨54, none⟩, ⟨44, none⟩], true, twoRows.toArray⟩
    (ofFile Index.plain.pageSize ⟨1⟩ content).1 = .ok report ∧
      ((Leaf.read .plain ⟨1⟩ twoRows.toArray).on (.inMemory 64 1)).1 = .ok leaf ∧
      report.Describes .plain leaf := by
  intro content report leaf
  have opens : FileStore.ofFile Index.plain.pageSize (.ofBytes content) =
      .ok ⟨64, .ofBytes content, 2, .empty⟩ := by decide +kernel
  have kept : FileStore.read ⟨64, .ofBytes content, 2, .empty⟩ ⟨1⟩ = .ok twoRows.toArray := by
    decide +kernel
  have own : ∀ header, Header.decode twoRows.toArray = .ok header →
      header.table = Index.plain.table := by
    rintro _ ⟨⟩
    rfl
  have made : (ofFile Index.plain.pageSize ⟨1⟩ content).1 = .ok report := by decide +kernel
  have shown : ((Leaf.read .plain ⟨1⟩ twoRows.toArray).on (.inMemory 64 1)).1 = .ok leaf := by
    decide +kernel
  obtain ⟨_, _, same⟩ := report_iff_leaf (.inMemory 64 1) opens kept own
  exact ⟨made, shown, same report leaf made shown⟩

/-- A root page with a row that has no bytes and starts at the end of the page. -/
def endingPage : Bytes :=
  [0, 0, 0, 0, 132, 0, 0, 0, 1, 0, 1, 0, 64] ++ List.replicate 51 0

/-- A report is made of that page, and no leaf is read of it. -/
theorem ending_row_reported :
    let content := List.replicate 64 0 ++ endingPage
    let store : FileStore := ⟨64, .ofBytes content, 2, .empty⟩
    FileStore.ofFile Index.plain.pageSize (.ofBytes content) = .ok store ∧
      store.read ⟨1⟩ = .ok endingPage.toArray ∧
      Header.decode endingPage.toArray = .ok ⟨none, .full, Index.plain.table, 1⟩ ∧
      (ofFile Index.plain.pageSize ⟨1⟩ content).1 =
        .ok ⟨⟨1⟩, 64, ⟨none, .full, Index.plain.table, 1⟩, [⟨64, []⟩]⟩ ∧
      ((Leaf.read .plain ⟨1⟩ endingPage.toArray).on (.inMemory 64 1)).1 =
        .error (.corruption .offsetOutsideData) := by decide +kernel

end Report

end SlottedLeaf
