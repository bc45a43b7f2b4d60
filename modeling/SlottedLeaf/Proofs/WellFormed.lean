import SlottedLeaf.Proofs.Searching
import SlottedLeaf.Proofs.Slots
import SlottedLeaf.Proofs.Stores

/-!
# Well-formed leaves

A leaf is laid out if its rows lie apart from each other and from the offset table. It is
well-formed if, besides, its rows ascend and, in a unique index, no two of them share a key that is
not NULL. Rows that are still encoded count as what they decode to.
-/

namespace SlottedLeaf

open RowEntry

/-! ## Indexes -/

/-- The index keeps its rows in the standard format, on pages of a size that stores accept. -/
structure Index.Standard (index : Index) : Prop where
  pageSize : checkPageSize index.pageSize = .ok ()
  format : ∃ resolve, index.format = .standard resolve

/-- The index, with rows looked up elsewhere. -/
def Index.lookingUp (index : Index) (resolve : RowPos → Except Fault Row) : Index :=
  { index with format := { index.format with resolve } }

/-- Whether an index is standard does not depend on where rows are looked up. -/
theorem Index.standard_lookingUp {index : Index} {resolve : RowPos → Except Fault Row} :
    (index.lookingUp resolve).Standard ↔ index.Standard := by
  constructor
  · rintro ⟨pageSize, other, same⟩
    exact ⟨pageSize, index.format.resolve,
      congrArg (fun format => { format with resolve := index.format.resolve }) same⟩
  · rintro ⟨pageSize, other, same⟩
    exact ⟨pageSize, resolve, congrArg (fun format => { format with resolve }) same⟩

namespace Index.Standard

variable {index : Index} (standard : index.Standard)

include standard

theorem le_pageSize : 64 ≤ index.pageSize :=
  ((checkPageSize_eq_ok_iff _).mp standard.pageSize).1

theorem pageSize_le : index.pageSize ≤ 65536 :=
  ((checkPageSize_eq_ok_iff _).mp standard.pageSize).2

theorem size_positionOnly (row : Row) : index.format.size .positionOnly row = 8 := by
  obtain ⟨resolve, same⟩ := standard.format
  rw [same]
  rfl

/-- Every row holds its position. -/
theorem le_size (form : RowForm) (row : Row) : 8 ≤ index.format.size form row := by
  cases form with
  | positionOnly => exact Nat.le_of_eq (standard.size_positionOnly row).symm
  | full =>
    simp only [RowFormat.size, positionLength]
    omega

theorem mayRepeat (row : Row) : index.format.mayRepeat row = row.key.isNone := by
  obtain ⟨resolve, same⟩ := standard.format
  rw [same]
  rfl

/-- A standard index refuses a row beside the same row, and a unique one a key beside the same key,
unless it is NULL. -/
theorem refuses_iff {target row : Row} :
    index.Refuses target row ↔
      row = target ∨ index.options.unique ∧ target.key ≠ none ∧ row.key = target.key := by
  rw [Index.Refuses, standard.mayRepeat]
  simp

end Index.Standard

/-- An index that was opened over a store is served by it, and standard if its format is. -/
theorem Index.attach_serves {table : TableId} {options : Options}
    {resolve : RowPos → Except Fault Row} {engine later : Engine} {index : Index}
    (opened : 0 < engine.store.nextPage)
    (attached : (attach table options (.standard resolve)).on engine = (.ok index, later)) :
    index.Standard ∧ later.Serves index := by
  simp only [attach, EngineCall.on_bind, EngineCall.on_get, EngineCall.on_ofExcept] at attached
  cases checked : checkPageSize engine.store.pageSize with
  | error fault =>
    rw [checked] at attached
    cases attached
  | ok _ =>
    rw [checked] at attached
    cases attached
    exact ⟨⟨checked, resolve, rfl⟩, rfl, opened⟩

def Index.smallest (options : Options) (resolve : RowPos → Except Fault Row) : Index :=
  ⟨⟨1⟩, minPageSize, options, .standard resolve⟩

/-- An index without a table to resolve position-only rows, on pages of the smallest size. -/
def Index.plain : Index := .smallest .default fun _ => .error (.corruption .rowNotInTable)

theorem Index.smallest_standard (options : Options) (resolve : RowPos → Except Fault Row) :
    (smallest options resolve).Standard :=
  ⟨rfl, resolve, rfl⟩

namespace Leaf

variable {index : Index} {leaf : Leaf} {entries : List RowEntry}

/-! ## Leaves -/

/-- The leaf shows these entries, and its rows lie apart from each other and from the offset
table. -/
structure Lays (index : Index) (leaf : Leaf) (entries : List RowEntry) : Prop where
  image : leaf.image.size = index.pageSize
  shows : leaf.Shows index entries
  stacked : Stacked (index.format.size leaf.form) index.pageSize entries
  clear : leaf.start ≤ lowest index.pageSize entries

/-- Besides, the rows ascend, and a unique index keeps no key twice. -/
structure Holds (index : Index) (leaf : Leaf) (entries : List RowEntry) : Prop
    extends leaf.Lays index entries where
  ascending : Row.Ascending (entries.map RowEntry.row)
  distinct : index.options.unique → Row.KeysDiffer (entries.map RowEntry.row)

/-- The leaf is as the check of the layout asks for once its rows are decoded: they lie apart from
each other and from the offset table, and ascend. -/
structure Sorted (index : Index) (leaf : Leaf) (entries : List RowEntry) : Prop where
  shows : leaf.Shows index entries
  stacked : Stacked (index.format.size leaf.form) index.pageSize entries
  clear : leaf.start ≤ lowest index.pageSize entries
  ascending : Row.Ascending (entries.map RowEntry.row)

/-- The leaf is in order, whatever rows it holds. -/
def WellFormed (index : Index) (leaf : Leaf) : Prop := ∃ entries, leaf.Holds index entries

/-- The leaf has no gaps between its rows. -/
def IsPacked (index : Index) (leaf : Leaf) (entries : List RowEntry) : Prop :=
  Packed (index.format.size leaf.form) index.pageSize entries

theorem Shows.start (shows : leaf.Shows index entries) :
    leaf.start = headerLength + entryLength * entries.length := by
  rw [Leaf.start, shows.count]

theorem Shows.lastOffset (shows : leaf.Shows index entries) :
    leaf.lastOffset index = lowest index.pageSize entries := by
  have last := ceiling_eq_lowest index.pageSize entries []
  rw [List.append_nil] at last
  rw [Leaf.lastOffset, shows.offsets, shows.count, last]

theorem Shows.fits_iff (shows : leaf.Shows index entries) {length : Nat} :
    leaf.fits index length ↔
      leaf.start + entryLength + length ≤ lowest index.pageSize entries := by
  rw [Leaf.fits, decide_eq_true_iff, shows.lastOffset]

/-- What fits is what the free bytes are enough for, an entry in the offset table included. -/
theorem fits_iff_le_freeSpace {length : Nat} :
    leaf.fits index length ↔ length + entryLength ≤ leaf.freeSpace index := by
  have entry : 0 < entryLength := by decide
  rw [Leaf.fits, decide_eq_true_iff, Leaf.freeSpace]
  omega

/-- What fits a leaf does not depend on which rows are decoded. -/
theorem Shows.fits_holding (shows : leaf.Shows index entries) (length : Nat) :
    (leaf.holding entries).fits index length = leaf.fits index length := by
  rw [Bool.eq_iff_iff, (Shows.of_holding leaf entries).fits_iff, shows.fits_iff, start_holding,
    shows.start]

theorem Sorted.of_checkLayout (shows : leaf.Shows index entries)
    (checked : (leaf.holding entries).checkLayout index = .ok ()) : leaf.Sorted index entries := by
  obtain ⟨others, slots, stacked, ascending, clear⟩ := entries_of_checkLayout checked
  obtain rfl := List.map_injective_iff.mpr slot_injective slots
  rw [start_holding, ← shows.start] at clear
  exact ⟨shows, stacked, clear, ascending⟩

theorem Sorted.of_holding (stacked : Stacked (index.format.size leaf.form) index.pageSize entries)
    (clear : headerLength + entryLength * entries.length ≤ lowest index.pageSize entries)
    (ascending : Row.Ascending (entries.map RowEntry.row)) :
    (leaf.holding entries).Sorted index entries where
  shows := .of_holding leaf entries
  stacked
  clear := by
    rw [start_holding]
    exact clear
  ascending

/-- Whether the leaf is written does not matter to the order of its rows. -/
theorem Sorted.changed (sorted : (leaf.holding entries).Sorted index entries) :
    (leaf.changed entries).Sorted index entries :=
  ⟨sorted.shows, sorted.stacked, sorted.clear, sorted.ascending⟩

/-- The layout check accepts sorted rows, all decoded. -/
theorem Sorted.checkLayout (sorted : (leaf.holding entries).Sorted index entries) :
    (leaf.holding entries).checkLayout index = .ok () := by
  have checked : checkSlots (index.format.size leaf.form) index.pageSize none
      (entries.map RowEntry.slot) = .ok (lowest index.pageSize entries) :=
    checkSlots_eq sorted.stacked sorted.ascending
  rw [Leaf.checkLayout, slots_holding, form_holding, checked]
  exact if_neg (Nat.not_lt.mpr sorted.clear)

theorem Sorted.checkInvariants (sorted : (leaf.changed entries).Sorted index entries) :
    (leaf.changed entries).checkInvariants index = .ok () := by
  have held : ((leaf.changed entries).holding entries).Sorted index entries := sorted
  have checked : (leaf.changed entries).checkLayout index = .ok () := held.checkLayout
  rw [Leaf.checkInvariants, checked, ite_self]

theorem Sorted.holds (sorted : leaf.Sorted index entries) (image : leaf.image.size = index.pageSize)
    (distinct : index.options.unique → Row.KeysDiffer (entries.map RowEntry.row)) :
    leaf.Holds index entries :=
  ⟨⟨image, sorted.shows, sorted.stacked, sorted.clear⟩, sorted.ascending, distinct⟩

theorem Holds.sorted (holds : leaf.Holds index entries) : leaf.Sorted index entries :=
  ⟨holds.shows, holds.stacked, holds.clear, holds.ascending⟩

/-- A leaf with every row decoded is in order if its entries are. -/
theorem Holds.of_holding (image : leaf.image.size = index.pageSize)
    (stacked : Stacked (index.format.size leaf.form) index.pageSize entries)
    (clear : headerLength + entryLength * entries.length ≤ lowest index.pageSize entries)
    (ascending : Row.Ascending (entries.map RowEntry.row))
    (distinct : index.options.unique → Row.KeysDiffer (entries.map RowEntry.row)) :
    (leaf.holding entries).Holds index entries where
  image
  shows := .of_holding leaf entries
  stacked
  clear := by
    rw [start_holding]
    exact clear
  ascending
  distinct

theorem Holds.create (standard : index.Standard) (id : PageId) (parent : Option PageId)
    (form : RowForm) : (create index id parent form).Holds index [] where
  image := by simp [Leaf.create, Buffer.zeros]
  shows := .nil
  stacked := trivial
  clear := by
    have page := standard.le_pageSize
    simp only [start, count, Leaf.create, List.length_nil, headerLength, lowest]
    omega
  ascending := .nil
  distinct := fun _ => .nil

/-- Whether the leaf is written does not matter to its order. -/
theorem Holds.changed (holds : (leaf.holding entries).Holds index entries) :
    (leaf.changed entries).Holds index entries :=
  ⟨⟨holds.image, holds.shows, holds.stacked, holds.clear⟩, holds.ascending, holds.distinct⟩

/-- The leaf that holds rows without gaps. -/
def ofRows (index : Index) (id : PageId) (parent : Option PageId) (form : RowForm)
    (rows : List Row) : Leaf :=
  (create index id parent form).changed (pack (index.format.size form) index.pageSize rows)

/-- Rows in order that fit a page make a leaf in order. -/
theorem Holds.ofRows (id : PageId) (parent : Option PageId) (form : RowForm) {rows : List Row}
    (room : headerLength + entryLength * rows.length + RowEntry.room (index.format.size form) rows ≤
      index.pageSize)
    (ascending : Row.Ascending rows) (distinct : index.options.unique → Row.KeysDiffer rows) :
    (ofRows index id parent form rows).Holds index
      (pack (index.format.size form) index.pageSize rows) := by
  have packed : Packed (index.format.size form) index.pageSize
      (pack (index.format.size form) index.pageSize rows) := packed_pack (by omega)
  have used := packed.room_eq
  rw [rows_pack] at used
  refine (Holds.of_holding ?_ packed.stacked ?_ (by rwa [rows_pack]) (by rwa [rows_pack])).changed
  · simp [Leaf.create, Buffer.zeros]
  · rw [length_pack]
    omega

theorem Sorted.decodes {n : Nat} {later : Leaf} (sorted : leaf.Sorted index entries)
    (decodes : leaf.Decodes index n later) : later.Sorted index entries where
  shows := sorted.shows.decodes decodes
  stacked := by
    rw [decodes.rest]
    exact sorted.stacked
  clear := by
    rw [(sorted.shows.decodes decodes).start, ← sorted.shows.start]
    exact sorted.clear
  ascending := sorted.ascending

theorem Lays.decodes {n : Nat} {later : Leaf} (lays : leaf.Lays index entries)
    (decodes : leaf.Decodes index n later) : later.Lays index entries where
  image := by
    rw [decodes.rest]
    exact lays.image
  shows := lays.shows.decodes decodes
  stacked := by
    rw [decodes.rest]
    exact lays.stacked
  clear := by
    rw [(lays.shows.decodes decodes).start, ← lays.shows.start]
    exact lays.clear

theorem Holds.decodes {n : Nat} {later : Leaf} (holds : leaf.Holds index entries)
    (decodes : leaf.Decodes index n later) : later.Holds index entries where
  toLays := holds.toLays.decodes decodes
  ascending := holds.ascending
  distinct := holds.distinct

end Leaf

end SlottedLeaf
