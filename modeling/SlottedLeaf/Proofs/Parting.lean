import SlottedLeaf.Proofs.Effects
import SlottedLeaf.Proofs.Splitting
import Mathlib.Algebra.BigOperators.Intervals

/-!
# What a split leaves on either side

A split cuts the rows of a leaf in two. Those before the split point stay where they are; the others
go to the new leaf, without gaps. So the bytes that the new leaf has left follow from its rows,
while the leaf that was split gains all that lay between the rows it gave up as well.
-/

namespace SlottedLeaf.Leaf

open RowEntry

variable {index : Index} {leaf left right : Leaf} {keep rest moved : List RowEntry}
  {rows : List Row} {engine : Engine}

/-- The bytes from the start of a slot's row to the row before it, or to the end of the page. -/
def extentLength (index : Index) (leaf : Leaf) (slot : Nat) : Nat :=
  match OffsetTable.extent leaf.offsets index.pageSize slot with
  | .ok (start, stop) => stop - start
  | .error _ => 0

/-- What is on either side of a split: `left` is `leaf` with the rows before `point`, and `right` is
a new leaf with the others. -/
structure Parted (index : Index) (leaf : Leaf) (rows : List Row) (point : Nat)
    (left right : Leaf) : Prop where
  page : leaf.SamePage left
  form : left.form = leaf.form
  dirty : left.isDirty
  wellFormed : left.WellFormed index
  stays : left.Collects index (rows.take point)
  offsets : left.offsets = leaf.offsets.take point
  freeSpace : left.freeSpace index = leaf.freeSpace index +
    ∑ slot ∈ Finset.Ico point leaf.count, (entryLength + leaf.extentLength index slot)
  newParent : right.parent = leaf.parent
  newForm : right.form = leaf.form
  newDirty : right.isDirty
  newWellFormed : right.WellFormed index
  moves : right.Collects index (rows.drop point)
  newOffsets : right.offsets =
    (pack (index.format.size leaf.form) index.pageSize (rows.drop point)).map RowEntry.offset
  newFreeSpace : headerLength +
      ((rows.drop point).map fun row => entryLength + index.format.size leaf.form row).sum +
      right.freeSpace index = index.pageSize

/-! ## Bytes on either side -/

theorem extentLength_eq {size : Row → Nat} {entry : RowEntry}
    (offsets : leaf.offsets = (keep ++ entry :: rest).map RowEntry.offset)
    (stacked : Stacked size index.pageSize (keep ++ entry :: rest)) :
    leaf.extentLength index keep.length = lowest index.pageSize keep - entry.offset := by
  rw [extentLength, offsets, extent_eq stacked]

/-- The rows from a place on, with what lies between them, reach from the lowest of them up to that
place. -/
theorem sum_extentLength {size : Row → Nat}
    (offsets : leaf.offsets = (keep ++ rest).map RowEntry.offset)
    (stacked : Stacked size index.pageSize (keep ++ rest)) :
    ∑ slot ∈ Finset.Ico keep.length (keep ++ rest).length,
        (entryLength + leaf.extentLength index slot) + lowest index.pageSize (keep ++ rest) =
      lowest index.pageSize keep + entryLength * rest.length := by
  induction rest generalizing keep with
  | nil => simp
  | cons entry rest ih =>
    have more : keep.length < (keep ++ entry :: rest).length := by simp
    have below := (stacked_append.mp stacked).2.1
    have bottom : lowest index.pageSize (keep ++ [entry]) = entry.offset := by
      rw [lowest_append, lowest, lowest]
    have others := @ih (keep ++ [entry]) (by simpa using offsets) (by simpa using stacked)
    rw [bottom, List.append_assoc, List.singleton_append, @List.length_append _ keep] at others
    rw [Finset.sum_eq_sum_Ico_succ_bot more, extentLength_eq offsets stacked, List.length_cons]
    simp only [List.length_singleton, entryLength] at others ⊢
    omega

/-- A leaf that keeps its first rows gains the bytes of the others, with what lies between them, and
their entries in the offset table. -/
theorem freeSpace_of_stays (holds : leaf.Holds index (keep ++ rest))
    (stays : (leaf.changed keep).Holds index keep) :
    (leaf.changed keep).freeSpace index = leaf.freeSpace index +
      ∑ slot ∈ Finset.Ico keep.length leaf.count,
        (entryLength + leaf.extentLength index slot) := by
  have reach := sum_extentLength holds.shows.offsets holds.stacked
  have clear := holds.clear
  have kept := stays.clear
  rw [holds.shows.start, List.length_append] at clear
  rw [start_changed] at kept
  rw [Leaf.freeSpace, Leaf.freeSpace, stays.shows.lastOffset, holds.shows.lastOffset, start_changed,
    holds.shows.start, holds.shows.count]
  simp only [List.length_append, entryLength] at reach clear kept ⊢
  omega

/-- A leaf without gaps has left what its rows and their entries do not take. -/
theorem freeSpace_of_packed (holds : right.Holds index moved) (packed : right.IsPacked index moved)
    (named : moved.map RowEntry.row = rows) :
    headerLength + (rows.map fun row => entryLength + index.format.size right.form row).sum +
      right.freeSpace index = index.pageSize := by
  have used := packed.room_eq
  have clear := holds.clear
  have length : rows.length = moved.length := by rw [← named, List.length_map]
  rw [holds.shows.start] at clear
  rw [Leaf.freeSpace, holds.shows.lastOffset, holds.shows.start, List.sum_map_add]
  simp only [room, named, List.map_const', List.sum_replicate_nat, length, entryLength]
    at used clear ⊢
  omega

/-! ## Splits -/

theorem Parts.parted (parts : leaf.Parts index keep rest right moved)
    (holds : leaf.Holds index (keep ++ rest))
    (named : (keep ++ rest).map RowEntry.row = rows) :
    leaf.Parted index rows keep.length (leaf.changed keep) right := by
  obtain ⟨stays, moves, packed, same, _, fresh⟩ := parts
  have cut : (keep.map RowEntry.row).length = keep.length := List.length_map ..
  have before : keep.map RowEntry.row = rows.take keep.length := by
    rw [← named, List.map_append, List.take_left' cut]
  have behind : moved.map RowEntry.row = rows.drop keep.length := by
    rw [same, ← named, List.map_append, List.drop_left' cut]
  have form : right.form = leaf.form := by
    rw [fresh]
    rfl
  refine {
    page := ⟨rfl, rfl, rfl⟩
    form := rfl
    dirty := rfl
    wellFormed := ⟨keep, stays⟩
    stays := before ▸ stays.shows.collects
    offsets := ?_
    freeSpace := freeSpace_of_stays holds stays
    newParent := ?_
    newForm := form
    newDirty := ?_
    newWellFormed := ⟨moved, moves⟩
    moves := behind ▸ moves.shows.collects
    newOffsets := ?_
    newFreeSpace := form ▸ freeSpace_of_packed moves packed behind }
  · rw [stays.shows.offsets, holds.shows.offsets, List.map_append,
      List.take_left' (List.length_map ..)]
  · rw [fresh]
    rfl
  · rw [fresh]
    rfl
  · rw [moves.shows.offsets, ← behind, ← form, ← packed.eq_pack]

/-- A split is exact. At a point that would leave a leaf without rows, or when no page is left, it
fails and nothing has changed. At any other it succeeds: the rows before the point stay where they
are, and those from there on are on a new leaf on the page that the store hands out, in order and
without gaps. -/
theorem split_parts_rows (standard : index.Standard) (wellFormed : leaf.WellFormed index)
    (collects : leaf.Collects index rows) (serves : engine.Serves index) (point : Nat) :
    (point = 0 ∨ leaf.count ≤ point →
        (split index point).on leaf engine = ((.error (.invalid .splitPoint), leaf), engine)) ∧
      (0 < point ∧ point < leaf.count → pageIdLimit ≤ engine.store.nextPage →
        (split index point).on leaf engine = ((.error (.invalid .pagesExhausted), leaf), engine)) ∧
      (0 < point ∧ point < leaf.count → engine.store.nextPage < pageIdLimit →
        ∃ left right after, (split index point).on leaf engine = ((.ok right, left), after) ∧
          (∃ store, engine.store.allocate = .ok (right.id, store)) ∧
          engine.store.Grows 1 after.store ∧ leaf.Parted index rows point left right) := by
  refine ⟨fun outside => split_of_outside outside engine, ?_, ?_⟩
  · intro inside full
    exact split_of_full (by omega) full
  · intro inside room
    obtain ⟨entries, holds⟩ := wellFormed
    obtain ⟨outcome, left, after, n, run, grows, splits⟩ := split_on standard holds point serves
    cases splits with
    | refused outside =>
      rw [← holds.shows.count] at outside
      omega
    | exhausted _ full => omega
    | @parted keep rest moved right split cut _ _ _ parts =>
      subst split
      subst cut
      obtain ⟨_, _, store, _, _, allocated, _⟩ := split_ok run
      exact ⟨_, right, after, run, ⟨store, allocated⟩, grows,
        parts.parted holds (holds.shows.collects.unique collects engine)⟩

/-- Two NULL keys and a key above them, with six bytes to spare above the last row. -/
def gapped : List RowEntry := [⟨55, ⟨none, ⟨1⟩⟩⟩, ⟨46, ⟨none, ⟨2⟩⟩⟩, ⟨30, ⟨some [97], ⟨1⟩⟩⟩]

/-- So it is when a leaf of a unique index with two NULL keys and a gap is split between these. -/
theorem split_parts_rows_gapped :
    let index := Index.smallest ⟨true, true⟩ fun _ => .error (.corruption .rowNotInTable)
    let leaf := (create index ⟨1⟩ none .full).changed gapped
    ∃ left right after, (split index 1).on leaf (.inMemory 64 1) = ((.ok right, left), after) ∧
      leaf.Parted index (gapped.map RowEntry.row) 1 left right ∧ right.offsets = [55, 45] := by
  intro index leaf
  have standard : index.Standard := Index.smallest_standard _ _
  have holds : leaf.Holds index gapped :=
    (Sorted.of_checkLayout (.of_changed _ _) (by cbv)).holds (by rfl) (by decide)
  obtain ⟨left, right, after, run, _, _, parted⟩ :=
    (split_parts_rows standard ⟨_, holds⟩ holds.shows.collects (Engine.inMemory_serves index 1)
      1).2.2 (by decide) (by decide)
  exact ⟨left, right, after, run, parted, parted.newOffsets.trans (by cbv)⟩

end SlottedLeaf.Leaf
