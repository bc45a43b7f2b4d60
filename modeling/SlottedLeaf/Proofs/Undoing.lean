import SlottedLeaf.Proofs.Room

/-!
# Taking out what was put in

An insertion moves the rows above down by the length of the new row, and a removal moves them up by
the bytes from the row taken out to the one before it. Where a row was put in without compacting the
leaf these are the same, so that taking it out again brings every row back to its place: a gap
stays where it was, and as large.
-/

namespace SlottedLeaf

open RowEntry

/-- What is answered when the greatest of the rows goes. -/
theorem Removal.between_concat (before : List RowEntry) (last : RowEntry) :
    between (before ++ [last]) [] = .lastChanged last.row := by
  simp [between]

namespace Leaf

variable {index : Index} {leaf later : Leaf} {entries grown before after : List RowEntry}
  {row : Row} {rows : List Row}

/-- `later` is the leaf again, with the same rows in the same places. -/
structure Regained (index : Index) (leaf later : Leaf) (rows : List Row) : Prop
    extends leaf.SamePage later where
  rows : later.Collects index rows
  offsets : later.offsets = leaf.offsets
  start : later.start = leaf.start
  form : later.form = leaf.form
  freeSpace : later.freeSpace index = leaf.freeSpace index

theorem Shows.regained (shows : leaf.Shows index entries) :
    leaf.Regained index (leaf.changed entries) (entries.map RowEntry.row) := by
  have again : (leaf.changed entries).Shows index entries := .of_changed leaf entries
  have start : (leaf.changed entries).start = leaf.start := by rw [again.start, shows.start]
  refine ⟨⟨rfl, rfl, rfl⟩, again.collects, by rw [again.offsets, shows.offsets], start, rfl, ?_⟩
  rw [Leaf.freeSpace, Leaf.freeSpace, again.lastOffset, shows.lastOffset, start]

/-- A row that was put between others is taken from between them. -/
theorem Sorted.remove_inserted (sorted : leaf.Sorted index (before ++ after))
    (fits : leaf.fits index (index.format.size leaf.form row))
    (low : ∀ other ∈ before.map RowEntry.row, other.Below row)
    (high : ∀ other ∈ after.map RowEntry.row, row.Below other) (held : before ++ after ≠ [])
    (unreserved : leaf.id ≠ .reserved) (engine : Engine) :
    let length := index.format.size leaf.form row
    ((remove index row).on (leaf.changed
        (RowEntry.insertBetween index.pageSize length row before after)) engine).1 =
      (.ok (.between before (shiftDown length after)), leaf.changed (before ++ after)) := by
  intro length
  have grown := sorted.insertBetween fits low high
  obtain ⟨outcome, later, last, ended, _, removes⟩ := grown.remove_on row engine
  rw [ended]
  cases removes with
  | absent _ absent =>
    refine absurd ?_ absent
    rw [rows_insertBetween]
    simp
  | only _ single =>
    have many := congrArg List.length single
    have some_held := List.length_pos_iff.mpr held
    rw [length_insertBetween, List.length_singleton] at many
    omega
  | taken split same _ =>
    -- The rows ascend, so the row stands in the one place where it was put.
    obtain ⟨rfl, rfl, rfl⟩ := split_unique grown.ascending split same
    have back := removeBetween_insertBetween row sorted.stacked
      (le_lowest_of_fits sorted.shows fits)
    rw [id_changed, checkPageId_of_ne unreserved, changed_changed, back]
    rfl

/-- A row that was put among others without compacting them is taken out again, and the leaf is
what it was. -/
theorem Places.remove (places : leaf.Places index entries row later grown)
    (sorted : leaf.Sorted index entries)
    (fits : leaf.fits index (index.format.size leaf.form row))
    (held : entries.map RowEntry.row ≠ []) (unreserved : leaf.id ≠ .reserved) (engine : Engine) :
    let rows := entries.map RowEntry.row
    let run := (Leaf.remove index row).on later engine
    ((Row.insertInOrder row rows).getLast? = some row →
        run.1.1 = .ok (.lastChanged (rows.getLast held))) ∧
      ((Row.insertInOrder row rows).getLast? ≠ some row → run.1.1 = .ok .unchanged) ∧
      leaf.Regained index run.1.2 rows := by
  intro rows run
  have named := places.rows
  cases places with
  | compacted _ short _ _ _ => exact absurd fits short
  | @fitted before after split _ low high =>
    subst split
    have ascending := (sorted.insertBetween fits low high).ascending
    have ended := sorted.remove_inserted fits low high (mt (congrArg _) held) unreserved engine
    rw [rows_insertBetween] at named ascending
    rw [show run.1 = _ from ended, ← named, ne_eq, Row.getLast?_eq_iff ascending,
      List.map_eq_nil_iff]
    refine ⟨?_, ?_, sorted.shows.regained⟩
    · rintro rfl
      rcases List.eq_nil_or_concat before with rfl | ⟨before, last, rfl⟩
      · exact absurd rfl held
      · simp [rows, shiftDown, Removal.between_concat]
    · intro above
      cases after with
      | nil => exact absurd rfl above
      | cons next after => rfl

/-- Removal undoes insertion. A row that has room is put on a leaf in order that holds others, gaps
or none; taken out again, it leaves every row, every offset, the form and the free bytes of the leaf
as they were. The answer names the last row if the row had become the last. -/
theorem remove_undoes_insert (standard : index.Standard) (passes : leaf.Passes index)
    (unreserved : leaf.id ≠ .reserved) (collects : leaf.Collects index rows) (held : rows ≠ [])
    (free : ¬ Conflicts index rows row)
    (room : index.format.size leaf.form row + entryLength ≤ leaf.freeSpace index)
    (engine between : Engine) :
    let grown := (insert index row).on leaf engine
    let undone := (remove index row).on grown.1.2 between
    grown.1.1 = .ok .inserted ∧ grown.1.2.Collects index (Row.insertInOrder row rows) ∧
      ((Row.insertInOrder row rows).getLast? = some row →
        undone.1.1 = .ok (.lastChanged (rows.getLast held))) ∧
      ((Row.insertInOrder row rows).getLast? ≠ some row → undone.1.1 = .ok .unchanged) ∧
      leaf.Regained index undone.1.2 rows := by
  intro grown undone
  obtain ⟨entries, shows, checked⟩ := passes
  have sorted := Sorted.of_checkLayout shows checked
  obtain rfl := shows.collects.unique collects engine
  have fits : leaf.fits index (index.format.size leaf.form row) := fits_iff_le_freeSpace.mpr room
  rcases sorted.insert_of_free standard unreserved free engine with
    ⟨short, _⟩ | ⟨inserted, _, places⟩
  · exact absurd fits short
  · exact ⟨inserted, places.collects rfl, places.remove sorted fits held unreserved between⟩

/-- A leaf with a gap above either of its rows, and a row that goes between them or below both. -/
theorem remove_undoes_insert_gaps :
    let index := Index.plain
    let row (letter : UInt8) : Row := ⟨some [letter], ⟨1⟩⟩
    let leaf := (create index ⟨1⟩ none .full).changed [⟨50, row 97⟩, ⟨30, row 99⟩]
    let undo (other : Row) := (remove index other).on
      ((insert index other).on leaf (.inMemory 64 1)).1.2 (.inMemory 64 1)
    (undo (row 98)).1.1 = .ok .unchanged ∧ (undo (row 98)).1.2.offsets = [50, 30] ∧
      (undo (row 100)).1.1 = .ok (.lastChanged (row 99)) ∧
      (undo (row 100)).1.2.offsets = [50, 30] := by
  intro index row leaf undo
  have standard : index.Standard := Index.smallest_standard _ _
  have passes : leaf.Passes index := ⟨_, .of_changed _ _, by cbv⟩
  have collects : leaf.Collects index [row 97, row 99] := (Shows.of_changed _ _).collects
  have between : ¬ Conflicts index [row 97, row 99] (row 98) := by
    unfold Conflicts
    decide
  have below : ¬ Conflicts index [row 97, row 99] (row 100) := by
    unfold Conflicts
    decide
  obtain ⟨-, -, -, middle, kept⟩ := remove_undoes_insert standard passes (by decide) collects
    (by decide) between (by cbv) (.inMemory 64 1) (.inMemory 64 1)
  obtain ⟨-, -, last, -, again⟩ := remove_undoes_insert standard passes (by decide) collects
    (by decide) below (by cbv) (.inMemory 64 1) (.inMemory 64 1)
  exact ⟨middle (by decide), kept.offsets, last (by decide), again.offsets⟩

end Leaf

end SlottedLeaf
