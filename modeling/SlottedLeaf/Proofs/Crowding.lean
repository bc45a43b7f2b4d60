import SlottedLeaf.Proofs.Room

/-!
# Leaves that stay too crowded

A format may keep much room for a position-only row. A leaf with one row at most then goes over to
position-only rows for a new one and may have no room for it still: the insertion fails, and the
leaf has changed. It is as good a leaf as before: no row has grown, so that the row it holds has its
place at the end of the page, and to try again changes nothing more.
-/

namespace SlottedLeaf.Leaf

open RowEntry

variable {index : Index} {leaf later : Leaf} {entries : List RowEntry} {row : Row}
  {rows : List Row} {engine after : Engine}

/-- `later` is the leaf with the same rows, position-only and at the end of the page, and it passes
the check of the layout. -/
structure Slimmed (index : Index) (leaf later : Leaf) (rows : List Row) : Prop
    extends leaf.SamePage later where
  rows : later.Collects index rows
  count : later.count = leaf.count
  start : later.start = leaf.start
  form : later.form = .positionOnly
  dirty : later.isDirty
  offsets : ∀ offset ∈ later.offsets,
    offset + index.format.positionSize = index.pageSize ∧ later.start ≤ offset
  passes : later.Passes index

theorem shrinks_of_form (form : leaf.form = .positionOnly) (rows : List Row) :
    leaf.Shrinks index rows := by
  intro row _
  rw [form]

/-- What an insertion answers on a leaf that is not crowded is no breach of the layout. -/
theorem Inserts.ne_internal {outcome : Except Fault Insertion}
    (inserts : leaf.Inserts index entries row outcome later) (cause : Breach) :
    outcome ≠ .error (.internal cause) := by
  cases inserts with
  | refused _ _ => nofun
  | full _ _ _ => nofun
  | placed _ _ =>
    rw [checkPageId]
    split <;> nofun

/-- A leaf that goes over to position-only rows is slimmed if it has one row at most. -/
theorem Sorted.slimmed (sorted : leaf.Sorted index entries)
    (shrinks : leaf.Shrinks index (entries.map RowEntry.row)) (few : entries.length ≤ 1) :
    leaf.Slimmed index
      (leaf.compacted.holding
        (pack (index.format.size .positionOnly) index.pageSize (entries.map RowEntry.row)))
      (entries.map RowEntry.row) := by
  have slim := sorted.compacted shrinks
  have packed := sorted.packed_of_shrinks shrinks
  have collects := slim.shows.collects
  rw [rows_pack] at collects
  refine ⟨⟨rfl, rfl, rfl⟩, collects, ?_, ?_, rfl, rfl, ?_, _, .of_holding _ _, slim.checkLayout⟩
  · rw [count_holding, length_pack, List.length_map, sorted.shows.count]
  · rw [start_holding, length_pack, List.length_map, sorted.shows.start]
  · intro offset member
    have clear := slim.clear
    rw [offsets_holding] at member
    rcases entries with _ | ⟨entry, _ | ⟨next, rest⟩⟩
    · cases member
    · obtain rfl := List.mem_singleton.mp member
      exact ⟨packed.1, clear⟩
    · exact absurd few (by simp)

/-- A crowded leaf is crowded still once its rows are position-only. -/
theorem Crowded.again (crowded : leaf.Crowded index entries row) :
    (leaf.compacted.holding
        (pack (index.format.size .positionOnly) index.pageSize (entries.map RowEntry.row))).Crowded
      index (pack (index.format.size .positionOnly) index.pageSize (entries.map RowEntry.row))
      row where
  accepted := by
    rw [rows_pack]
    exact crowded.accepted
  few := by
    rw [length_pack, List.length_map]
    exact crowded.few
  short := crowded.still
  still := by
    rw [rows_pack]
    exact crowded.still

/-- Where it is, an insertion fails and changes nothing, since no row is left to be decoded and the
form is position-only already. -/
theorem Crowded.insert_again (crowded : leaf.Crowded index entries row)
    (sorted : leaf.Sorted index entries)
    (shrinks : leaf.Shrinks index (entries.map RowEntry.row)) (between : Engine) :
    let later := leaf.compacted.holding
      (pack (index.format.size .positionOnly) index.pageSize (entries.map RowEntry.row))
    (insert index row).on later between =
      ((.error (.internal .rowDoesNotFit), later), between) := by
  intro later
  have slim : later.Sorted index _ := sorted.compacted shrinks
  obtain ⟨n, _, _, _, ended, decodes, ⟨free, _⟩ | ⟨_, rfl, rfl, rfl⟩⟩ :=
    slim.insert_ends (shrinks_of_form rfl _) row between
  · exact absurd crowded.again free
  · have decodes : (leaf.compacted.holding _).Decodes index n _ := decodes
    obtain ⟨rfl, _⟩ := decodes.of_holding
    rw [ended, rows_pack, Engine.counted_zero, Engine.turned, if_neg (by simp [later])]
    rfl

/-- An insertion that fails for want of room leaves a valid leaf. If no row held takes less room
than a position-only one, the leaf had one at most; it holds the same rows after, position-only and
at the end of the page, and passes the check of the layout. The store is as it was and no row counts
as inserted; and to try again gives the same answer and changes nothing at all. -/
theorem crowded_leaf_valid (passes : leaf.Passes index) (collects : leaf.Collects index rows)
    (law : ∀ other ∈ rows, index.format.positionSize ≤ index.format.size .full other)
    {cause : Breach}
    (run : (insert index row).on leaf engine = ((.error (.internal cause), later), after)) :
    leaf.count ≤ 1 ∧ leaf.Slimmed index later rows ∧ after.store = engine.store ∧
      after.stats.rowsInserted = engine.stats.rowsInserted ∧
      ∀ between, (insert index row).on later between =
        ((.error (.internal cause), later), between) := by
  obtain ⟨entries, shows, checked⟩ := passes
  have sorted := Sorted.of_checkLayout shows checked
  obtain rfl := shows.collects.unique collects engine
  have shrinks : leaf.Shrinks index (entries.map RowEntry.row) := by
    intro other member
    cases leaf.form with
    | full => exact law other member
    | positionOnly => exact Nat.le_refl index.format.positionSize
  obtain ⟨n, outcome, _, _, ended, _, ⟨_, _, inserts⟩ | ⟨crowded, answer, left, counts⟩⟩ :=
    sorted.insert_ends shrinks row engine
  · rw [run] at ended
    cases ended
    exact absurd rfl (inserts.ne_internal cause)
  · rw [run] at ended
    cases ended
    cases answer
    subst left counts
    refine ⟨shows.count ▸ crowded.few, sorted.slimmed shrinks crowded.few, Engine.store_turned ..,
      ?_, crowded.insert_again sorted shrinks⟩
    rw [Engine.turned]
    split <;> rfl

/-- Position-only rows that take 26 bytes each, on a page of 64: there is room for one of them. -/
theorem crowded_leaf_valid_reserving :
    let index : Index :=
      ⟨⟨1⟩, minPageSize, .default, ⟨26, true, fun _ => .error (.corruption .rowNotInTable)⟩⟩
    let held : Row := ⟨some (.replicate 21 97), ⟨1⟩⟩
    let row : Row := ⟨some (.replicate 11 98), ⟨2⟩⟩
    let leaf := ofRows index ⟨1⟩ none .full [held]
    let run := (insert index row).on leaf (.inMemory minPageSize 1)
    run.1.1 = .error (.internal .rowDoesNotFit) ∧ leaf.offsets = [34] ∧
      run.1.2.offsets = [38] ∧ run.2.stats.compactions = 1 ∧ run.1.2.Collects index [held] ∧
      ∀ between, (insert index row).on run.1.2 between =
        ((.error (.internal .rowDoesNotFit), run.1.2), between) := by
  intro index held row leaf run
  have answer : ((insert index row).on leaf (.inMemory minPageSize 1)).1.1 =
      .error (.internal .rowDoesNotFit) := by decide +kernel
  have passes : leaf.Passes index := .ofRows ⟨1⟩ none .full (by cbv)
  have collects : leaf.Collects index [held] := (Shows.of_changed _ _).collects
  obtain ⟨_, slimmed, _, _, again⟩ :=
    crowded_leaf_valid passes collects (by decide +kernel) (LeafCall.on_eq answer)
  have offsets : ((insert index row).on leaf (.inMemory minPageSize 1)).1.2.offsets = [38] := by
    decide +kernel
  have counted : ((insert index row).on leaf
      (.inMemory minPageSize 1)).2.stats.compactions = 1 := by decide +kernel
  exact ⟨answer, by cbv, offsets, counted, slimmed.rows, again⟩

end SlottedLeaf.Leaf
