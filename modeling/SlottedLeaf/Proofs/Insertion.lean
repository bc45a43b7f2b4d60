import SlottedLeaf.Proofs.WellFormed

/-!
# What an insertion does

On a leaf in order an insertion ends in one of four ways (`Leaf.Inserts`): the row is refused, it
is put between the rows below it and those above it, the leaf asks for a split, or it goes over to
position-only rows and then has room. In each of them the leaf is in order afterwards.
-/

namespace SlottedLeaf

/-- The engine once a leaf has gone over to position-only rows: that counts if the rows were full
before. -/
def Engine.turned (engine : Engine) (index : Index) (leaf : Leaf) (count : Nat) : Engine :=
  if leaf.form = .full then
    (engine.counted .compactions 1).reported (.leafCompacted leaf.id index.table count)
  else engine

@[simp]
theorem Engine.store_turned (engine : Engine) (index : Index) (leaf : Leaf) (count : Nat) :
    (engine.turned index leaf count).store = engine.store := by
  rw [turned]
  split
  · rfl
  · rfl

namespace Leaf

open RowEntry

variable {index : Index} {leaf : Leaf} {entries before after : List RowEntry} {row : Row}

/-! ## The steps -/

theorem le_lowest_of_fits {length : Nat} (shows : leaf.Shows index entries)
    (fits : leaf.fits index length) : length ≤ lowest index.pageSize entries := by
  have room := shows.fits_iff.mp fits
  omega

/-- Sorted rows stay sorted when one that fits is put between those below it and those above it. -/
theorem Sorted.insertBetween (sorted : leaf.Sorted index (before ++ after))
    (fits : leaf.fits index (index.format.size leaf.form row))
    (low : ∀ other ∈ before.map RowEntry.row, other.Below row)
    (high : ∀ other ∈ after.map RowEntry.row, row.Below other) :
    (leaf.changed (insertBetween index.pageSize (index.format.size leaf.form row) row before
        after)).Sorted index
      (insertBetween index.pageSize (index.format.size leaf.form row) row before after) := by
  have room := sorted.shows.fits_iff.mp fits
  have below := le_lowest_of_fits sorted.shows fits
  have ascending := sorted.ascending
  rw [sorted.shows.start] at room
  rw [List.map_append] at ascending
  refine (Sorted.of_holding (sorted.stacked.insertBetween below) ?_ ?_).changed
  · rw [length_insertBetween, lowest_insertBetween]
    simp only [entryLength] at room ⊢
    omega
  · rw [rows_insertBetween]
    exact Row.ascending_insert low high ascending

/-- Rows in order stay in order when one joins them that none refuses. -/
theorem Holds.insertBetween (standard : index.Standard)
    (holds : leaf.Holds index (before ++ after))
    (fits : leaf.fits index (index.format.size leaf.form row))
    (low : ∀ other ∈ before.map RowEntry.row, other.Below row)
    (high : ∀ other ∈ after.map RowEntry.row, row.Below other)
    (accepted : ∀ other ∈ (before ++ after).map RowEntry.row, ¬ index.Refuses row other) :
    (leaf.changed (insertBetween index.pageSize (index.format.size leaf.form row) row before
        after)).Holds index
      (insertBetween index.pageSize (index.format.size leaf.form row) row before after) := by
  have distinct := holds.distinct
  rw [List.map_append] at distinct accepted
  refine (holds.sorted.insertBetween fits low high).holds holds.image ?_
  intro unique
  rw [rows_insertBetween]
  refine Row.keysDiffer_insert (distinct unique) ?_
  intro other member same
  by_contra known
  exact accepted other member (standard.refuses_iff.mpr (.inr ⟨unique, known, same⟩))

/-- Putting a row in place fails for the reserved page alone, after the leaf has changed. -/
theorem place_on (sorted : leaf.Sorted index (before ++ after))
    (fits : leaf.fits index (index.format.size leaf.form row))
    (low : ∀ other ∈ before.map RowEntry.row, other.Below row)
    (high : ∀ other ∈ after.map RowEntry.row, row.Below other) (engine : Engine) :
    ∃ later, (do
        place index before.length row
        return .inserted : LeafCall Insertion).on (leaf.holding (before ++ after)) engine =
          (((checkPageId leaf.id).map fun _ => .inserted, leaf.changed
            (insertBetween index.pageSize (index.format.size leaf.form row) row before after)),
            later) ∧
      engine.store.Grows 0 later.store := by
  have put := insertSlot_eq sorted.stacked row (le_lowest_of_fits sorted.shows fits)
  have grown := sorted.insertBetween fits low high
  obtain ⟨store, noted, grows⟩ := engine.notePage_on leaf.id
  simp only [place, LeafCall.on_bind, LeafCall.on_get, id_holding, parent_holding, form_holding,
    slots_holding, image_holding, put, LeafCall.on_ofExcept, LeafCall.on_set, changed_mk,
    grown.checkInvariants, LeafCall.on_engine, noted]
  cases checkPageId leaf.id with
  | error fault => exact ⟨_, rfl, by simpa using grows⟩
  | ok _ => exact ⟨_, rfl, by simpa using grows⟩

/-- The leaf once its rows are position-only. -/
def compacted (leaf : Leaf) : Leaf := { leaf with form := .positionOnly, written := false }

@[simp]
theorem id_compacted (leaf : Leaf) : leaf.compacted.id = leaf.id := rfl

@[simp]
theorem parent_compacted (leaf : Leaf) : leaf.compacted.parent = leaf.parent := rfl

@[simp]
theorem form_compacted (leaf : Leaf) : leaf.compacted.form = .positionOnly := rfl

@[simp]
theorem image_compacted (leaf : Leaf) : leaf.compacted.image = leaf.image := rfl

theorem compact_of_packs {packed : List RowEntry}
    (packs : packSlots (index.format.size .positionOnly) index.pageSize
      (entries.map RowEntry.slot) = .ok (packed.map RowEntry.slot)) (engine : Engine) :
    (compact index).on (leaf.holding entries) engine =
      ((.ok (), leaf.compacted.holding packed), engine.turned index leaf entries.length) := by
  simp only [compact, LeafCall.on_bind, LeafCall.on_get, LeafCall.on_modify, slots_holding, packs,
    LeafCall.on_ofExcept, form_holding, id_holding, count_holding, Engine.turned]
  split
  · rfl
  · rfl

/-- Going over to position-only rows does not fail where the page has room for them. -/
theorem compact_on
    (fits : room (index.format.size .positionOnly) (entries.map RowEntry.row) ≤ index.pageSize)
    (engine : Engine) :
    (compact index).on (leaf.holding entries) engine =
      ((.ok (), leaf.compacted.holding
        (pack (index.format.size .positionOnly) index.pageSize (entries.map RowEntry.row))),
        engine.turned index leaf entries.length) :=
  compact_of_packs (packSlots_eq fits) engine

/-- No row here takes less room than a position-only one. -/
def Shrinks (index : Index) (leaf : Leaf) (rows : List Row) : Prop :=
  ∀ row ∈ rows, index.format.size .positionOnly row ≤ index.format.size leaf.form row

section

variable (sorted : leaf.Sorted index entries)
  (shrinks : leaf.Shrinks index (entries.map RowEntry.row))

include sorted shrinks

theorem Sorted.room_le_of_shrinks :
    leaf.start + room (index.format.size .positionOnly) (entries.map RowEntry.row) ≤
      index.pageSize := by
  have less := room_le_room shrinks
  have taken := sorted.stacked.room_le
  have clear := sorted.clear
  omega

theorem Sorted.packed_of_shrinks :
    Packed (index.format.size .positionOnly) index.pageSize
      (pack (index.format.size .positionOnly) index.pageSize (entries.map RowEntry.row)) :=
  packed_pack (Nat.le_trans (Nat.le_add_left ..) (sorted.room_le_of_shrinks shrinks))

/-- Sorted rows stay sorted when they go over to a form that takes no more room. -/
theorem Sorted.compacted :
    (leaf.compacted.holding
        (pack (index.format.size .positionOnly) index.pageSize (entries.map RowEntry.row))).Sorted
      index (pack (index.format.size .positionOnly) index.pageSize (entries.map RowEntry.row)) := by
  have packed := sorted.packed_of_shrinks shrinks
  have room := sorted.room_le_of_shrinks shrinks
  have used := packed.room_eq
  rw [rows_pack] at used
  refine .of_holding packed.stacked ?_ (by rw [rows_pack]; exact sorted.ascending)
  rw [length_pack, List.length_map, ← sorted.shows.start]
  omega

end

section

variable (standard : index.Standard) {rows : List Row} (few : rows.length ≤ 1)

include standard

theorem shrinks_of_standard (leaf : Leaf) (rows : List Row) : leaf.Shrinks index rows := by
  intro row _
  rw [standard.size_positionOnly]
  exact standard.le_size leaf.form row

include few

/-- A page that holds one row at most has room for another once the rows are position-only. -/
theorem room_of_few :
    room (index.format.size .positionOnly) rows + 27 ≤ index.pageSize := by
  have page := standard.le_pageSize
  have taken : room (index.format.size .positionOnly) rows = rows.length * 8 := by
    simp [room, funext standard.size_positionOnly]
  omega

theorem packed_of_few :
    Packed (index.format.size .positionOnly) index.pageSize
      (pack (index.format.size .positionOnly) index.pageSize rows) :=
  packed_pack (Nat.le_trans (Nat.le_add_right _ 27) (room_of_few standard few))

theorem fits_of_few (leaf : Leaf) (row : Row) :
    (leaf.compacted.holding (pack (index.format.size .positionOnly) index.pageSize rows)).fits
      index (index.format.size .positionOnly row) := by
  have room := room_of_few standard few
  have used := (packed_of_few standard few).room_eq
  rw [rows_pack] at used
  rw [(Shows.of_holding leaf.compacted _).fits_iff, start_holding, length_pack,
    standard.size_positionOnly]
  simp only [headerLength, entryLength]
  omega

end

/-! ## The outcomes -/

/-- The leaf with a row put in its place, and its entries then. -/
inductive Places (index : Index) (leaf : Leaf) (entries : List RowEntry) (row : Row) :
    Leaf → List RowEntry → Prop where
  /-- There is room for it. -/
  | fitted {before after : List RowEntry} (split : before ++ after = entries)
      (fits : leaf.fits index (index.format.size leaf.form row))
      (low : ∀ other ∈ before.map RowEntry.row, other.Below row)
      (high : ∀ other ∈ after.map RowEntry.row, row.Below other) :
      Places index leaf entries row
        (leaf.changed
          (insertBetween index.pageSize (index.format.size leaf.form row) row before after))
        (insertBetween index.pageSize (index.format.size leaf.form row) row before after)
  /-- There is room for it once all rows are position-only, and the leaf cannot be split. -/
  | compacted {before after : List RowEntry}
      (packed : before ++ after =
        pack (index.format.size .positionOnly) index.pageSize (entries.map RowEntry.row))
      (short : ¬ leaf.fits index (index.format.size leaf.form row)) (few : entries.length ≤ 1)
      (low : ∀ other ∈ before.map RowEntry.row, other.Below row)
      (high : ∀ other ∈ after.map RowEntry.row, row.Below other) :
      Places index leaf entries row
        (leaf.compacted.changed
          (insertBetween index.pageSize (index.format.size .positionOnly row) row before after))
        (insertBetween index.pageSize (index.format.size .positionOnly row) row before after)

/-- How the insertion of a row ends on a leaf with these entries. -/
inductive Inserts (index : Index) (leaf : Leaf) (entries : List RowEntry) (row : Row) :
    Except Fault Insertion → Leaf → Prop where
  /-- The leaf holds a row that refuses it. -/
  | refused {other : Row} (member : other ∈ entries.map RowEntry.row)
      (refuses : index.Refuses row other) :
      Inserts index leaf entries row (.error (.duplicateKey leaf.id row)) (leaf.holding entries)
  /-- There is no room for it, and the leaf can be split. -/
  | full (accepted : ∀ other ∈ entries.map RowEntry.row, ¬ index.Refuses row other)
      (short : ¬ leaf.fits index (index.format.size leaf.form row)) (several : 1 < entries.length) :
      Inserts index leaf entries row (.ok (.splitAt (entries.length / 2))) (leaf.holding entries)
  /-- It is put in its place; on the reserved page the call fails even so. -/
  | placed {later : Leaf} {grown : List RowEntry}
      (accepted : ∀ other ∈ entries.map RowEntry.row, ¬ index.Refuses row other)
      (places : Places index leaf entries row later grown) :
      Inserts index leaf entries row ((checkPageId leaf.id).map fun _ => .inserted) later

/-- The leaf holds one row at most, and has no room for another even once that one is
position-only. -/
structure Crowded (index : Index) (leaf : Leaf) (entries : List RowEntry) (row : Row) : Prop where
  accepted : ∀ other ∈ entries.map RowEntry.row, ¬ index.Refuses row other
  few : entries.length ≤ 1
  short : ¬ leaf.fits index (index.format.size leaf.form row)
  still : ¬ (leaf.compacted.holding
    (pack (index.format.size .positionOnly) index.pageSize (entries.map RowEntry.row))).fits index
      (index.format.size .positionOnly row)

/-- How an insertion ends that goes over to position-only rows: there is room then, or the leaf is
crowded. -/
theorem Sorted.compact_ends (sorted : leaf.Sorted index (before ++ after))
    (shrinks : leaf.Shrinks index ((before ++ after).map RowEntry.row))
    (low : ∀ other ∈ before.map RowEntry.row, other.Below row)
    (high : ∀ other ∈ after.map RowEntry.row, row.Below other)
    (accepted : ∀ other ∈ (before ++ after).map RowEntry.row, ¬ index.Refuses row other)
    (few : (before ++ after).length ≤ 1)
    (short : ¬ leaf.fits index (index.format.size leaf.form row)) (engine : Engine) :
    ∃ outcome later last, (do
        compact index
        let leaf ← get
        if !leaf.fits index (index.format.size leaf.form row) then
          throw (.internal .rowDoesNotFit)
        place index before.length row
        return .inserted : LeafCall Insertion).on (leaf.holding (before ++ after)) engine =
          ((outcome, later), last) ∧
      (¬ leaf.Crowded index (before ++ after) row ∧ engine.store.Grows 0 last.store ∧
          leaf.Inserts index (before ++ after) row outcome later ∨
        leaf.Crowded index (before ++ after) row ∧ outcome = .error (.internal .rowDoesNotFit) ∧
          later = leaf.compacted.holding (pack (index.format.size .positionOnly) index.pageSize
            ((before ++ after).map RowEntry.row)) ∧
          last = engine.turned index leaf (before ++ after).length) := by
  have slim := sorted.compacted shrinks
  have compacts : (compact index).on (leaf.holding (before ++ after)) engine = _ :=
    compact_on (Nat.le_trans (Nat.le_add_left ..) (sorted.room_le_of_shrinks shrinks)) engine
  rw [LeafCall.on_bind, compacts]
  simp only [LeafCall.on_bind, LeafCall.on_get, form_holding, form_compacted]
  by_cases room : (leaf.compacted.holding (pack (index.format.size .positionOnly) index.pageSize
      ((before ++ after).map RowEntry.row))).fits index (index.format.size .positionOnly row)
  · have split := pack_append (index.format.size .positionOnly) index.pageSize
      (before.map RowEntry.row) (after.map RowEntry.row)
    rw [← List.map_append] at split
    have uncrowded (crowded : leaf.Crowded index (before ++ after) row) : False :=
      crowded.still room
    rw [split] at slim room ⊢
    obtain ⟨last, placed, grows⟩ := place_on slim room (by rwa [rows_pack]) (by rwa [rows_pack])
      (engine.turned index leaf (before ++ after).length)
    rw [length_pack, List.length_map, holding_holding] at placed
    rw [Engine.store_turned] at grows
    simp only [room, Bool.not_true]
    rw [if_neg Bool.false_ne_true]
    exact ⟨_, _, last, placed, .inl ⟨uncrowded, grows, .placed accepted
      (.compacted split.symm short few (by rwa [rows_pack]) (by rwa [rows_pack]))⟩⟩
  · have crowded : leaf.Crowded index (before ++ after) row := ⟨accepted, few, short, room⟩
    rw [Bool.not_eq_true] at room
    simp only [room, Bool.not_false, if_true]
    exact ⟨_, _, _, rfl, .inr ⟨crowded, rfl, rfl, rfl⟩⟩

/-- An insertion among sorted rows, none of which grows when it goes over to its position, ends in
one of these ways and hands out no page; on a crowded leaf it fails once the rows are
position-only. -/
theorem Sorted.insert_ends (sorted : leaf.Sorted index entries)
    (shrinks : leaf.Shrinks index (entries.map RowEntry.row)) (row : Row) (engine : Engine) :
    ∃ n outcome later last, (insert index row).on leaf engine = ((outcome, later), last) ∧
      leaf.Decodes index n (leaf.holding entries) ∧
      (¬ leaf.Crowded index entries row ∧ engine.store.Grows 0 last.store ∧
          leaf.Inserts index entries row outcome later ∨
        leaf.Crowded index entries row ∧ outcome = .error (.internal .rowDoesNotFit) ∧
          later = leaf.compacted.holding
            (pack (index.format.size .positionOnly) index.pageSize (entries.map RowEntry.row)) ∧
          last = (engine.counted .rowsDecoded n).turned index leaf entries.length) := by
  obtain ⟨n, decodes, loaded⟩ := sorted.shows.loadRows
  have shows : (leaf.holding entries).Shows index entries := .of_holding leaf entries
  refine ⟨n, ?_⟩
  rcases search_insertion row shows sorted.ascending with ⟨looks, other, member, refuses⟩ |
    ⟨before, after, rfl, looks, low, high, accepted⟩
  · have uncrowded (crowded : leaf.Crowded index entries row) : False :=
      crowded.accepted other member refuses
    simp only [insert, LeafCall.on_bind, loaded, looks_holding looks]
    exact ⟨_, _, _, rfl, decodes, .inl ⟨uncrowded, .refl _, .refused member refuses⟩⟩
  simp only [insert, LeafCall.on_bind, loaded, looks_holding looks, LeafCall.on_get, form_holding,
    count_holding, sorted.shows.fits_holding]
  by_cases fits : leaf.fits index (index.format.size leaf.form row)
  · obtain ⟨later, placed, grows⟩ := place_on sorted fits low high
      (engine.counted .rowsDecoded n)
    rw [if_pos fits]
    exact ⟨_, _, later, placed, decodes, .inl ⟨fun crowded => crowded.short fits, grows,
      .placed accepted (.fitted rfl fits low high)⟩⟩
  rw [if_neg fits]
  by_cases several : 1 < (before ++ after).length
  · rw [if_pos several]
    exact ⟨_, _, _, rfl, decodes, .inl ⟨fun crowded => absurd several (Nat.not_lt.mpr crowded.few),
      .refl _, .full accepted fits several⟩⟩
  · obtain ⟨outcome, later, last, run, ends⟩ := sorted.compact_ends shrinks low high accepted
      (Nat.not_lt.mp several) fits (engine.counted .rowsDecoded n)
    rw [if_neg several]
    exact ⟨outcome, later, last, run, decodes, ends⟩

/-- Standard rows leave room for one more. -/
theorem not_crowded (standard : index.Standard) (leaf : Leaf) (entries : List RowEntry)
    (row : Row) : ¬ leaf.Crowded index entries row := by
  intro crowded
  have few : (entries.map RowEntry.row).length ≤ 1 := by
    rw [List.length_map]
    exact crowded.few
  exact crowded.still (fits_of_few standard few leaf row)

/-- An insertion among sorted rows ends in one of these ways, and hands out no page. -/
theorem Sorted.insert_on (sorted : leaf.Sorted index entries) (standard : index.Standard)
    (row : Row) (engine : Engine) :
    ∃ outcome later after, (insert index row).on leaf engine = ((outcome, later), after) ∧
      engine.store.Grows 0 after.store ∧ leaf.Inserts index entries row outcome later := by
  obtain ⟨_, outcome, later, after, run, _, ⟨_, grows, inserts⟩ | ⟨crowded, _⟩⟩ :=
    sorted.insert_ends (shrinks_of_standard standard leaf _) row engine
  · exact ⟨outcome, later, after, run, grows, inserts⟩
  · exact absurd crowded (not_crowded standard leaf entries row)

/-- So it does on a leaf in order. -/
theorem insert_on (standard : index.Standard) (holds : leaf.Holds index entries) (row : Row)
    (engine : Engine) :
    ∃ outcome later after, (insert index row).on leaf engine = ((outcome, later), after) ∧
      engine.store.Grows 0 after.store ∧ leaf.Inserts index entries row outcome later :=
  holds.sorted.insert_on standard row engine

/-! ## The leaf afterwards -/

/-- `later` is `leaf` with a row more, and these are its entries. -/
structure Gains (index : Index) (leaf : Leaf) (entries : List RowEntry) (row : Row) (later : Leaf)
    (grown : List RowEntry) : Prop where
  holds : later.Holds index grown
  rows : grown.map RowEntry.row = Row.insertInOrder row (entries.map RowEntry.row)
  id : later.id = leaf.id
  parent : later.parent = leaf.parent
  packed : leaf.IsPacked index entries → later.IsPacked index grown

/-- The rows then are those there were, and the row in its place. -/
theorem Places.rows {later : Leaf} {grown : List RowEntry}
    (places : leaf.Places index entries row later grown) :
    grown.map RowEntry.row = Row.insertInOrder row (entries.map RowEntry.row) := by
  cases places with
  | fitted split _ low high =>
    rw [← split, rows_insertBetween, List.map_append, Row.insertInOrder_append low high]
  | compacted packed _ _ low high =>
    have same := congrArg (List.map RowEntry.row) packed
    rw [rows_pack, List.map_append] at same
    rw [rows_insertBetween, ← same, Row.insertInOrder_append low high]

/-- A leaf in order that a row was put into is in order, with a row more. -/
theorem Places.gains {later : Leaf} {grown : List RowEntry}
    (places : leaf.Places index entries row later grown) (standard : index.Standard)
    (holds : leaf.Holds index entries)
    (accepted : ∀ other ∈ entries.map RowEntry.row, ¬ index.Refuses row other) :
    leaf.Gains index entries row later grown := by
  have named := places.rows
  cases places with
  | @fitted before after split fits low high =>
    subst split
    refine ⟨holds.insertBetween standard fits low high accepted, named, rfl, rfl, ?_⟩
    intro packed
    exact Packed.insertBetween packed (le_lowest_of_fits holds.shows fits)
  | @compacted before after split short few low high =>
    have rows : entries.map RowEntry.row = (before ++ after).map RowEntry.row := by
      rw [split, rows_pack]
    have few_rows : (entries.map RowEntry.row).length ≤ 1 := by rwa [List.length_map]
    have packed := packed_of_few standard few_rows
    have slim := holds.sorted.compacted (shrinks_of_standard standard leaf _)
    have room := fits_of_few standard few_rows leaf row
    have distinct := holds.distinct
    rw [rows] at accepted distinct
    rw [← split] at packed slim room
    have grown := (slim.holds holds.image distinct).insertBetween standard room low high accepted
    refine ⟨grown, named, rfl, rfl, ?_⟩
    intro _
    exact Packed.insertBetween packed (le_lowest_of_fits slim.shows room)

end Leaf

end SlottedLeaf
