import SlottedLeaf.Proofs.Effects
import SlottedLeaf.Proofs.OrderedSet

/-!
# What room decides

A row takes its bytes and an entry in the offset table. Where the free bytes are enough for both, an
insertion takes just these. Where they are not, a leaf of several rows asks for a split and stays as
it is, and one with a single row or none has room once it is position-only: on a page of any size
two rows fit then.
-/

namespace SlottedLeaf.Leaf

open RowEntry

variable {index : Index} {leaf later : Leaf} {entries grown : List RowEntry} {row : Row}
  {rows : List Row}

/-- All rows decode, and the check of the layout accepts the leaf then. -/
def Passes (index : Index) (leaf : Leaf) : Prop :=
  ∃ entries, leaf.Shows index entries ∧ (leaf.holding entries).checkLayout index = .ok ()

theorem Places.shows (places : leaf.Places index entries row later grown) :
    later.Shows index grown := by
  cases places <;> exact .of_changed _ _

theorem Places.collects (places : leaf.Places index entries row later grown)
    (named : entries.map RowEntry.row = rows) :
    later.Collects index (Row.insertInOrder row rows) := by
  rw [← named, ← places.rows]
  exact places.shows.collects

/-! ## Rows that fit -/

/-- A row that fits takes its bytes and its entry, and the rows keep their form. -/
theorem Places.freeSpace_of_fits (places : leaf.Places index entries row later grown)
    (sorted : leaf.Sorted index entries)
    (fits : leaf.fits index (index.format.size leaf.form row)) :
    later.form = leaf.form ∧
      later.freeSpace index + (index.format.size leaf.form row + entryLength) =
        leaf.freeSpace index := by
  have shows := places.shows
  cases places with
  | @fitted before after split _ _ _ =>
    have room := sorted.shows.fits_iff.mp fits
    refine ⟨rfl, ?_⟩
    rw [Leaf.freeSpace, Leaf.freeSpace, shows.lastOffset, sorted.shows.lastOffset, shows.start,
      sorted.shows.start, lowest_insertBetween, length_insertBetween, split]
    rw [sorted.shows.start] at room
    simp only [entryLength] at room ⊢
    omega
  | compacted _ short _ _ _ => exact absurd fits short

/-! ## Rows that fit once all are position-only -/

/-- Position-only rows lie eight bytes apart from the end of the page down. -/
theorem offsets_pack_of_few (standard : index.Standard) (top : Nat) (few : rows.length ≤ 2) :
    (pack (index.format.size .positionOnly) top rows).map RowEntry.offset =
      [top - 8, top - 16].take rows.length := by
  rcases rows with _ | ⟨first, _ | ⟨second, _ | ⟨third, rest⟩⟩⟩
  · rfl
  · simp [pack, standard.size_positionOnly]
  · simp [pack, standard.size_positionOnly, Nat.sub_sub]
  · simp at few

theorem Places.offsets_of_short (places : leaf.Places index entries row later grown)
    (standard : index.Standard) (short : ¬ leaf.fits index (index.format.size leaf.form row)) :
    entries.length ≤ 1 ∧ later.form = .positionOnly ∧
      later.offsets = [index.pageSize - 8, index.pageSize - 16].take (entries.length + 1) := by
  have shows := places.shows
  cases places with
  | fitted _ fits _ _ => exact absurd fits short
  | @compacted before after packed _ few _ _ =>
    refine ⟨few, rfl, ?_⟩
    have few_rows : (entries.map RowEntry.row).length ≤ 1 := by rwa [List.length_map]
    have stays := packed_of_few standard few_rows
    have room := room_of_few standard few_rows
    have used := stays.room_eq
    rw [rows_pack] at used
    rw [← packed] at stays used
    have fits : index.format.size .positionOnly row ≤ lowest index.pageSize (before ++ after) := by
      rw [standard.size_positionOnly]
      omega
    have grown := Packed.insertBetween stays fits
    have length : ((insertBetween index.pageSize (index.format.size .positionOnly row) row before
        after).map RowEntry.row).length = entries.length + 1 := by
      rw [List.length_map, length_insertBetween, packed, length_pack, List.length_map]
    rw [shows.offsets, grown.eq_pack, offsets_pack_of_few standard _ (by omega), length]

/-! ## Insertions -/

/-- There is always room for a row on the leaf, if only once all rows are position-only. -/
theorem Sorted.insert_ne_rowDoesNotFit (sorted : leaf.Sorted index entries)
    (standard : index.Standard) (unreserved : leaf.id ≠ .reserved) (row : Row) (engine : Engine) :
    ((insert index row).on leaf engine).1.1 ≠ .error (.internal .rowDoesNotFit) := by
  obtain ⟨outcome, later, after, ended, _, inserts⟩ := sorted.insert_on standard row engine
  rw [ended]
  intro same
  cases inserts with
  | refused _ _ => cases same
  | full _ _ _ => cases same
  | placed _ _ =>
    rw [checkPageId_of_ne unreserved] at same
    cases same

/-- A row that does not conflict with another is placed, unless a leaf with several rows has no room
for it and asks for a split. -/
theorem Sorted.insert_of_free (sorted : leaf.Sorted index entries) (standard : index.Standard)
    (unreserved : leaf.id ≠ .reserved) (free : ¬ Conflicts index (entries.map RowEntry.row) row)
    (engine : Engine) :
    let run := (insert index row).on leaf engine
    (¬ leaf.fits index (index.format.size leaf.form row) ∧ 2 ≤ leaf.count ∧
        run.1.1 = .ok (.splitAt (leaf.count / 2)) ∧ leaf.Untouched index run.1.2 ∧
          run.2.store = engine.store) ∨
      run.1.1 = .ok .inserted ∧ ∃ grown, leaf.Places index entries row run.1.2 grown := by
  intro run
  obtain ⟨outcome, later, after, ended, _, inserts⟩ := sorted.insert_on standard row engine
  rw [show run = ((outcome, later), after) from ended]
  cases inserts with
  | refused member refuses =>
    exact absurd ((conflicts_iff standard _ row).mpr ⟨_, member, refuses⟩) free
  | full _ short several =>
    rw [← sorted.shows.count] at several ended ⊢
    rcases insert_ok ended with ⟨answer, _⟩ | ⟨_, ⟨n, decodes⟩, still⟩
    · cases answer
    · exact .inl ⟨short, several, rfl, decodes.untouched, still⟩
  | placed _ places =>
    rw [checkPageId_of_ne unreserved]
    exact .inr ⟨rfl, _, places⟩

/-- The room there is decides what becomes of a row that does not conflict with another. If the
free bytes are enough for it and its entry in the offset table, it takes just these. If they are
not, a leaf with several rows asks for a split in the middle and stays as it is; with one row or
none it goes over to position-only rows, at the end of the page. There is always room then. -/
theorem room_decides (standard : index.Standard) (passes : leaf.Passes index)
    (unreserved : leaf.id ≠ .reserved) (collects : leaf.Collects index rows)
    (free : ¬ Conflicts index rows row) (engine : Engine) :
    let need := index.format.size leaf.form row + entryLength
    let run := (insert index row).on leaf engine
    (need ≤ leaf.freeSpace index →
        run.1.1 = .ok .inserted ∧ run.1.2.form = leaf.form ∧
          run.1.2.freeSpace index + need = leaf.freeSpace index ∧
          run.1.2.Collects index (Row.insertInOrder row rows)) ∧
      (leaf.freeSpace index < need → 2 ≤ leaf.count →
        run.1.1 = .ok (.splitAt (leaf.count / 2)) ∧ leaf.Untouched index run.1.2 ∧
          run.2.store = engine.store) ∧
      (leaf.freeSpace index < need → leaf.count ≤ 1 →
        run.1.1 = .ok .inserted ∧ run.1.2.form = .positionOnly ∧
          run.1.2.offsets = [index.pageSize - 8, index.pageSize - 16].take (leaf.count + 1) ∧
          run.1.2.Collects index (Row.insertInOrder row rows)) ∧
      ∀ any between, ((insert index any).on leaf between).1.1 ≠
        .error (.internal .rowDoesNotFit) := by
  intro need run
  obtain ⟨entries, shows, checked⟩ := passes
  have sorted := Sorted.of_checkLayout shows checked
  have named := shows.collects.unique collects engine
  rw [← named] at free
  have enough : leaf.fits index (index.format.size leaf.form row) ↔
      need ≤ leaf.freeSpace index := fits_iff_le_freeSpace
  have never := sorted.insert_ne_rowDoesNotFit standard unreserved
  rcases sorted.insert_of_free standard unreserved free engine with
    ⟨short, several, signals⟩ | ⟨inserted, grown, places⟩
  · rw [enough] at short
    exact ⟨fun fits => absurd fits short, fun _ _ => signals, fun _ few => by omega, never⟩
  · have grows := places.collects named
    by_cases fits : leaf.fits index (index.format.size leaf.form row)
    · obtain ⟨form, taken⟩ := places.freeSpace_of_fits sorted fits
      rw [enough] at fits
      exact ⟨fun _ => ⟨inserted, form, taken, grows⟩, fun scarce => by omega,
        fun scarce => by omega, never⟩
    · obtain ⟨few, form, offsets⟩ := places.offsets_of_short standard fits
      rw [enough] at fits
      rw [← shows.count] at few offsets
      exact ⟨fun room => absurd room fits, fun _ several => by omega,
        fun _ _ => ⟨inserted, form, offsets, grows⟩, never⟩

theorem Passes.ofRows (id : PageId) (parent : Option PageId) (form : RowForm)
    (checked : (ofRows index id parent form rows).checkLayout index = .ok ()) :
    (ofRows index id parent form rows).Passes index :=
  ⟨_, .of_changed _ _, checked⟩

/-- A row that fits exactly leaves no byte free, on a leaf of a unique index that holds a key twice.
A row one byte too long for a leaf with a single one turns that leaf. -/
theorem room_decides_unique :
    let index := Index.smallest ⟨true, true⟩ fun _ => .error (.corruption .rowNotInTable)
    let row (length : Nat) : Row := ⟨some (.replicate length 98), ⟨3⟩⟩
    let pair := ofRows index ⟨1⟩ none .full [⟨some [97], ⟨1⟩⟩, ⟨some [97], ⟨2⟩⟩]
    let lone := ofRows index ⟨1⟩ none .full [⟨some [97], ⟨1⟩⟩]
    let fitting := (insert index (row 18)).on pair (.inMemory 64 1)
    let turning := (insert index (row 31)).on lone (.inMemory 64 1)
    (fitting.1.1 = .ok .inserted ∧ fitting.1.2.freeSpace index = 0) ∧
      turning.1.1 = .ok .inserted ∧ turning.1.2.offsets = [56, 48] := by
  intro index row pair lone fitting turning
  have standard : index.Standard := Index.smallest_standard _ _
  have pair_free : ¬ Conflicts index [⟨some [97], ⟨1⟩⟩, ⟨some [97], ⟨2⟩⟩] (row 18) := by
    unfold Conflicts
    decide
  have lone_free : ¬ Conflicts index [⟨some [97], ⟨1⟩⟩] (row 31) := by
    unfold Conflicts
    decide
  have fits := room_decides standard (.ofRows ⟨1⟩ none .full (by cbv) : pair.Passes index)
    (by decide) (Shows.of_changed _ _).collects pair_free (.inMemory 64 1)
  have turns := room_decides standard (.ofRows ⟨1⟩ none .full (by cbv) : lone.Passes index)
    (by decide) (Shows.of_changed _ _).collects lone_free (.inMemory 64 1)
  have pair_room : pair.freeSpace index = 29 := by cbv
  have lone_room : lone.freeSpace index = 41 := by cbv
  have pair_need : index.format.size pair.form (row 18) + entryLength = 29 := by cbv
  have lone_need : index.format.size lone.form (row 31) + entryLength = 42 := by cbv
  rw [pair_room, pair_need] at fits
  rw [lone_room, lone_need] at turns
  obtain ⟨taken, _, left, _⟩ := fits.1 (Nat.le_refl 29)
  obtain ⟨turned, _, offsets, _⟩ := turns.2.2.1 (by decide) (by decide)
  exact ⟨⟨taken, Nat.add_right_cancel (left.trans (Nat.zero_add 29).symm)⟩, turned, offsets⟩

end SlottedLeaf.Leaf
