import SlottedLeaf.Proofs.Saving

/-!
# Canonical leaves

Rows in order and without gaps lie on a page in one way only, and they are rendered over zeros. So
what such a leaf is written as depends on its parent, its form and its rows, and on nothing that it
held before. Every call keeps a leaf this way, whether it fails or not.
-/

namespace SlottedLeaf

open RowEntry

variable {α : Type} {index other : Index}

namespace Leaf

variable {leaf later twin : Leaf} {entries others : List RowEntry} {row : Row}

/-! ## What an image depends on -/

/-- Of an index the image shows the table and the page size, and of a parent the field that names
it. -/
theorem rendering_congr (sized : other.pageSize = index.pageSize)
    (stamped : other.table = index.table) (form : twin.form = leaf.form)
    (parent : PageId.toParentField twin.parent = PageId.toParentField leaf.parent)
    (entries : List RowEntry) : twin.rendering other entries = leaf.rendering index entries := by
  simp only [rendering, header, Header.bytes, sized, stamped, form, parent]

theorem rendering_encoded (leaf : Leaf) (entries : List RowEntry) :
    (leaf.encoded index entries).rendering index entries = leaf.rendering index entries :=
  rendering_congr rfl rfl rfl rfl entries

/-- The image has zeros where nothing is kept. -/
theorem Lays.rendering_free (lays : leaf.Lays index entries) (standard : index.Standard) :
    (leaf.rendering index entries).Contains leaf.start (.zeros (leaf.freeSpace index)) := by
  have start := lays.shows.start
  have clear := lays.clear
  have low := lays.stacked.lowest_le
  have table : ((leaf.header index entries).bytes ++
      OffsetTable.bytes (entries.map RowEntry.offset)).length = leaf.start := by
    rw [start, List.length_append, Header.length_bytes, OffsetTable.length_bytes, List.length_map]
  rw [freeSpace, lays.shows.lastOffset]
  apply contains_overlay (lays.stacked_bytes standard)
  · apply Buffer.Contains.overwrite
    · apply Buffer.contains_zeros
      omega
    · rw [table]
      omega
  · rw [Bytes.length_zeros]
    omega

/-- What a write leaves as the image of a leaf that is laid out and changed, whether the store takes
it or not. -/
theorem image_write_of_dirty (standard : index.Standard) (lays : leaf.Lays index entries)
    (dirty : leaf.isDirty) (engine : Engine) :
    ((write index).on leaf engine).1.2.image = leaf.rendering index entries := by
  obtain ⟨n, run⟩ := write_of_dirty standard lays dirty
  rw [run]
  cases engine.store.write leaf.id (leaf.rendering index entries) with
  | error fault => rfl
  | ok store => rfl

/-! ## Canonical leaves -/

/-- The leaf is in order and without gaps, and if it counts as clean, its image is what it would be
rendered as. -/
structure Canonical (index : Index) (leaf : Leaf) (entries : List RowEntry) : Prop
    extends leaf.Holds index entries where
  packed : leaf.IsPacked index entries
  drawn : leaf.isDirty = false → leaf.image = leaf.rendering index entries

/-- Two leaves, of one index or of two, have their rows at the same offsets and the same bytes free,
and writing gives them the same image, with zeros where it is free. -/
structure Twins (index other : Index) (leaf twin : Leaf) : Prop where
  offsets : twin.offsets = leaf.offsets
  freeSpace : twin.freeSpace other = leaf.freeSpace index
  image : ∀ engine otherEngine, ((write other).on twin otherEngine).1.2.image =
    ((write index).on leaf engine).1.2.image
  free : ∀ engine, ((write index).on leaf engine).1.2.image.Contains leaf.start
    (.zeros (leaf.freeSpace index))

namespace Canonical

theorem of_dirty (holds : leaf.Holds index entries) (packed : leaf.IsPacked index entries)
    (dirty : leaf.isDirty) : leaf.Canonical index entries where
  toHolds := holds
  packed := packed
  drawn clean := by
    rw [dirty] at clean
    cases clean

theorem create (standard : index.Standard) (id : PageId) (parent : Option PageId)
    (form : RowForm) : (create index id parent form).Canonical index [] :=
  .of_dirty (.create standard id parent form) trivial rfl

/-- The rows say where they lie. -/
theorem entries_eq (canonical : leaf.Canonical index entries) :
    entries = pack (index.format.size leaf.form) index.pageSize (entries.map RowEntry.row) :=
  Packed.eq_pack canonical.packed

theorem image_write (canonical : leaf.Canonical index entries) (standard : index.Standard)
    (engine : Engine) :
    ((write index).on leaf engine).1.2.image = leaf.rendering index entries := by
  cases dirty : leaf.isDirty with
  | true => exact image_write_of_dirty standard canonical.toLays dirty engine
  | false =>
    simp only [write, LeafCall.on_bind, LeafCall.on_get, dirty, Bool.false_eq_true, if_false,
      LeafCall.on_pure]
    exact canonical.drawn dirty

/-- Canonical leaves of one form and under one parent that have the same rows are twins. -/
theorem twins (canonical : leaf.Canonical index entries) (standard : index.Standard)
    (otherCanonical : twin.Canonical other others) (otherStandard : other.Standard)
    (sized : other.pageSize = index.pageSize) (stamped : other.table = index.table)
    (form : twin.form = leaf.form) (parent : twin.parent = leaf.parent)
    (same : ∀ row, row ∈ others.map RowEntry.row ↔ row ∈ entries.map RowEntry.row) :
    Twins index other leaf twin := by
  -- The rows stand in the same order, so they lie at the same places.
  have rows : others.map RowEntry.row = entries.map RowEntry.row :=
    Row.Ascending.eq_of_mem_iff canonical.ascending otherCanonical.ascending same
  have size : other.format.size twin.form = index.format.size leaf.form := by
    obtain ⟨resolve, standardFormat⟩ := standard.format
    obtain ⟨otherResolve, otherFormat⟩ := otherStandard.format
    rw [standardFormat, otherFormat, form]
    rfl
  obtain rfl : others = entries := by
    rw [otherCanonical.entries_eq, rows, size, sized]
    exact canonical.entries_eq.symm
  have image := rendering_congr sized stamped form (congrArg PageId.toParentField parent) others
  refine ⟨?_, ?_, ?_, ?_⟩
  · rw [otherCanonical.shows.offsets, canonical.shows.offsets]
  · rw [freeSpace, freeSpace, otherCanonical.shows.lastOffset, canonical.shows.lastOffset,
      otherCanonical.shows.start, canonical.shows.start, sized]
  · intro engine otherEngine
    rw [otherCanonical.image_write otherStandard, canonical.image_write standard, image]
  · intro engine
    rw [canonical.image_write standard]
    exact canonical.rendering_free standard

/-! ## What keeps a leaf canonical -/

theorem decodes {n : Nat} (canonical : leaf.Canonical index entries)
    (decodes : leaf.Decodes index n later) : later.Canonical index entries where
  toHolds := canonical.toHolds.decodes decodes
  packed := by
    rw [IsPacked, decodes.form]
    exact canonical.packed
  drawn clean := by
    rw [decodes.isDirty] at clean
    have parent := congrArg PageId.toParentField decodes.parent
    rw [decodes.samePage.image, rendering_congr rfl rfl decodes.form parent]
    exact canonical.drawn clean

/-- A call that keeps a leaf in order keeps it canonical if it changes no clean leaf silently. -/
theorem of_keeps {outcome : Except Fault α} (canonical : leaf.Canonical index entries)
    (keeps : leaf.Keeps index entries outcome later)
    (touched : (∃ n, leaf.Decodes index n later) ∨ later.isDirty) :
    ∃ changed, later.Canonical index changed := by
  rcases touched with ⟨n, decodes⟩ | dirty
  · exact ⟨entries, canonical.decodes decodes⟩
  · obtain ⟨changed, holds, packed⟩ := keeps.orderly
    exact ⟨changed, .of_dirty holds (packed canonical.packed) dirty⟩

end Canonical

/-! ## Calls -/

theorem Inserts.decodes_or_dirty {outcome : Except Fault Insertion}
    (inserts : leaf.Inserts index entries row outcome later) (shows : leaf.Shows index entries) :
    (∃ n, leaf.Decodes index n later) ∨ later.isDirty := by
  obtain ⟨n, decodes, _⟩ := shows.loadRows
  cases inserts with
  | refused _ _ => exact .inl ⟨n, decodes⟩
  | full _ _ _ => exact .inl ⟨n, decodes⟩
  | placed _ places =>
    right
    cases places <;> rfl

/-- A row that fits is put among the rows as they are. -/
theorem Places.of_fits {grown : List RowEntry}
    (places : leaf.Places index entries row later grown)
    (fits : leaf.fits index (index.format.size leaf.form row)) :
    later.form = leaf.form ∧ later.isDirty ∧
      (grown.map RowEntry.row).Perm (row :: entries.map RowEntry.row) := by
  cases places with
  | compacted _ short _ _ _ => exact absurd fits short
  | fitted split _ _ _ =>
    refine ⟨rfl, rfl, ?_⟩
    rw [rows_insertBetween, ← split, List.map_append]
    exact List.perm_middle

theorem Removes.decodes_or_dirty {outcome : Except Fault Removal}
    (removes : leaf.Removes index entries row outcome later) :
    (∃ n, leaf.Decodes index n later) ∨ later.isDirty := by
  cases removes with
  | absent decodes _ => exact .inl ⟨_, decodes⟩
  | only decodes _ => exact .inl ⟨_, decodes⟩
  | taken _ _ _ => exact .inr rfl

/-- A split leaves canonical leaves on both sides. -/
theorem Splits.canonical {point next n : Nat} {outcome : Except Fault Leaf}
    (splits : leaf.Splits index entries point next outcome later n)
    (canonical : leaf.Canonical index entries) :
    (∃ changed, later.Canonical index changed) ∧
      ∀ right, outcome = .ok right → ∃ moved, right.Canonical index moved := by
  cases splits with
  | refused _ => exact ⟨⟨entries, canonical⟩, by simp⟩
  | exhausted _ _ => exact ⟨⟨entries, canonical⟩, by simp⟩
  | parted split _ _ _ _ parts =>
    subst split
    have packed := (packed_append.mp canonical.packed).1
    refine ⟨⟨_, .of_dirty parts.stays packed rfl⟩, ?_⟩
    rintro right same
    cases same
    refine ⟨_, .of_dirty parts.moves parts.packed ?_⟩
    rw [parts.fresh]
    rfl

namespace Canonical

theorem insert (canonical : leaf.Canonical index entries) (standard : index.Standard) (row : Row)
    (engine : Engine) :
    ∃ changed, ((insert index row).on leaf engine).1.2.Canonical index changed := by
  obtain ⟨_, _, _, run, _, inserts⟩ := insert_on standard canonical.toHolds row engine
  rw [run]
  exact canonical.of_keeps (inserts.keeps standard canonical.toHolds)
    (inserts.decodes_or_dirty canonical.shows)

theorem remove (canonical : leaf.Canonical index entries) (row : Row) (engine : Engine) :
    ∃ changed, ((remove index row).on leaf engine).1.2.Canonical index changed := by
  obtain ⟨_, _, _, run, _, removes⟩ := remove_on canonical.toHolds row engine
  rw [run]
  exact canonical.of_keeps (removes.keeps canonical.toHolds) removes.decodes_or_dirty

theorem setParent (canonical : leaf.Canonical index entries) (parent : Option PageId)
    (engine : Engine) : ((setParent parent).on leaf engine).1.2.Canonical index entries := by
  rw [setParent_on]
  by_cases same : leaf.parent = parent
  · rw [if_pos same]
    exact canonical
  · rw [if_neg same]
    exact .of_dirty ⟨⟨canonical.image, canonical.shows, canonical.stacked, canonical.clear⟩,
      canonical.ascending, canonical.distinct⟩ canonical.packed rfl

/-- A write leaves the leaf canonical. It leaves the store alone, or the store takes the image. -/
theorem write (canonical : leaf.Canonical index entries) (standard : index.Standard)
    (engine : Engine) :
    ∃ outcome later after, (write index).on leaf engine = ((outcome, later), after) ∧
      later.id = leaf.id ∧ later.Canonical index entries ∧
      (after.store = engine.store ∧ (outcome = .ok () → leaf.isDirty = false) ∨
        engine.store.Stores leaf.id (leaf.rendering index entries) after.store) := by
  cases dirty : leaf.isDirty with
  | false =>
    refine ⟨.ok (), leaf, engine, ?_, rfl, canonical, .inl ⟨rfl, fun _ => rfl⟩⟩
    simp only [Leaf.write, LeafCall.on_bind, LeafCall.on_get, dirty, Bool.false_eq_true, if_false,
      LeafCall.on_pure]
  | true =>
    obtain ⟨n, runs⟩ := write_of_dirty standard canonical.toLays dirty
    have run := runs engine
    cases taken : engine.store.write leaf.id (leaf.rendering index entries) with
    | error fault =>
      rw [taken] at run
      refine ⟨_, _, _, run, rfl, ?_, .inl ⟨rfl, by simp⟩⟩
      exact .of_dirty (canonical.rendered leaf.written) canonical.packed dirty
    | ok store =>
      rw [taken] at run
      exact ⟨_, _, _, run, rfl, ⟨canonical.rendered true, canonical.packed, fun _ => rfl⟩,
        .inr (Store.stores_of_write taken)⟩

/-- What is read from the image of a canonical leaf is canonical. A reserved parent is read as
none. -/
theorem of_ofImage (canonical : leaf.Canonical index entries) (standard : index.Standard)
    (resolves : leaf.Resolves index)
    (shown : ofImage index leaf.id (leaf.rendering index entries) = .ok later) :
    later.Canonical index entries := by
  have field := PageId.toParentField_ofParentField (PageId.toParentField leaf.parent)
  have unreserved := PageId.ofParentField_ne_reserved (PageId.toParentField leaf.parent)
  generalize PageId.ofParentField (PageId.toParentField leaf.parent) = parent at field unreserved
  have holds : { leaf with parent }.Holds index entries :=
    ⟨⟨canonical.image, canonical.shows, canonical.stacked, canonical.clear⟩, canonical.ascending,
      canonical.distinct⟩
  have drawn : { leaf with parent }.rendering index entries = leaf.rendering index entries :=
    @rendering_congr index index leaf { leaf with parent } rfl rfl rfl field entries
  have read := holds.ofImage_rendering standard unreserved
  rw [drawn] at read
  obtain rfl := Except.ok.inj (read.symm.trans shown)
  have known : leaf.form = .positionOnly →
      ∀ entry ∈ entries, index.format.resolve entry.row.pos = .ok entry.row := by
    intro positions entry member
    exact resolves positions _ canonical.shows.collects entry.row (List.mem_map_of_mem member)
  constructor
  · exact holds.encoded standard known
  · exact canonical.packed
  · intro _
    rw [rendering_encoded]
    rfl

/-- A row that fits and that no row refuses is put in, and nothing else changes. -/
theorem insert_fitting (canonical : leaf.Canonical index entries) (standard : index.Standard)
    (fits : leaf.fits index (index.format.size leaf.form row))
    (accepted : ∀ other ∈ entries.map RowEntry.row, ¬ index.Refuses row other)
    (engine : Engine) :
    ∃ outcome later after grown, (Leaf.insert index row).on leaf engine =
        ((outcome, later), after) ∧
      later.Canonical index grown ∧ later.id = leaf.id ∧ later.parent = leaf.parent ∧
      later.form = leaf.form ∧
      (grown.map RowEntry.row).Perm (row :: entries.map RowEntry.row) := by
  obtain ⟨outcome, later, after, run, _, inserts⟩ :=
    insert_on standard canonical.toHolds row engine
  cases inserts with
  | refused member refuses => exact absurd refuses (accepted _ member)
  | full _ short _ => exact absurd fits short
  | @placed _ grown accepted places =>
    have gains := places.gains standard canonical.toHolds accepted
    obtain ⟨form, dirty, rows⟩ := places.of_fits fits
    exact ⟨_, later, after, grown, run, .of_dirty gains.holds (gains.packed canonical.packed) dirty,
      gains.id, gains.parent, form, rows⟩

end Canonical

end Leaf

end SlottedLeaf
