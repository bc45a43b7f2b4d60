import SlottedLeaf.Proofs.PageImage
import SlottedLeaf.Row.Table

/-!
# Writing and loading leaves

Writing a leaf that changed renders it and hands the image to the store. What the store then reads
for the page is that image, so the leaf that is loaded from it is the one that was written.
-/

namespace SlottedLeaf

open RowEntry

namespace Leaf

variable {index : Index} {leaf : Leaf} {entries : List RowEntry}

/-! ## Writing -/

/-- The leaf once its image shows these entries. -/
def rendered (index : Index) (leaf : Leaf) (entries : List RowEntry) : Leaf :=
  { leaf.holding entries with image := leaf.rendering index entries }

theorem render_on (standard : index.Standard) (lays : leaf.Lays index entries) :
    ∃ n, ∀ engine, (render index).on leaf engine =
      ((.ok (), leaf.rendered index entries), engine.counted .rowsDecoded n) := by
  obtain ⟨n, _, loaded⟩ := lays.shows.loadRows
  have few := lays.length_le standard
  refine ⟨n, ?_⟩
  intro engine
  simp only [render, LeafCall.on_bind, loaded, LeafCall.on_get, count_holding, image_holding,
    lays.image]
  rw [if_neg (Nat.not_lt.mpr few), lays.put_apply standard]
  rfl

/-- A leaf that is laid out and changed is rendered and handed to the store. -/
theorem write_of_dirty (standard : index.Standard) (lays : leaf.Lays index entries)
    (dirty : leaf.isDirty) :
    ∃ n, ∀ engine, (write index).on leaf engine =
      match engine.store.write leaf.id (leaf.rendering index entries) with
      | .error fault =>
        ((.error fault, leaf.rendered index entries), engine.counted .rowsDecoded n)
      | .ok store =>
        ((.ok (), { leaf.rendered index entries with written := true }),
          (((engine.counted .rowsDecoded n).stored store).counted .pagesWritten 1).reported
            (.leafWritten leaf.id entries.length leaf.form)) := by
  obtain ⟨n, rendered⟩ := render_on standard lays
  refine ⟨n, ?_⟩
  intro engine
  simp only [write, LeafCall.on_bind, LeafCall.on_get, dirty, if_true, rendered,
    LeafCall.on_engine, Engine.writePage, EngineCall.on_bind, EngineCall.on_get,
    EngineCall.on_ofExcept, Engine.store_counted]
  rw [show (leaf.rendered index entries).id = leaf.id from rfl,
    show (leaf.rendered index entries).image = leaf.rendering index entries from rfl]
  cases engine.store.write leaf.id (leaf.rendering index entries) with
  | error fault => rfl
  | ok store =>
    simp only [EngineCall.on_modify, LeafCall.on_set, LeafCall.on_count, LeafCall.on_report]
    rw [show (leaf.rendered index entries).count = entries.length from count_holding leaf entries]
    rfl

/-- A write ends in one of these ways on a leaf with these entries. -/
inductive Writes (index : Index) (leaf : Leaf) (entries : List RowEntry) :
    Except Fault Unit → Leaf → Prop where
  /-- The leaf has not changed. -/
  | clean (written : leaf.written) : Writes index leaf entries (.ok ()) leaf
  /-- The store took the image. -/
  | taken (dirty : leaf.isDirty) :
      Writes index leaf entries (.ok ()) { leaf.rendered index entries with written := true }
  /-- The store did not take the image. -/
  | refused (dirty : leaf.isDirty) (cause : Misuse) :
      Writes index leaf entries (.error (.invalid cause)) (leaf.rendered index entries)

/-- A write of a leaf that is laid out ends in one of these ways, and hands out no page. -/
theorem write_on (standard : index.Standard) (lays : leaf.Lays index entries) (engine : Engine) :
    ∃ outcome later after, (write index).on leaf engine = ((outcome, later), after) ∧
      engine.store.Grows 0 after.store ∧ leaf.Writes index entries outcome later := by
  by_cases dirty : leaf.isDirty
  · obtain ⟨n, run⟩ := write_of_dirty standard lays dirty
    rcases engine.store.write_cases leaf.id (leaf.rendering index entries) with
      ⟨store, taken, grows⟩ | ⟨cause, refused⟩
    · rw [run, taken]
      exact ⟨_, _, _, rfl, grows, .taken dirty⟩
    · rw [run, refused]
      exact ⟨_, _, _, rfl, .refl _, .refused dirty cause⟩
  · refine ⟨.ok (), leaf, engine, ?_, .refl _, .clean (by simpa [isDirty] using dirty)⟩
    simp only [write, LeafCall.on_bind, LeafCall.on_get, if_neg dirty, LeafCall.on_pure]

theorem Holds.rendered (holds : leaf.Holds index entries) (written : Bool) :
    { leaf.rendered index entries with written }.Holds index entries := by
  have clear := holds.clear
  rw [holds.shows.start] at clear
  exact @Holds.of_holding index { leaf with image := leaf.rendering index entries, written } entries
    size_rendering holds.stacked clear holds.ascending holds.distinct

/-! ## Loading -/

/-- What a store reads for a page is loaded, if it is the image of a leaf of the index. -/
theorem load_of_read {id : PageId} {engine : Engine} {image : Buffer} {loaded : Leaf}
    (kept : engine.store.read id = .ok image) (shown : ofImage index id image = .ok loaded) :
    ((load index id).on engine).1 = .ok loaded := by
  simp only [load, Engine.readPage, EngineCall.on_bind, EngineCall.on_get, kept,
    EngineCall.on_ofExcept, Leaf.read, shown, EngineCall.on_count, EngineCall.on_report,
    EngineCall.on_pure]

/-- The rows of the leaf lie apart from each other and from the offset table, whatever they are. -/
def LaidOut (index : Index) (leaf : Leaf) : Prop := ∃ entries, leaf.Lays index entries

/-- `loaded` is a leaf that has not changed since it was read, and it is laid out like `leaf`. -/
structure Reloads (index : Index) (leaf loaded : Leaf) : Prop where
  clean : loaded.isDirty = false
  header : Header.decode loaded.image =
    .ok ⟨leaf.parent, leaf.form, index.table, UInt16.ofNat leaf.count⟩
  id : loaded.id = leaf.id
  parent : loaded.parent = leaf.parent
  form : loaded.form = leaf.form
  offsets : loaded.offsets = leaf.offsets
  start : loaded.start = leaf.start
  count : loaded.count = leaf.count

theorem Lays.reloads (standard : index.Standard) (lays : leaf.Lays index entries)
    (unreserved : leaf.parent ≠ some .reserved) :
    leaf.Reloads index (leaf.encoded index entries) where
  clean := rfl
  header := by
    rw [lays.shows.count]
    exact lays.decode_rendering standard unreserved
  id := rfl
  parent := rfl
  form := rfl
  offsets := by
    rw [lays.shows.offsets]
    simp [Leaf.offsets, encoded, Function.comp_def]
  start := by
    rw [lays.shows.start, Leaf.start, Leaf.count, encoded, List.length_map]
  count := by
    rw [lays.shows.count, Leaf.count, encoded, List.length_map]

/-- A leaf that is laid out can be written to its page, and what is loaded from there is the leaf
that was written, with the same rows at the same offsets. -/
theorem load_write (standard : index.Standard) (laidOut : leaf.LaidOut index)
    (dirty : leaf.isDirty) (unreserved : leaf.parent ≠ some .reserved) {collected : List Row}
    (collects : leaf.Collects index collected)
    (resolves : leaf.form = .positionOnly →
      ∀ row ∈ collected, index.format.resolve row.pos = .ok row)
    {engine : Engine} (sized : engine.store.pageSize = index.pageSize)
    (allocated : engine.store.Allocated leaf.id) :
    (leaf.count ≤ 65535 ∧ ∀ offset ∈ leaf.offsets, offset ≤ 65535) ∧
      ((write index).on leaf engine).1.1 = .ok () ∧
      ∃ loaded, ((load index leaf.id).on ((write index).on leaf engine).2).1 = .ok loaded ∧
        leaf.Reloads index loaded ∧ loaded.Collects index collected := by
  obtain ⟨entries, lays⟩ := laidOut
  obtain rfl := lays.shows.collects.unique collects engine
  obtain ⟨n, run⟩ := write_of_dirty standard lays dirty
  have whole : (leaf.rendering index entries).size = engine.store.pageSize := by
    rw [size_rendering, sized]
  obtain ⟨store, taken, _, kept⟩ := Store.write_of_allocated allocated whole
  rw [run, taken]
  refine ⟨⟨?_, ?_⟩, rfl, _, load_of_read kept (lays.ofImage_rendering standard unreserved),
    lays.reloads standard unreserved, ?_⟩
  · rw [lays.shows.count]
    exact lays.length_le standard
  · rw [lays.shows.offsets]
    exact lays.offset_le standard
  · apply Shows.collects
    apply lays.shows_encoded standard
    intro positions
    simpa using resolves positions

/-- So can a leaf with two rows that the table has. -/
theorem load_write_smallest :
    let rows : List Row := [⟨none, ⟨7⟩⟩, ⟨some [97], ⟨3⟩⟩]
    let index := Index.smallest .default (RowTable.ofList rows).resolve
    let leaf := ofRows index ⟨1⟩ (some ⟨2⟩) .positionOnly rows
    let engine := Engine.inMemory 64 1
    ((write index).on leaf engine).1.1 = .ok () ∧
      ∃ loaded, ((load index leaf.id).on ((write index).on leaf engine).2).1 = .ok loaded ∧
        leaf.Reloads index loaded ∧ loaded.Collects index rows := by
  intro rows index leaf engine
  have standard : index.Standard := Index.smallest_standard _ _
  have holds : leaf.Holds index (RowEntry.pack (index.format.size .positionOnly) 64 rows) :=
    .ofRows ⟨1⟩ (some ⟨2⟩) .positionOnly (by decide) (by decide) (by decide)
  have collects : leaf.Collects index rows := by
    simpa using holds.shows.collects
  have resolves : ∀ row ∈ rows, index.format.resolve row.pos = .ok row := by decide
  have dirty : leaf.isDirty := rfl
  have unreserved : leaf.parent ≠ some .reserved := by decide
  have sized : engine.store.pageSize = index.pageSize := rfl
  have allocated : engine.store.Allocated leaf.id := ⟨by decide, by decide⟩
  exact (load_write standard ⟨_, holds.toLays⟩ dirty unreserved collects (fun _ => resolves) sized
    allocated).2

end Leaf

end SlottedLeaf
