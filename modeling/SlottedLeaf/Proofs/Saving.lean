import SlottedLeaf.Proofs.Sessions
import SlottedLeaf.Proofs.Shelves

/-!
# Clean leaves are saved

A write passes over a leaf that counts as clean. Nothing is lost by that: whatever was done before,
with success or without, what the store keeps for the page of a clean leaf is the leaf as it is. For
no call changes what a page shows of a leaf and leaves the leaf clean, and no call on one leaf
changes the image of the page of another.
-/

namespace SlottedLeaf

open RowEntry

variable {σ α : Type} {index : Index}

/-- The leaves that the store's pages show are in order. -/
def Store.Orderly (index : Index) (store : Store) : Prop :=
  ∀ page leaf, Leaf.ofImage index page (store.kept page) = .ok leaf → leaf.WellFormed index

/-- A page of zeros shows no leaf. -/
theorem Leaf.ofImage_zeros (id : PageId) (length : Nat) (leaf : Leaf) :
    ofImage index id (.zeros length) ≠ .ok leaf := by
  intro shown
  obtain ⟨_, header, _, decoded, _⟩ := ofImage_ok shown
  rw [Header.decode] at decoded
  obtain ⟨cut, decoded⟩ := except_guard_ok decoded
  have type : readField 1 (Buffer.zeros length) Header.typeOffset = .ok 0 := by
    simp only [Buffer.zeros, Array.size_replicate, headerLength] at cut
    have one : min 1 (length - 4) = 1 := by omega
    rw [readField, if_neg (by decide), if_neg (by simp [Buffer.zeros, Header.typeOffset]; omega),
      Buffer.slice_eq, Buffer.toList_zeros]
    simp [Bytes.slice, Bytes.zeros, Header.typeOffset, one, ofBigEndian]
  rw [type] at decoded
  cases decoded

/-- A store on which nothing was written has no leaves, so they are in order. -/
theorem Store.orderly_of_blank {store : Store}
    (blank : ∀ page, store.kept page = .zeros store.pageSize) : store.Orderly index := by
  intro page leaf shown
  rw [blank] at shown
  exact absurd shown (Leaf.ofImage_zeros page _ leaf)

/-- What the store reads for the page of the leaf is the leaf's image, and this shows the leaf as it
is, with its parent, its form, its offsets and its rows. -/
def Leaf.Saved (index : Index) (store : Store) (leaf : Leaf) : Prop :=
  store.read leaf.id = .ok leaf.image ∧
    ∃ loaded rows, ofImage index leaf.id leaf.image = .ok loaded ∧ leaf.Reloads index loaded ∧
      leaf.Collects index rows ∧ loaded.Collects index rows

/-- If the leaf keeps its rows by position only, the table gives each of them as the leaf has it. -/
def Leaf.Resolves (index : Index) (leaf : Leaf) : Prop :=
  leaf.form = .positionOnly → ∀ rows, leaf.Collects index rows →
    ∀ row ∈ rows, index.format.resolve row.pos = .ok row

namespace Leaf

variable {leaf later : Leaf} {entries : List RowEntry} {store : Store}

/-- The page of the leaf is kept with the leaf's image, and shows these entries. -/
structure Kept (index : Index) (store : Store) (leaf : Leaf) (entries : List RowEntry) : Prop where
  image : store.read leaf.id = .ok leaf.image
  shown : ∃ loaded, ofImage index leaf.id leaf.image = .ok loaded ∧ leaf.Reloads index loaded ∧
    loaded.Shows index entries

/-- The leaf is in order, and its page is kept if it counts as clean. -/
structure Secure (index : Index) (store : Store) (leaf : Leaf) (entries : List RowEntry) : Prop
    extends leaf.Holds index entries where
  unreserved : leaf.parent ≠ some .reserved
  kept : leaf.isDirty = false → leaf.Kept index store entries

theorem Kept.saved (kept : leaf.Kept index store entries) (shows : leaf.Shows index entries) :
    leaf.Saved index store := by
  obtain ⟨loaded, shown, reloads, seen⟩ := kept.shown
  exact ⟨kept.image, loaded, _, shown, reloads, shows.collects, seen.collects⟩

/-- What the store keeps stays when pages are handed out and noted. -/
theorem Secure.of_keeps {noted : List PageId} {after : Store}
    (secure : leaf.Secure index store entries) (keeps : store.Keeps noted after) :
    leaf.Secure index after entries :=
  ⟨secure.toHolds, secure.unreserved, fun clean =>
    ⟨keeps.read (secure.kept clean).image, (secure.kept clean).shown⟩⟩

theorem Reloads.decodes {loaded : Leaf} {n : Nat} (reloads : leaf.Reloads index loaded)
    (decodes : leaf.Decodes index n later) : later.Reloads index loaded where
  clean := reloads.clean
  header := by
    rw [decodes.parent, decodes.form, decodes.count]
    exact reloads.header
  id := reloads.id.trans decodes.id.symm
  parent := reloads.parent.trans decodes.parent.symm
  form := reloads.form.trans decodes.form.symm
  offsets := reloads.offsets.trans decodes.slots.offsets.symm
  start := by
    rw [reloads.start, Leaf.start, Leaf.start, decodes.count]
  count := reloads.count.trans decodes.count.symm

theorem Secure.decodes {n : Nat} (secure : leaf.Secure index store entries)
    (decodes : leaf.Decodes index n later) : later.Secure index store entries := by
  have same := decodes.samePage
  refine ⟨secure.toHolds.decodes decodes, ?_, ?_⟩
  · rw [same.parent]
    exact secure.unreserved
  · intro clean
    rw [decodes.isDirty] at clean
    obtain ⟨image, loaded, shown, reloads, seen⟩ := secure.kept clean
    constructor
    · rw [same.id, same.image]
      exact image
    · rw [same.id, same.image]
      exact ⟨loaded, shown, reloads.decodes decodes, seen⟩

/-- A leaf that was changed does not count as clean, so nothing is asked of its page. -/
theorem Secure.of_dirty (holds : leaf.Holds index entries)
    (unreserved : leaf.parent ≠ some .reserved) (dirty : leaf.isDirty) :
    leaf.Secure index store entries :=
  ⟨holds, unreserved, fun clean => by rw [dirty] at clean; cases clean⟩

/-! ## What the calls leave -/

theorem Inserts.secure {row : Row} {outcome : Except Fault Insertion}
    (inserts : leaf.Inserts index entries row outcome later) (standard : index.Standard)
    (secure : leaf.Secure index store entries) :
    ∃ changed, later.Secure index store changed := by
  obtain ⟨n, decodes, _⟩ := secure.shows.loadRows
  cases inserts with
  | refused _ _ => exact ⟨entries, secure.decodes decodes⟩
  | full _ _ _ => exact ⟨entries, secure.decodes decodes⟩
  | @placed _ grown accepted places =>
    have gains := places.gains standard secure.toHolds accepted
    have dirty : later.isDirty := by cases places <;> rfl
    have unreserved : later.parent ≠ some .reserved := by
      rw [gains.parent]
      exact secure.unreserved
    exact ⟨grown, .of_dirty gains.holds unreserved dirty⟩

theorem Removes.secure {row : Row} {outcome : Except Fault Removal}
    (removes : leaf.Removes index entries row outcome later)
    (secure : leaf.Secure index store entries) :
    ∃ changed, later.Secure index store changed := by
  cases removes with
  | absent decodes _ => exact ⟨entries, secure.decodes decodes⟩
  | only decodes _ => exact ⟨entries, secure.decodes decodes⟩
  | taken split _ _ =>
    subst split
    exact ⟨_, .of_dirty secure.toHolds.loses.holds secure.unreserved rfl⟩

theorem Splits.secure {point next n : Nat} {outcome : Except Fault Leaf}
    (splits : leaf.Splits index entries point next outcome later n)
    (secure : leaf.Secure index store entries) :
    (∃ changed, later.Secure index store changed) ∧
      ∀ right, outcome = .ok right → ∃ moved, right.Secure index store moved := by
  cases splits with
  | refused _ => exact ⟨⟨entries, secure⟩, by simp⟩
  | exhausted _ _ => exact ⟨⟨entries, secure⟩, by simp⟩
  | parted split _ _ _ _ parts =>
    refine ⟨⟨_, .of_dirty parts.stays secure.unreserved rfl⟩, ?_⟩
    rintro other same
    cases same
    refine ⟨_, .of_dirty parts.moves ?_ ?_⟩
    · rw [parts.fresh]
      exact secure.unreserved
    · rw [parts.fresh]
      rfl

theorem setParent_secure (secure : leaf.Secure index store entries) {parent : Option PageId}
    (unreserved : parent ≠ some .reserved) (engine : Engine) :
    ∃ later, (setParent parent).on leaf engine = ((.ok (), later), engine) ∧
      later.Secure index store entries := by
  refine ⟨_, setParent_on parent leaf engine, ?_⟩
  by_cases same : leaf.parent = parent
  · rw [if_pos same]
    exact secure
  · rw [if_neg same]
    exact .of_dirty ⟨⟨secure.image, secure.shows, secure.stacked, secure.clear⟩, secure.ascending,
      secure.distinct⟩ unreserved rfl

/-- What a leaf is read back as is in order, with the same entries. -/
theorem Holds.encoded (standard : index.Standard) (holds : leaf.Holds index entries)
    (resolves : leaf.form = .positionOnly →
      ∀ entry ∈ entries, index.format.resolve entry.row.pos = .ok entry.row) :
    (leaf.encoded index entries).Holds index entries where
  image := size_rendering
  shows := holds.shows_encoded standard resolves
  stacked := holds.stacked
  clear := by
    rw [(holds.shows_encoded standard resolves).start, ← holds.shows.start]
    exact holds.clear
  ascending := holds.ascending
  distinct := holds.distinct

/-- A leaf that was rendered and stored is kept. -/
theorem Holds.kept (standard : index.Standard) (holds : leaf.Holds index entries)
    (unreserved : leaf.parent ≠ some .reserved)
    (resolves : leaf.form = .positionOnly →
      ∀ entry ∈ entries, index.format.resolve entry.row.pos = .ok entry.row)
    (read : store.read leaf.id = .ok (leaf.rendering index entries)) :
    { leaf.rendered index entries with written := true }.Kept index store entries where
  image := read
  shown := ⟨leaf.encoded index entries, holds.ofImage_rendering standard unreserved,
    (holds.rendered true).reloads standard unreserved, holds.shows_encoded standard resolves⟩

/-- `later` is a leaf with the parent, the form, the offsets and the rows of `leaf`. -/
structure Alike (index : Index) (leaf later : Leaf) : Prop where
  id : later.id = leaf.id
  parent : later.parent = leaf.parent
  form : later.form = leaf.form
  offsets : later.offsets = leaf.offsets
  rows : ∀ rows, leaf.Collects index rows → later.Collects index rows

theorem Alike.refl (leaf : Leaf) : leaf.Alike index leaf := ⟨rfl, rfl, rfl, rfl, fun _ same => same⟩

theorem Holds.alike (holds : leaf.Holds index entries) (written : Bool) :
    leaf.Alike index { leaf.rendered index entries with written } where
  id := rfl
  parent := rfl
  form := rfl
  offsets := (offsets_holding leaf entries).trans holds.shows.offsets.symm
  rows rows collects engine := by
    rw [collects.unique holds.shows.collects engine]
    exact (holds.rendered written).shows.collects engine

/-- How a write ends: the leaf is kept as it is, or the store has not taken it and it still counts
as changed. -/
inductive Stored (index : Index) (leaf : Leaf) (entries : List RowEntry) (engine after : Engine) :
    Except Fault Unit → Leaf → Prop where
  | clean (same : after = engine) (clean : leaf.isDirty = false) :
      Stored index leaf entries engine after (.ok ()) leaf
  | refused {fault : Fault} {later : Leaf} (same : after.store = engine.store)
      (secure : later.Secure index engine.store entries) :
      Stored index leaf entries engine after (.error fault) later
  | taken {later : Leaf} {image : Buffer} (stores : engine.store.Stores leaf.id image after.store)
      (orderly : ∀ shown, ofImage index leaf.id image = .ok shown → shown.WellFormed index)
      (alike : leaf.Alike index later) (clean : later.isDirty = false)
      (secure : later.Secure index after.store entries) :
      Stored index leaf entries engine after (.ok ()) later

theorem write_stored (standard : index.Standard) (secure : leaf.Secure index store entries)
    (resolves : leaf.Resolves index) (engine : Engine) :
    ∃ outcome later after, (write index).on leaf engine = ((outcome, later), after) ∧
      leaf.Stored index entries engine after outcome later := by
  have holds := secure.toHolds
  have resolves : leaf.form = .positionOnly →
      ∀ entry ∈ entries, index.format.resolve entry.row.pos = .ok entry.row := by
    intro positions entry member
    exact resolves positions _ secure.shows.collects entry.row (List.mem_map_of_mem member)
  cases dirty : leaf.isDirty with
  | false =>
    refine ⟨.ok (), leaf, engine, ?_, .clean rfl dirty⟩
    simp only [write, LeafCall.on_bind, LeafCall.on_get, dirty, Bool.false_eq_true, if_false,
      LeafCall.on_pure]
  | true =>
    obtain ⟨n, runs⟩ := write_of_dirty standard secure.toLays dirty
    have run := runs engine
    cases taken : engine.store.write leaf.id (leaf.rendering index entries) with
    | error fault =>
      rw [taken] at run
      refine ⟨_, _, _, run, .refused rfl ?_⟩
      exact .of_dirty (holds.rendered leaf.written) secure.unreserved dirty
    | ok store =>
      have stores := Store.stores_of_write taken
      rw [taken] at run
      refine ⟨_, _, _, run, .taken stores ?_ (holds.alike true) rfl ?_⟩
      · intro shown seen
        have same : leaf.encoded index entries = shown :=
          Except.ok.inj ((holds.ofImage_rendering standard secure.unreserved).symm.trans seen)
        rw [← same]
        exact ⟨entries, holds.encoded standard resolves⟩
      · exact ⟨holds.rendered true, secure.unreserved,
          fun _ => holds.kept standard secure.unreserved resolves stores.read⟩

/-- A leaf is kept when it has just been loaded. -/
theorem secure_of_ofImage {id : PageId} {image : Buffer} (read : store.read id = .ok image)
    (orderly : store.Orderly index) (shown : ofImage index id image = .ok leaf) :
    leaf.id = id ∧ ∃ entries, leaf.Secure index store entries := by
  obtain ⟨_, same⟩ := Store.read_eq_ok_iff.mp read
  obtain ⟨entries, holds⟩ := orderly id leaf (by rw [same]; exact shown)
  obtain ⟨_, header, offsets, decoded, table, listed, _, rfl⟩ := ofImage_ok shown
  have count : offsets.length = header.count.toNat :=
    (OffsetTable.decodePairs_ok listed).1
  refine ⟨rfl, entries, holds, parent_of_decode decoded, ?_⟩
  intro _
  refine ⟨read, _, shown, ⟨rfl, ?_, rfl, rfl, rfl, rfl, rfl, rfl⟩, holds.shows⟩
  rw [decoded]
  simp [Leaf.count, count, ← table]

end Leaf

/-! ## Shelves -/

namespace Shelf

/-- Every leaf on the shelf lies under its own page and is in order, and its page is kept if it
counts as clean. -/
structure Safe (index : Index) (shelf : Shelf σ) : Prop where
  serves : shelf.engine.Serves index
  orderly : shelf.engine.store.Orderly index
  leaves : ∀ page leaf, shelf.leaves page = some leaf →
    leaf.id = page ∧ ∃ entries, leaf.Secure index shelf.engine.store entries

variable {shelf : Shelf σ} {leaf later : Leaf} {entries : List RowEntry} {engine : Engine}
  {page : PageId} {noted : List PageId}

/-- A shelf stays safe when pages are handed out and noted. -/
theorem Safe.of_keeps (safe : shelf.Safe index)
    (keeps : shelf.engine.store.Keeps noted engine.store) (walk : Cursor × σ) :
    { shelf with engine, walk }.Safe index where
  serves := safe.serves.of_keeps keeps
  orderly page leaf shown := by
    rw [keeps.kept] at shown
    exact safe.orderly page leaf shown
  leaves page leaf here := by
    obtain ⟨id, entries, secure⟩ := safe.leaves page leaf here
    exact ⟨id, entries, secure.of_keeps keeps⟩

theorem Safe.put (safe : shelf.Safe index) (secure : leaf.Secure index shelf.engine.store entries) :
    (shelf.put leaf).Safe index where
  serves := safe.serves
  orderly := safe.orderly
  leaves page other here := by
    rcases of_leaves_put here with ⟨same, rfl⟩ | ⟨_, before⟩
    · exact ⟨same.symm, entries, secure⟩
    · exact safe.leaves page other before

/-- A shelf stays safe when a leaf is stored and put on it, since no other page changes. -/
theorem Safe.stored (safe : shelf.Safe index) {image : Buffer}
    (stores : shelf.engine.store.Stores leaf.id image engine.store)
    (orderly : ∀ shown, Leaf.ofImage index leaf.id image = .ok shown → shown.WellFormed index)
    (secure : leaf.Secure index engine.store entries) :
    ({ shelf with engine }.put leaf).Safe index where
  serves := safe.serves.of_stores stores
  orderly page other shown := by
    have shown : Leaf.ofImage index page (engine.store.kept page) = .ok other := shown
    by_cases same : page = leaf.id
    · rw [same, stores.here] at shown
      exact orderly other shown
    · rw [stores.elsewhere page same] at shown
      exact safe.orderly page other shown
  leaves page other here := by
    rcases of_leaves_put here with ⟨same, rfl⟩ | ⟨elsewhere, before⟩
    · exact ⟨same.symm, entries, secure⟩
    · obtain ⟨id, others, kept⟩ := safe.leaves page other before
      refine ⟨id, others, kept.toHolds, kept.unreserved, ?_⟩
      intro clean
      refine ⟨?_, (kept.kept clean).shown⟩
      obtain ⟨allocated, image⟩ := Store.read_eq_ok_iff.mp (kept.kept clean).image
      refine Store.read_eq_ok_iff.mpr ⟨⟨allocated.unreserved, ?_⟩, ?_⟩
      · show other.id.number.toNat < engine.store.nextPage
        rw [stores.nextPage]
        exact allocated.below
      · rw [← image]
        exact stores.elsewhere other.id (by rwa [id])

theorem Safe.withLeaf (safe : shelf.Safe index) {act : Leaf → Except Fault Reply × Shelf σ}
    (acts : ∀ leaf, shelf.leaves page = some leaf → (act leaf).2.Safe index) :
    (shelf.withLeaf page act).2.Safe index :=
  withLeaf_of safe acts

/-- A call that may hand out and note pages, but writes none, keeps a shelf safe if it leaves a
secure leaf secure. -/
theorem Safe.run (safe : shelf.Safe index) (here : shelf.leaves page = some leaf)
    {call : LeafCall α} (works : call.Works) (answer : α → Reply)
    (settles : ∀ store entries, leaf.Secure index store entries → ∀ engine,
      ∃ changed, (call.on leaf engine).1.2.Secure index store changed) :
    (shelf.run leaf call answer).2.Safe index := by
  obtain ⟨_, entries, secure⟩ := safe.leaves page leaf here
  obtain ⟨noted, worked⟩ := works leaf shelf.engine
  have later := safe.of_keeps worked.keeps shelf.walk
  obtain ⟨changed, settled⟩ := settles _ _ (secure.of_keeps worked.keeps) shelf.engine
  exact later.put settled

theorem Safe.peek (safe : shelf.Safe index) (here : shelf.leaves page = some leaf)
    {call : LeafCall α} (peeks : call.Peeks index) (answer : α → Reply) :
    (shelf.run leaf call answer).2.Safe index := by
  refine safe.run here peeks.works answer ?_
  intro store entries secure engine
  obtain ⟨outcome, n, later, decodes, run⟩ := peeks.on leaf engine
  rw [run]
  exact ⟨entries, secure.decodes decodes⟩

theorem Safe.find (safe : shelf.Safe index) (here : shelf.leaves page = some leaf)
    (nodes : NodeLayer σ) (target : Row) (past : Bool) :
    (shelf.runFind index nodes leaf target past).2.Safe index := by
  obtain ⟨outcome, walk, run⟩ := runFind_eq index nodes shelf leaf target past
  obtain ⟨_, entries, secure⟩ := safe.leaves page leaf here
  obtain ⟨_, n, later, decodes, sought⟩ := (Leaf.seek_peeks index target past).on leaf shelf.engine
  rw [run, sought]
  have keeps : shelf.engine.store.Keeps [] (shelf.engine.counted .rowsDecoded n).store :=
    .of_eq rfl
  exact (safe.of_keeps keeps walk).put ((secure.of_keeps keeps).decodes decodes)

theorem Safe.split (standard : index.Standard) (safe : shelf.Safe index)
    (here : shelf.leaves page = some leaf) (point : Nat) :
    (shelf.runSplit index leaf point).2.Safe index := by
  obtain ⟨_, entries, secure⟩ := safe.leaves page leaf here
  obtain ⟨outcome, left, after, n, run, _, splits⟩ :=
    Leaf.split_on standard secure.toHolds point safe.serves
  obtain ⟨noted, worked⟩ := Leaf.split_works index point leaf shelf.engine
  rw [run] at worked
  obtain ⟨⟨kept, settled⟩, moved⟩ := splits.secure (secure.of_keeps worked.keeps)
  have later := (safe.of_keeps worked.keeps shelf.walk).put settled
  rw [runSplit, run]
  cases outcome with
  | error fault => exact later
  | ok right =>
    obtain ⟨entries, fresh⟩ := moved right rfl
    exact later.put fresh

theorem Safe.write (standard : index.Standard) (safe : shelf.Safe index)
    (resolves : leaf.Resolves index) (here : shelf.leaves page = some leaf)
    (answer : Unit → Reply) :
    (shelf.run leaf (Leaf.write index) answer).2.Safe index := by
  obtain ⟨_, entries, secure⟩ := safe.leaves page leaf here
  obtain ⟨outcome, later, after, run, stored⟩ :=
    Leaf.write_stored standard secure resolves shelf.engine
  rw [Shelf.run, run]
  cases stored with
  | clean same _ =>
    rw [same]
    exact safe.put secure
  | refused same settled =>
    have keeps : shelf.engine.store.Keeps [] after.store := .of_eq same
    exact (safe.of_keeps keeps shelf.walk).put (settled.of_keeps keeps)
  | taken stores orderly alike _ settled =>
    rw [← alike.id] at stores orderly
    exact safe.stored stores orderly settled

/-- A write that succeeds leaves the leaf as it was, and clean. -/
theorem write_succeeds (standard : index.Standard) {nodes : NodeLayer σ} (safe : shelf.Safe index)
    (resolves : leaf.Resolves index) (here : shelf.leaves page = some leaf) {answer : Reply}
    {later : Shelf σ} (run : shelf.perform index nodes (.write page) = (.ok answer, later)) :
    ∃ written, later.leaves page = some written ∧ leaf.Alike index written ∧
      written.isDirty = false := by
  obtain ⟨id, entries, secure⟩ := safe.leaves page leaf here
  obtain ⟨outcome, written, after, wrote, stored⟩ :=
    Leaf.write_stored standard secure resolves shelf.engine
  simp only [Shelf.perform, withLeaf, here, Shelf.run, wrote] at run
  cases stored with
  | clean _ clean =>
    cases run
    exact ⟨leaf, by rw [leaves_put, if_pos id.symm], .refl leaf, clean⟩
  | refused _ _ => cases run
  | taken _ _ alike clean _ =>
    cases run
    exact ⟨written, by rw [leaves_put, if_pos (alike.id.trans id).symm], alike, clean⟩

theorem Safe.load (safe : shelf.Safe index) (page : PageId) :
    (shelf.take (Leaf.load index page)).2.Safe index := by
  have same := Leaf.load_store index page shelf.engine
  rcases run : (Leaf.load index page).on shelf.engine with ⟨fault | leaf, after⟩
  · rw [run] at same
    have keeps : shelf.engine.store.Keeps [] after.store := .of_eq same
    rw [Shelf.take, run]
    exact safe.of_keeps keeps shelf.walk
  · obtain ⟨same, image, read, shown⟩ := Leaf.load_ok run
    have keeps : shelf.engine.store.Keeps [] after.store := .of_eq same
    obtain ⟨_, entries, secure⟩ := Leaf.secure_of_ofImage read safe.orderly shown
    rw [Shelf.take, run]
    exact (safe.of_keeps keeps shelf.walk).put (secure.of_keeps keeps)

theorem Safe.createRoot (standard : index.Standard) (safe : shelf.Safe index) :
    (shelf.take (Leaf.createRoot index)).2.Safe index := by
  rw [Shelf.take, Leaf.createRoot_on]
  rcases allocated : Engine.allocatePage.on shelf.engine with ⟨fault | id, middle⟩
  · rw [Engine.allocatePage_error allocated]
    exact safe
  have keeps := Store.keeps_of_allocate (Engine.allocatePage_ok allocated)
  have safe := safe.of_keeps keeps shelf.walk
  have blank : (Leaf.create index id none .full).Secure index middle.store [] :=
    .of_dirty (.create standard id none .full) (by simp [Leaf.create]) rfl
  have full : (Leaf.create index id none .full).Resolves index := by
    intro positions
    cases positions
  obtain ⟨outcome, later, after, run, stored⟩ := Leaf.write_stored standard blank full middle
  simp only [run]
  cases stored with
  | clean _ clean => cases clean
  | refused same settled =>
    exact safe.of_keeps (.of_eq same) shelf.walk
  | taken stores orderly alike _ settled =>
    rw [← alike.id] at stores orderly
    exact safe.stored stores orderly settled

end Shelf

/-- The task gives no leaf the reserved page for a parent, which no page could name. -/
def Task.Proper : Task → Prop
  | .create _ parent _ => parent ≠ some .reserved
  | .setParent _ parent => parent ≠ some .reserved
  | _ => True

namespace Shelf

variable {shelf : Shelf σ}

/-- Every task keeps a shelf safe, whether it fails or not. -/
theorem Safe.perform (standard : index.Standard) (nodes : NodeLayer σ) (safe : shelf.Safe index)
    {task : Task} (proper : task.Proper)
    (resolves : ∀ page leaf, task = .write page → shelf.leaves page = some leaf →
      leaf.Resolves index) :
    (shelf.perform index nodes task).2.Safe index := by
  cases task with
  | create page parent form =>
    exact safe.put (.of_dirty (.create standard page parent form) proper rfl)
  | createRoot => exact safe.createRoot standard
  | load page => exact safe.load page
  | close page =>
    refine ⟨safe.serves, safe.orderly, ?_⟩
    intro other leaf here
    exact safe.leaves other leaf (of_leaves_drop here)
  | insert page row =>
    refine safe.withLeaf fun leaf here => ?_
    refine safe.run here (Leaf.insert_works index row) _ fun store entries secure engine => ?_
    obtain ⟨_, _, _, run, _, inserts⟩ := Leaf.insert_on standard secure.toHolds row engine
    rw [run]
    exact inserts.secure standard secure
  | remove page row =>
    refine safe.withLeaf fun leaf here => ?_
    refine safe.run here (Leaf.remove_works index row) _ fun store entries secure engine => ?_
    obtain ⟨_, _, _, run, _, removes⟩ := Leaf.remove_on secure.toHolds row engine
    rw [run]
    exact removes.secure secure
  | split page point =>
    exact safe.withLeaf fun leaf here => safe.split standard here point
  | setParent page parent =>
    refine safe.withLeaf fun leaf here => ?_
    refine safe.run here (Leaf.setParent_works parent) _ fun store entries secure engine => ?_
    obtain ⟨later, run, settled⟩ := Leaf.setParent_secure secure proper engine
    rw [run]
    exact ⟨entries, settled⟩
  | row page slot =>
    exact safe.withLeaf fun leaf here => safe.peek here (Leaf.row_peeks index slot) _
  | rows page =>
    exact safe.withLeaf fun leaf here => safe.peek here (Leaf.rows_peeks index) _
  | find page target past =>
    exact safe.withLeaf fun leaf here => safe.find here nodes target past
  | write page =>
    exact safe.withLeaf fun leaf here =>
      safe.write standard (resolves page leaf rfl here) here _

/-- Along the tasks, each leaf that is to be written resolves. -/
def WritesResolve (index : Index) (nodes : NodeLayer σ) (shelf : Shelf σ) (tasks : List Task) :
    Prop :=
  ∀ n page leaf, tasks[n]? = some (.write page) →
    (shelf.after index nodes (tasks.take n)).leaves page = some leaf → leaf.Resolves index

/-- If one leaf is written along the tasks, it is enough that the rows it has then resolve. -/
theorem WritesResolve.of_single {nodes : NodeLayer σ} {page : PageId} (before behind : List Task)
    {engine : Engine} {collected : List Row}
    (single : ∀ other, Task.write other ∉ before ++ behind)
    (rows : ((shelf.after index nodes before).leaves page).map
      (fun leaf => ((Leaf.rows index).on leaf engine).1.1) = some (.ok collected))
    (resolved : ∀ row ∈ collected, index.format.resolve row.pos = .ok row) :
    shelf.WritesResolve index nodes (before ++ .write page :: behind) := by
  intro n other leaf next here
  rcases Nat.lt_trichotomy n before.length with early | rfl | late
  · rw [List.getElem?_append_left early] at next
    exact absurd (List.mem_append_left behind (List.mem_of_getElem? next)) (single other)
  · rw [List.getElem?_append_right (Nat.le_refl _), Nat.sub_self] at next
    cases next
    rw [List.take_left] at here
    rw [here] at rows
    intro _ others collects row member
    obtain rfl : others = collected :=
      Except.ok.inj ((collects engine).symm.trans (Option.some.inj rows))
    exact resolved row member
  · obtain ⟨k, rfl⟩ := Nat.exists_eq_add_of_lt late
    rw [List.getElem?_append_right (by omega), Nat.add_assoc, Nat.add_sub_cancel_left,
      List.getElem?_cons_succ] at next
    exact absurd (List.mem_append_right before (List.mem_of_getElem? next)) (single other)

theorem Safe.after (standard : index.Standard) (nodes : NodeLayer σ) {tasks : List Task}
    (proper : ∀ task ∈ tasks, task.Proper) (resolves : shelf.WritesResolve index nodes tasks)
    (safe : shelf.Safe index) : (shelf.after index nodes tasks).Safe index := by
  induction tasks generalizing shelf with
  | nil => exact safe
  | cons task rest ih =>
    refine ih (fun other member => proper other (List.mem_cons_of_mem task member)) ?_
      (safe.perform standard nodes (proper task List.mem_cons_self) ?_)
    · intro n page leaf next here
      exact resolves (n + 1) page leaf next here
    · intro page leaf next here
      exact resolves 0 page leaf (congrArg some next) here

/-- Whatever is done with the leaves of a store, and whatever of it fails: an open leaf that counts
as clean is saved. So a write that succeeds, if only because it passes over a clean leaf, leaves the
leaf as it was, and saved. -/
theorem clean_leaves_saved (standard : index.Standard) (nodes : NodeLayer σ) {engine : Engine}
    (serves : engine.Serves index) (orderly : engine.store.Orderly index) (walk : Cursor × σ)
    {tasks : List Task} (proper : ∀ task ∈ tasks, task.Proper)
    (resolves : (empty engine walk).WritesResolve index nodes tasks) :
    let shelf := (empty engine walk).after index nodes tasks
    (∀ page leaf, shelf.leaves page = some leaf →
      leaf.id = page ∧ (leaf.isDirty = false → leaf.Saved index shelf.engine.store)) ∧
    ∀ page leaf answer later, shelf.leaves page = some leaf → leaf.Resolves index →
      shelf.perform index nodes (.write page) = (.ok answer, later) →
        ∃ written, later.leaves page = some written ∧ leaf.Alike index written ∧
          written.isDirty = false ∧ written.Saved index later.engine.store := by
  intro shelf
  have blank : (empty engine walk).Safe index := ⟨serves, orderly, by simp [empty]⟩
  have safe : shelf.Safe index := blank.after standard nodes proper resolves
  constructor
  · intro page leaf here
    obtain ⟨id, entries, secure⟩ := safe.leaves page leaf here
    exact ⟨id, fun clean => (secure.kept clean).saved secure.shows⟩
  · intro page leaf answer later here resolves run
    have kept : later.Safe index := by
      have proper : (Task.write page).Proper := trivial
      have next := safe.perform standard nodes proper (by
        intro other found same lies
        cases same
        rw [Option.some.inj (here.symm.trans lies)] at resolves
        exact resolves)
      rwa [run] at next
    obtain ⟨written, placed, alike, clean⟩ := write_succeeds standard safe resolves here run
    obtain ⟨_, entries, secure⟩ := kept.leaves page written placed
    exact ⟨written, placed, alike, clean, (secure.kept clean).saved secure.shows⟩

/-- So is a leaf of position-only rows that was filled, given a parent and written, with a removal
that failed in between. -/
theorem clean_leaves_saved_positionOnly :
    let row : Row := ⟨some [97], ⟨3⟩⟩
    let index := Index.smallest .default (RowTable.ofList [row]).resolve
    let tasks : List Task := [.create ⟨1⟩ none .positionOnly, .insert ⟨1⟩ row,
      .setParent ⟨1⟩ (some ⟨2⟩), .remove ⟨1⟩ ⟨none, ⟨7⟩⟩, .write ⟨1⟩, .rows ⟨1⟩]
    let shelf := (blank 1).after index .idle tasks
    ∃ leaf, shelf.leaves ⟨1⟩ = some leaf ∧ leaf.isDirty = false ∧
      leaf.Saved index shelf.engine.store := by
  have written : (((blank 1).after
      (Index.smallest .default (RowTable.ofList [⟨some [97], ⟨3⟩⟩]).resolve) .idle
      [.create ⟨1⟩ none .positionOnly, .insert ⟨1⟩ ⟨some [97], ⟨3⟩⟩, .setParent ⟨1⟩ (some ⟨2⟩),
        .remove ⟨1⟩ ⟨none, ⟨7⟩⟩]).leaves ⟨1⟩).map
        (fun leaf => ((Leaf.rows (Index.smallest .default
          (RowTable.ofList [⟨some [97], ⟨3⟩⟩]).resolve)).on leaf (.inMemory 64 0)).1.1) =
      some (.ok [⟨some [97], ⟨3⟩⟩]) := by decide +kernel
  have clean : (((blank 1).after
      (Index.smallest .default (RowTable.ofList [⟨some [97], ⟨3⟩⟩]).resolve) .idle
      [.create ⟨1⟩ none .positionOnly, .insert ⟨1⟩ ⟨some [97], ⟨3⟩⟩, .setParent ⟨1⟩ (some ⟨2⟩),
        .remove ⟨1⟩ ⟨none, ⟨7⟩⟩, .write ⟨1⟩, .rows ⟨1⟩]).leaves ⟨1⟩).map Leaf.isDirty =
      some false := by decide +kernel
  intro row index tasks shelf
  obtain ⟨leaf, here, clean⟩ := Option.map_eq_some_iff.mp clean
  have proper : ∀ task ∈ tasks, task.Proper := by
    simp [tasks, Task.Proper, PageId.reserved]
  have resolves : (blank 1).WritesResolve index .idle tasks :=
    .of_single (tasks.take 4) [.rows ⟨1⟩] (by simp [tasks]) written (by decide)
  have saved := (clean_leaves_saved (Index.smallest_standard _ _) .idle
    (Engine.inMemory_serves index 1) (Store.orderly_of_blank fun _ => rfl) (Cursor.off, ()) proper
    resolves).1 ⟨1⟩ leaf here
  exact ⟨leaf, here, clean, saved.2 clean⟩

end Shelf

end SlottedLeaf
