import SlottedLeaf.Proofs.Lookups

/-!
# Histories of canonical leaves

Leaves come about by tasks, of which some fail, and leaves that were written are loaded again. The
table that resolves rows may change in between, as long as it keeps the rows that leaves have. Every
leaf is canonical then: a page that is loaded shows what was written to it, so a leaf that is loaded
is as the one that was written.
-/

namespace SlottedLeaf

open RowEntry

variable {σ τ α : Type} {index other : Index}

/-- The page shows no leaf. -/
def Store.Bare (index : Index) (store : Store) (page : PageId) : Prop :=
  ∀ leaf, Leaf.ofImage index page (store.kept page) ≠ .ok leaf

/-- The task, ended like this, has had the store take the image of a leaf for the page. -/
def Task.Writes (page : PageId) (outcome : Except Fault Reply) : Task → Prop
  | .write target => target = page ∧ outcome = .ok (.written true)
  | .createRoot => outcome = .ok (.opened page)
  | _ => False

namespace Shelf

/-- Along the tasks, a page is loaded only if it is one of these or a leaf was written to it. -/
def LoadsOwn (index : Index) (nodes : NodeLayer σ) :
    (own : PageId → Prop) → Shelf σ → List Task → Prop
  | _, _, [] => True
  | own, shelf, task :: rest =>
    (∀ page, task = .load page → own page) ∧
      LoadsOwn index nodes
        (fun page => own page ∨ task.Writes page (shelf.perform index nodes task).1)
        (shelf.perform index nodes task).2 rest

/-- The leaf is open, or one of these pages shows it. -/
inductive Offers (index : Index) (own : PageId → Prop) (shelf : Shelf σ) (leaf : Leaf) : Prop where
  | opened {page : PageId} (here : shelf.leaves page = some leaf)
  | shown {page : PageId} (mine : own page)
      (shown : Leaf.ofImage index page (shelf.engine.store.kept page) = .ok leaf)

/-- The shelf is what tasks have made of one without leaves, whether they failed or not, and these
pages were written or bare before. Rows that are written by position resolve. Between two tasks the
table may change, so that rows are looked up elsewhere, but it keeps the rows of the leaves. -/
inductive MadeOver : Index → (PageId → Prop) → Shelf σ → Prop where
  | empty {index : Index} {engine : Engine} (serves : engine.Serves index) (walk : Cursor × σ) :
      MadeOver index (engine.store.Bare index) (Shelf.empty engine walk)
  | task {index : Index} {own : PageId → Prop} {shelf : Shelf σ} (made : MadeOver index own shelf)
      (nodes : NodeLayer σ) {task : Task} (loads : ∀ page, task = .load page → own page)
      (resolves : ∀ page leaf, task = .write page → shelf.leaves page = some leaf →
        leaf.Resolves index) :
      MadeOver index (fun page => own page ∨ task.Writes page (shelf.perform index nodes task).1)
        (shelf.perform index nodes task).2
  | relist {index : Index} {own : PageId → Prop} {shelf : Shelf σ} (made : MadeOver index own shelf)
      {resolve : RowPos → Except Fault Row}
      (keeps : ∀ leaf, shelf.Offers index own leaf →
        ∀ rows, leaf.Collects index rows → leaf.Collects (index.lookingUp resolve) rows) :
      MadeOver (index.lookingUp resolve) own shelf

/-- The shelf is what tasks have made of one without leaves, with no leaf loaded but those that were
written. -/
def Made (index : Index) (shelf : Shelf σ) : Prop := ∃ own, shelf.MadeOver index own

/-- Every leaf on the shelf lies under its own page and is canonical, and so is what these pages
show. -/
structure Canonical (index : Index) (own : PageId → Prop) (shelf : Shelf σ) : Prop where
  serves : shelf.engine.Serves index
  pages : ∀ page, own page → ∀ leaf, Leaf.ofImage index page (shelf.engine.store.kept page) =
    .ok leaf → ∃ entries, leaf.Canonical index entries
  leaves : ∀ page leaf, shelf.leaves page = some leaf →
    leaf.id = page ∧ ∃ entries, leaf.Canonical index entries

variable {shelf : Shelf σ} {leaf later : Leaf} {entries : List RowEntry} {engine : Engine}
  {page : PageId} {noted : List PageId} {own more : PageId → Prop} {nodes : NodeLayer σ}

namespace Canonical

theorem mono (canonical : shelf.Canonical index own) (fewer : ∀ page, more page → own page) :
    shelf.Canonical index more :=
  ⟨canonical.serves, fun page mine => canonical.pages page (fewer page mine), canonical.leaves⟩

/-- A task that does not write adds no page to those that may be loaded. -/
theorem silent {task : Task} {outcome : Except Fault Reply} (canonical : shelf.Canonical index own)
    (none : ∀ page, ¬ task.Writes page outcome) :
    shelf.Canonical index fun page => own page ∨ task.Writes page outcome := by
  apply canonical.mono
  rintro page (mine | wrote)
  · exact mine
  · exact absurd wrote (none page)

theorem of_keeps (canonical : shelf.Canonical index own)
    (keeps : shelf.engine.store.Keeps noted engine.store) (walk : Cursor × σ) :
    { shelf with engine, walk }.Canonical index own where
  serves := canonical.serves.of_keeps keeps
  pages page mine leaf shown := by
    rw [keeps.kept] at shown
    exact canonical.pages page mine leaf shown
  leaves := canonical.leaves

theorem put (canonical : shelf.Canonical index own) (settled : leaf.Canonical index entries) :
    (shelf.put leaf).Canonical index own where
  serves := canonical.serves
  pages := canonical.pages
  leaves page other here := by
    rcases of_leaves_put here with ⟨same, rfl⟩ | ⟨_, before⟩
    · exact ⟨same.symm, entries, settled⟩
    · exact canonical.leaves page other before

/-- Once the store has taken an image, its page is one of those to be loaded. -/
theorem stored (canonical : shelf.Canonical index own) {image : Buffer}
    (stores : shelf.engine.store.Stores page image engine.store)
    (shows : ∀ leaf, Leaf.ofImage index page image = .ok leaf →
      ∃ entries, leaf.Canonical index entries) :
    { shelf with engine }.Canonical index fun other => own other ∨ other = page where
  serves := canonical.serves.of_stores stores
  pages other mine leaf shown := by
    have shown : Leaf.ofImage index other (engine.store.kept other) = .ok leaf := shown
    by_cases same : other = page
    · subst same
      rw [stores.here] at shown
      exact shows leaf shown
    · rw [stores.elsewhere other same] at shown
      rcases mine with mine | mine
      · exact canonical.pages other mine leaf shown
      · exact absurd mine same
  leaves := canonical.leaves

theorem withLeaf (canonical : shelf.Canonical index own)
    {act : Leaf → Except Fault Reply × Shelf σ}
    (acts : ∀ leaf, shelf.leaves page = some leaf → (act leaf).2.Canonical index own) :
    (shelf.withLeaf page act).2.Canonical index own :=
  withLeaf_of canonical acts

/-- A call that may hand out and note pages, but writes none, keeps a shelf canonical if it leaves a
canonical leaf canonical. -/
theorem run (canonical : shelf.Canonical index own) {call : LeafCall α} (works : call.Works)
    (answer : α → Reply) (settled : (call.on leaf shelf.engine).1.2.Canonical index entries) :
    (shelf.run leaf call answer).2.Canonical index own := by
  obtain ⟨noted, worked⟩ := works leaf shelf.engine
  exact (canonical.of_keeps worked.keeps shelf.walk).put settled

theorem peek (canonical : shelf.Canonical index own) (here : shelf.leaves page = some leaf)
    {call : LeafCall α} (peeks : call.Peeks index) (answer : α → Reply) :
    (shelf.run leaf call answer).2.Canonical index own := by
  obtain ⟨_, entries, settled⟩ := canonical.leaves page leaf here
  obtain ⟨outcome, n, later, decodes, run⟩ := peeks.on leaf shelf.engine
  apply canonical.run peeks.works
  rw [run]
  exact settled.decodes decodes

theorem find (canonical : shelf.Canonical index own) (here : shelf.leaves page = some leaf)
    (nodes : NodeLayer σ) (target : Row) (past : Bool) :
    (shelf.runFind index nodes leaf target past).2.Canonical index own := by
  obtain ⟨outcome, walk, run⟩ := runFind_eq index nodes shelf leaf target past
  obtain ⟨_, entries, settled⟩ := canonical.leaves page leaf here
  obtain ⟨_, n, later, decodes, sought⟩ := (Leaf.seek_peeks index target past).on leaf shelf.engine
  rw [run, sought]
  have keeps : shelf.engine.store.Keeps [] (shelf.engine.counted .rowsDecoded n).store :=
    .of_eq rfl
  exact (canonical.of_keeps keeps walk).put (settled.decodes decodes)

theorem split (canonical : shelf.Canonical index own) (standard : index.Standard)
    (here : shelf.leaves page = some leaf) (point : Nat) :
    (shelf.runSplit index leaf point).2.Canonical index own := by
  obtain ⟨_, entries, settled⟩ := canonical.leaves page leaf here
  obtain ⟨outcome, left, after, n, run, _, splits⟩ :=
    Leaf.split_on standard settled.toHolds point canonical.serves
  obtain ⟨noted, worked⟩ := Leaf.split_works index point leaf shelf.engine
  rw [run] at worked
  obtain ⟨⟨kept, stays⟩, moved⟩ := splits.canonical settled
  have both := (canonical.of_keeps worked.keeps shelf.walk).put stays
  rw [runSplit, run]
  cases outcome with
  | error fault => exact both
  | ok right =>
    obtain ⟨entries, fresh⟩ := moved right rfl
    exact both.put fresh

theorem load (canonical : shelf.Canonical index own) (mine : own page) :
    (shelf.take (Leaf.load index page)).2.Canonical index own := by
  have same := Leaf.load_store index page shelf.engine
  rcases run : (Leaf.load index page).on shelf.engine with ⟨fault | leaf, after⟩
  · rw [run] at same
    rw [Shelf.take, run]
    exact canonical.of_keeps (.of_eq same) shelf.walk
  · obtain ⟨same, image, read, shown⟩ := Leaf.load_ok run
    obtain ⟨_, rfl⟩ := Store.read_eq_ok_iff.mp read
    obtain ⟨entries, settled⟩ := canonical.pages page mine leaf shown
    rw [Shelf.take, run]
    have keeps : shelf.engine.store.Keeps [] after.store := .of_eq same
    exact (canonical.of_keeps keeps shelf.walk).put settled

/-- Writing a canonical leaf keeps the shelf canonical, and makes its page one of those to be loaded
if the store takes it. -/
theorem write (canonical : shelf.Canonical index own) (standard : index.Standard)
    (settled : leaf.Canonical index entries) (resolves : leaf.Resolves index) :
    ∃ (outcome : Except Fault Unit) (later : Leaf) (after : Engine),
      (Leaf.write index).on leaf shelf.engine = ((outcome, later), after) ∧ later.id = leaf.id ∧
      later.Canonical index entries ∧ { shelf with engine := after }.Canonical index fun page =>
        own page ∨ page = leaf.id ∧ leaf.isDirty ∧ outcome = Except.ok () := by
  obtain ⟨outcome, later, after, run, id, written, passed | stores⟩ :=
    settled.write standard shelf.engine
  · refine ⟨outcome, later, after, run, id, written, ?_⟩
    obtain ⟨same, clean⟩ := passed
    have keeps : shelf.engine.store.Keeps [] after.store := .of_eq same
    apply (canonical.of_keeps keeps shelf.walk).mono
    rintro page (mine | ⟨_, dirty, succeeded⟩)
    · exact mine
    · rw [clean succeeded] at dirty
      cases dirty
  · refine ⟨outcome, later, after, run, id, written, ?_⟩
    have shows : ∀ shown, Leaf.ofImage index leaf.id (leaf.rendering index entries) = .ok shown →
        ∃ entries, shown.Canonical index entries := by
      intro shown seen
      exact ⟨entries, settled.of_ofImage standard resolves seen⟩
    apply (canonical.stored stores shows).mono
    rintro page (mine | ⟨same, _⟩)
    · exact .inl mine
    · exact .inr same

theorem createRoot (canonical : shelf.Canonical index own) (standard : index.Standard) :
    (shelf.take (Leaf.createRoot index)).2.Canonical index fun page =>
      own page ∨ (shelf.take (Leaf.createRoot index)).1 = .ok (.opened page) := by
  rw [Shelf.take, Leaf.createRoot_on]
  rcases allocated : Engine.allocatePage.on shelf.engine with ⟨fault | id, middle⟩
  · rw [Engine.allocatePage_error allocated]
    apply canonical.mono
    rintro page (mine | opened)
    · exact mine
    · cases opened
  have keeps := Store.keeps_of_allocate (Engine.allocatePage_ok allocated)
  have full : (Leaf.create index id none .full).Resolves index := by
    intro positions
    cases positions
  obtain ⟨outcome, later, after, run, same, written, kept⟩ :=
    (canonical.of_keeps keeps shelf.walk).write standard (.create standard id none .full) full
  simp only at run
  simp only [run]
  cases outcome with
  | error fault =>
    apply kept.mono
    rintro page (mine | opened)
    · exact .inl mine
    · cases opened
  | ok _ =>
    apply (kept.put written).mono
    rintro page (mine | opened)
    · exact .inl mine
    · cases opened
      exact .inr ⟨same, rfl, rfl⟩

/-- Every task keeps a shelf canonical, whether it fails or not. -/
theorem perform (canonical : shelf.Canonical index own) (standard : index.Standard)
    (nodes : NodeLayer σ) {task : Task} (loads : ∀ page, task = .load page → own page)
    (resolves : ∀ page leaf, task = .write page → shelf.leaves page = some leaf →
      leaf.Resolves index) :
    (shelf.perform index nodes task).2.Canonical index fun page =>
      own page ∨ task.Writes page (shelf.perform index nodes task).1 := by
  cases task with
  | create page parent form =>
    exact (canonical.put (.create standard page parent form)).silent fun _ => id
  | createRoot => exact canonical.createRoot standard
  | load page => exact (canonical.load (loads page rfl)).silent fun _ => id
  | close page =>
    refine silent ⟨canonical.serves, canonical.pages, ?_⟩ fun _ => id
    intro other leaf here
    exact canonical.leaves other leaf (of_leaves_drop here)
  | insert page row =>
    refine (canonical.withLeaf fun leaf here => ?_).silent fun _ => id
    obtain ⟨_, entries, settled⟩ := canonical.leaves page leaf here
    obtain ⟨changed, settled⟩ := settled.insert standard row shelf.engine
    exact canonical.run (Leaf.insert_works index row) _ settled
  | remove page row =>
    refine (canonical.withLeaf fun leaf here => ?_).silent fun _ => id
    obtain ⟨_, entries, settled⟩ := canonical.leaves page leaf here
    obtain ⟨changed, settled⟩ := settled.remove row shelf.engine
    exact canonical.run (Leaf.remove_works index row) _ settled
  | split page point =>
    refine (canonical.withLeaf fun leaf here => ?_).silent fun _ => id
    exact canonical.split standard here point
  | setParent page parent =>
    refine (canonical.withLeaf fun leaf here => ?_).silent fun _ => id
    obtain ⟨_, entries, settled⟩ := canonical.leaves page leaf here
    exact canonical.run (Leaf.setParent_works parent) _ (settled.setParent parent shelf.engine)
  | row page slot =>
    refine (canonical.withLeaf fun leaf here => ?_).silent fun _ => id
    exact canonical.peek here (Leaf.row_peeks index slot) _
  | rows page =>
    refine (canonical.withLeaf fun leaf here => ?_).silent fun _ => id
    exact canonical.peek here (Leaf.rows_peeks index) _
  | find page target past =>
    refine (canonical.withLeaf fun leaf here => ?_).silent fun _ => id
    exact canonical.find here nodes target past
  | write page =>
    cases here : shelf.leaves page with
    | none =>
      simp only [Shelf.perform, Shelf.withLeaf, here]
      apply canonical.mono
      rintro other (mine | ⟨_, wrote⟩)
      · exact mine
      · cases wrote
    | some leaf =>
      obtain ⟨rfl, entries, settled⟩ := canonical.leaves page leaf here
      obtain ⟨outcome, later, after, run, same, written, kept⟩ :=
        canonical.write standard settled (resolves leaf.id leaf rfl here)
      simp only [Shelf.perform, Shelf.withLeaf, here, Shelf.run, run]
      apply (kept.put written).mono
      rintro other (mine | ⟨rfl, wrote⟩)
      · exact .inl mine
      · cases outcome with
        | error fault => cases wrote
        | ok _ =>
          refine .inr ⟨rfl, ?_, rfl⟩
          simpa [Except.map] using wrote

/-- A table that keeps the rows of the leaves keeps a shelf canonical. -/
theorem relist (canonical : shelf.Canonical index own) {resolve : RowPos → Except Fault Row}
    (keeps : ∀ leaf, shelf.Offers index own leaf →
      ∀ rows, leaf.Collects index rows → leaf.Collects (index.lookingUp resolve) rows) :
    shelf.Canonical (index.lookingUp resolve) own where
  serves := ⟨canonical.serves.pageSize, canonical.serves.opened⟩
  pages page mine leaf shown := by
    have shown : Leaf.ofImage index page (shelf.engine.store.kept page) = .ok leaf := shown
    obtain ⟨entries, settled⟩ := canonical.pages page mine leaf shown
    exact ⟨entries, settled.lookingUp (keeps leaf (.shown mine shown) _ settled.shows.collects)⟩
  leaves page leaf here := by
    obtain ⟨id, entries, settled⟩ := canonical.leaves page leaf here
    exact ⟨id, entries, settled.lookingUp (keeps leaf (.opened here) _ settled.shows.collects)⟩

end Canonical

/-- What tasks have made is canonical. -/
theorem MadeOver.canonical (made : shelf.MadeOver index own) (standard : index.Standard) :
    shelf.Canonical index own := by
  induction made with
  | empty serves walk =>
    refine ⟨serves, ?_, by simp [Shelf.empty]⟩
    intro page bare leaf shown
    exact absurd shown (bare leaf)
  | task _ nodes loads resolves ih => exact (ih standard).perform standard nodes loads resolves
  | relist _ keeps ih => exact (ih (Index.standard_lookingUp.mp standard)).relist keeps

/-- Tasks that are done one after the other, with rows looked up to the same, go on with a shelf
that tasks have made. -/
theorem MadeOver.after (made : shelf.MadeOver index own) (nodes : NodeLayer σ) {tasks : List Task}
    (loads : LoadsOwn index nodes own shelf tasks)
    (resolves : shelf.WritesResolve index nodes tasks) :
    ∃ more, (shelf.after index nodes tasks).MadeOver index more := by
  induction tasks generalizing shelf own with
  | nil => exact ⟨own, made⟩
  | cons task rest ih =>
    apply ih (made.task nodes loads.1 ?_) loads.2
    · intro n page leaf next here
      exact resolves (n + 1) page leaf next here
    · intro page leaf next here
      exact resolves 0 page leaf (congrArg some next) here

/-- The leaves that tasks have made are canonical. -/
theorem Made.canonical (made : shelf.Made index) (standard : index.Standard)
    (here : shelf.leaves page = some leaf) : ∃ entries, leaf.Canonical index entries := by
  obtain ⟨own, made⟩ := made
  exact ((made.canonical standard).leaves page leaf here).2

end Shelf

end SlottedLeaf
