import SlottedLeaf.Proofs.Pages
import SlottedLeaf.Proofs.Walking

/-!
# Shelves of open leaves

A shelf holds the leaves of one store that are open, at most one to a page. A task opens a leaf,
closes one, or makes a call on one; a split opens the leaf that it makes. Tasks of any kind follow
one another, on whatever leaves, and a task that fails leaves behind what it did up to the failure.
-/

namespace SlottedLeaf

variable {σ α : Type} {index : Index}

/-- Nodes that go on nowhere. -/
def NodeLayer.idle : NodeLayer Unit :=
  ⟨fun _ _ _ => pure (), fun _ _ => pure (), fun _ _ => pure ()⟩

/-- Something to be done with the leaves of a store. -/
inductive Task where
  /-- Open a new leaf without rows. It is neither allocated nor written. -/
  | create (page : PageId) (parent : Option PageId) (form : RowForm)
  | createRoot
  | load (page : PageId)
  | close (page : PageId)
  | insert (page : PageId) (row : Row)
  | remove (page : PageId) (row : Row)
  | split (page : PageId) (point : Nat)
  | setParent (page : PageId) (parent : Option PageId)
  | row (page : PageId) (slot : Nat)
  | rows (page : PageId)
  | find (page : PageId) (target : Row) (past : Bool)
  | write (page : PageId)
deriving DecidableEq, Repr

/-- What a task gives if it does not fail. -/
inductive Reply where
  | done
  /-- No leaf is open on the page. -/
  | closed
  /-- There is a leaf open on this page now. -/
  | opened (page : PageId)
  | insertion (answer : Insertion)
  | removal (answer : Removal)
  | row (row : Row)
  | rows (rows : List Row)
  /-- The leaf is written; it had changed or not. -/
  | written (changed : Bool)
deriving DecidableEq, Repr

/-- The open leaves of a store, and what calls on them change besides. -/
structure Shelf (σ : Type) where
  leaves : PageId → Option Leaf
  engine : Engine
  walk : Cursor × σ

namespace Shelf

/-- A shelf without leaves. -/
def empty (engine : Engine) (walk : Cursor × σ) : Shelf σ := ⟨fun _ => none, engine, walk⟩

/-- A shelf without leaves over a store in memory with pages of the smallest size, of which some
were handed out, with no nodes to go on in. -/
def blank (allocated : Nat) : Shelf Unit := empty (.inMemory minPageSize allocated) (.off, ())

/-- Puts a leaf on the shelf, in the place of the leaf that was open on its page. -/
def put (shelf : Shelf σ) (leaf : Leaf) : Shelf σ :=
  { shelf with leaves := fun page => if page = leaf.id then some leaf else shelf.leaves page }

def drop (shelf : Shelf σ) (page : PageId) : Shelf σ :=
  { shelf with leaves := fun other => if other = page then none else shelf.leaves other }

/-- Opens the leaf that a call gives. -/
def take (shelf : Shelf σ) (call : EngineCall Leaf) : Except Fault Reply × Shelf σ :=
  match call.on shelf.engine with
  | (.ok leaf, engine) => (.ok (.opened leaf.id), { shelf with engine }.put leaf)
  | (.error fault, engine) => (.error fault, { shelf with engine })

/-- Makes a call on an open leaf. -/
def run (shelf : Shelf σ) (leaf : Leaf) (call : LeafCall α) (answer : α → Reply) :
    Except Fault Reply × Shelf σ :=
  let ((outcome, later), engine) := call.on leaf shelf.engine
  (outcome.map answer, { shelf with engine }.put later)

def runSplit (index : Index) (shelf : Shelf σ) (leaf : Leaf) (point : Nat) :
    Except Fault Reply × Shelf σ :=
  match (Leaf.split index point).on leaf shelf.engine with
  | ((.ok right, left), engine) =>
    (.ok (.opened right.id), ({ shelf with engine }.put left).put right)
  | ((.error fault, left), engine) => (.error fault, { shelf with engine }.put left)

def runFind (index : Index) (nodes : NodeLayer σ) (shelf : Shelf σ) (leaf : Leaf) (target : Row)
    (past : Bool) : Except Fault Reply × Shelf σ :=
  let (((outcome, walk), later), engine) :=
    (((Leaf.find nodes index target past).run.run shelf.walk).run leaf).run shelf.engine
  (outcome.map fun _ => .done, { shelf with engine, walk }.put later)

/-- Does something with the leaf of a page, if it is open. -/
def withLeaf (shelf : Shelf σ) (page : PageId) (act : Leaf → Except Fault Reply × Shelf σ) :
    Except Fault Reply × Shelf σ :=
  match shelf.leaves page with
  | none => (.ok .closed, shelf)
  | some leaf => act leaf

/-- Does a task. -/
def perform (index : Index) (nodes : NodeLayer σ) (shelf : Shelf σ) :
    Task → Except Fault Reply × Shelf σ
  | .create page parent form =>
    (.ok (.opened page), shelf.put (Leaf.create index page parent form))
  | .createRoot => shelf.take (Leaf.createRoot index)
  | .load page => shelf.take (Leaf.load index page)
  | .close page => (.ok .done, shelf.drop page)
  | .insert page row => shelf.withLeaf page (shelf.run · (Leaf.insert index row) .insertion)
  | .remove page row => shelf.withLeaf page (shelf.run · (Leaf.remove index row) .removal)
  | .split page point => shelf.withLeaf page (shelf.runSplit index · point)
  | .setParent page parent =>
    shelf.withLeaf page (shelf.run · (Leaf.setParent parent) fun _ => .done)
  | .row page slot => shelf.withLeaf page (shelf.run · (Leaf.row index slot) .row)
  | .rows page => shelf.withLeaf page (shelf.run · (Leaf.rows index) .rows)
  | .find page target past => shelf.withLeaf page (shelf.runFind index nodes · target past)
  | .write page =>
    shelf.withLeaf page fun leaf =>
      shelf.run leaf (Leaf.write index) fun _ => .written leaf.isDirty

/-- The shelf once tasks were done, one after the other, whether they failed or not. -/
def after (index : Index) (nodes : NodeLayer σ) (shelf : Shelf σ) : List Task → Shelf σ
  | [] => shelf
  | task :: rest => (shelf.perform index nodes task).2.after index nodes rest

section

variable {shelf : Shelf σ} {leaf : Leaf} {page : PageId}

@[simp]
theorem engine_put : (shelf.put leaf).engine = shelf.engine := rfl

theorem leaves_put : (shelf.put leaf).leaves page = if page = leaf.id then some leaf
    else shelf.leaves page := rfl

/-- A leaf on the shelf is the one that was put there last, or was there before. -/
theorem of_leaves_put {other : Leaf} (here : (shelf.put leaf).leaves page = some other) :
    page = leaf.id ∧ other = leaf ∨ page ≠ leaf.id ∧ shelf.leaves page = some other := by
  rw [leaves_put] at here
  by_cases same : page = leaf.id
  · rw [if_pos same] at here
    exact .inl ⟨same, (Option.some.inj here).symm⟩
  · rw [if_neg same] at here
    exact .inr ⟨same, here⟩

/-- A leaf that is left on the shelf was there before. -/
theorem of_leaves_drop {other : PageId} (here : (shelf.drop page).leaves other = some leaf) :
    shelf.leaves other = some leaf := by
  by_cases same : other = page
  · simp [drop, same] at here
  · simpa only [drop, if_neg same] using here

/-- What holds of a shelf holds after something was done with the leaf of a page, if it does when
the leaf is open. -/
theorem withLeaf_of {holds : Shelf σ → Prop} {act : Leaf → Except Fault Reply × Shelf σ}
    (before : holds shelf)
    (acts : ∀ leaf, shelf.leaves page = some leaf → holds (act leaf).2) :
    holds (shelf.withLeaf page act).2 := by
  unfold withLeaf
  cases here : shelf.leaves page with
  | none => exact before
  | some leaf => exact acts leaf here

/-- Where a find leaves the leaf and the engine: it has only looked for the row. -/
theorem runFind_eq (index : Index) (nodes : NodeLayer σ) (shelf : Shelf σ) (leaf : Leaf)
    (target : Row) (past : Bool) :
    ∃ outcome walk, shelf.runFind index nodes leaf target past =
      (outcome, { shelf with
        engine := ((Leaf.seek index target past).on leaf shelf.engine).2, walk }.put
          ((Leaf.seek index target past).on leaf shelf.engine).1.2) := by
  rw [runFind, Leaf.find_run]
  rcases (Leaf.seek index target past).on leaf shelf.engine with ⟨⟨fault | landing, later⟩, engine⟩
  · exact ⟨_, _, rfl⟩
  · exact ⟨_, _, rfl⟩

end

end Shelf

end SlottedLeaf
