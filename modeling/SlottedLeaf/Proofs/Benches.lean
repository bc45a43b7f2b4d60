import SlottedLeaf.Proofs.Endings
import SlottedLeaf.Proofs.Orderly
import SlottedLeaf.Proofs.Persistence
import SlottedLeaf.Proofs.Shelves

/-!
# Benches of leaves

A bench has every leaf that was opened over a store, however many of them are of one page: leaves
that were made, read from images of whatever content, loaded, or split off others. Anything may be
done with any of them, and with the store besides, in any order, while the table that resolves rows
changes, and what fails leaves behind what it did up to the failure. A leaf that is dropped is one
that nothing is done with any more.
-/

namespace SlottedLeaf

variable {σ : Type} {index : Index}

/-! ## What is done -/

/-- Something done with a leaf. -/
inductive Deed where
  | insert (row : Row)
  | remove (row : Row)
  | split (point : Nat)
  | setParent (parent : Option PageId)
  | row (slot : Nat)
  | rows
  | write
deriving DecidableEq, Repr

/-- What a deed gives if it does not fail. -/
inductive Yield where
  | done
  | insertion (answer : Insertion)
  | removal (answer : Removal)
  | row (row : Row)
  | rows (rows : List Row)
  /-- The leaf that was split off. -/
  | right (leaf : Leaf)
deriving DecidableEq, Repr

/-- The call on the leaf that does the deed. -/
def Deed.call (index : Index) : Deed → LeafCall Yield
  | insert new => return .insertion (← Leaf.insert index new)
  | remove target => return .removal (← Leaf.remove index target)
  | split point => return .right (← Leaf.split index point)
  | setParent parent => do
    Leaf.setParent parent
    return .done
  | row slot => return .row (← Leaf.row index slot)
  | rows => return .rows (← Leaf.rows index)
  | write => do
    Leaf.write index
    return .done

/-- Where the cursor goes from a leaf. -/
inductive Course where
  /-- To the last row of the leaf. -/
  | last
  /-- To the first row after the leaf. -/
  | next
  /-- To the last row before the leaf. -/
  | previous
deriving DecidableEq, Repr

def Course.follow (nodes : NodeLayer σ) (leaf : Leaf) : Course → NodeCall σ Unit
  | last => modify fun (_, state) => (leaf.last, state)
  | next => leaf.nextLeaf nodes
  | previous => leaf.previousLeaf nodes

/-- Something done at a bench; leaves are numbered in the order in which they were opened. -/
inductive Chore where
  | ask (call : StoreCall)
  /-- Open a new leaf without rows. It is neither allocated nor written. -/
  | create (page : PageId) (parent : Option PageId) (form : RowForm)
  | createRoot
  | read (page : PageId) (image : Buffer)
  | load (page : PageId)
  | handle (number : Nat) (deed : Deed)
  | find (number : Nat) (target : Row) (past : Bool)
  | turn (number : Nat) (course : Course)
deriving DecidableEq, Repr

/-- A chore, and what rows are looked up to while it is done. -/
structure Job where
  resolve : RowPos → Except Fault Row
  chore : Chore

/-- What a chore gives if it does not fail. -/
inductive Upshot where
  | store (answer : StoreAnswer)
  | opened (leaf : Leaf)
  | gives (yield : Yield)
  /-- The cursor has moved. -/
  | moved
  /-- No leaf of this number was opened. -/
  | absent
deriving DecidableEq, Repr

/-- A call on the store, made through the engine. -/
def Engine.ask : StoreCall → EngineCall StoreAnswer
  | .allocate => return .page (← allocatePage)
  | .note page => do
    notePage page
    return .done
  | .write page image => do
    writePage page image
    return .done
  | .read page => return .image (← readPage page)
  | .listDirty => return .pages (← get).store.dirty.pages

/-! ## Benches -/

/-- The leaves that were opened, the earliest first, and what calls on them change besides. -/
structure Bench (σ : Type) where
  leaves : List Leaf
  engine : Engine
  walk : Cursor × σ

namespace Bench

/-- A bench without leaves. -/
def empty (engine : Engine) (walk : Cursor × σ) : Bench σ := ⟨[], engine, walk⟩

/-- Puts the leaf that a call gives on the bench. -/
def take (bench : Bench σ) (call : EngineCall Leaf) : Except Fault Upshot × Bench σ :=
  match call.on bench.engine with
  | (.ok leaf, engine) =>
    (.ok (.opened leaf), { bench with leaves := bench.leaves ++ [leaf], engine })
  | (.error fault, engine) => (.error fault, { bench with engine })

/-- The leaf that a deed has opened. -/
def opened : Except Fault Yield → List Leaf
  | .ok (.right leaf) => [leaf]
  | _ => []

/-- Does a deed with the leaf of a number. -/
def handle (index : Index) (bench : Bench σ) (number : Nat) (leaf : Leaf) (deed : Deed) :
    Except Fault Upshot × Bench σ :=
  let ((outcome, later), engine) := (deed.call index).on leaf bench.engine
  (outcome.map .gives,
    { bench with leaves := bench.leaves.set number later ++ opened outcome, engine })

/-- Looks for a row from the leaf of a number. -/
def find (index : Index) (nodes : NodeLayer σ) (bench : Bench σ) (number : Nat) (leaf : Leaf)
    (target : Row) (past : Bool) : Except Fault Upshot × Bench σ :=
  let (((outcome, walk), later), engine) :=
    (((Leaf.find nodes index target past).run.run bench.walk).run leaf).run bench.engine
  (outcome.map fun _ => .moved, ⟨bench.leaves.set number later, engine, walk⟩)

def turn (nodes : NodeLayer σ) (bench : Bench σ) (leaf : Leaf) (course : Course) :
    Except Fault Upshot × Bench σ :=
  let (outcome, walk) := (course.follow nodes leaf).run.run bench.walk
  (outcome.map fun _ => .moved, { bench with walk })

/-- Does something with the leaf of a number, if one was opened. -/
def withLeaf (bench : Bench σ) (number : Nat) (act : Leaf → Except Fault Upshot × Bench σ) :
    Except Fault Upshot × Bench σ :=
  match bench.leaves[number]? with
  | none => (.ok .absent, bench)
  | some leaf => act leaf

def perform (index : Index) (nodes : NodeLayer σ) (bench : Bench σ) :
    Chore → Except Fault Upshot × Bench σ
  | .ask call =>
    let (outcome, engine) := (Engine.ask call).on bench.engine
    (outcome.map .store, { bench with engine })
  | .create page parent form => bench.take (pure (Leaf.create index page parent form))
  | .createRoot => bench.take (Leaf.createRoot index)
  | .read page image => bench.take (Leaf.read index page image)
  | .load page => bench.take (Leaf.load index page)
  | .handle number deed => bench.withLeaf number (bench.handle index number · deed)
  | .find number target past => bench.withLeaf number (bench.find index nodes number · target past)
  | .turn number course => bench.withLeaf number (bench.turn nodes · course)

def work (index : Index) (nodes : NodeLayer σ) (bench : Bench σ) (job : Job) :
    Except Fault Upshot × Bench σ :=
  bench.perform (index.lookingUp job.resolve) nodes job.chore

/-- The bench once jobs were done, one after the other, whether they failed or not. -/
def after (index : Index) (nodes : NodeLayer σ) (bench : Bench σ) : List Job → Bench σ
  | [] => bench
  | job :: rest => (bench.work index nodes job).2.after index nodes rest

/-- Chores with what they gave, the earliest first. -/
def history (index : Index) (nodes : NodeLayer σ) (bench : Bench σ) :
    List Job → List (Chore × Except Fault Upshot)
  | [] => []
  | job :: rest =>
    let (answer, later) := bench.work index nodes job
    (job.chore, answer) :: later.history index nodes rest

theorem history_cons (nodes : NodeLayer σ) (bench : Bench σ) (job : Job) (rest : List Job) :
    bench.history index nodes (job :: rest) =
      (job.chore, (bench.work index nodes job).1) ::
        (bench.work index nodes job).2.history index nodes rest := rfl

end Bench

/-! ## What deeds are -/

theorem Deed.call_orderly (index : Index) (deed : Deed) : (deed.call index).Orderly := by
  cases deed with
  | insert row => exact .bind (Leaf.insert_orderly index row) fun _ => LeafCall.orderly_pure _
  | remove row => exact .bind (Leaf.remove_orderly index row) fun _ => LeafCall.orderly_pure _
  | split point => exact .bind (Leaf.split_orderly index point) fun _ => LeafCall.orderly_pure _
  | setParent parent => exact .bind (Leaf.setParent_orderly parent) fun _ => LeafCall.orderly_pure _
  | row slot => exact .bind (Leaf.row_peeks index slot).orderly fun _ => LeafCall.orderly_pure _
  | rows => exact .bind (Leaf.rows_peeks index).orderly fun _ => LeafCall.orderly_pure _
  | write => exact .bind (Leaf.write_orderly index) fun _ => LeafCall.orderly_pure _

/-! ## What is counted -/

/-- The store counts nothing. -/
theorem Engine.ask_stats (call : StoreCall) (engine : Engine) :
    ((ask call).on engine).2.stats = engine.stats := by
  cases call with
  | allocate =>
    rw [ask, EngineCall.on_bind_pure]
    exact engine.allocatePage_stats
  | note page =>
    obtain ⟨store, noted, _⟩ := engine.notePage_on page
    rw [ask, EngineCall.on_bind, noted]
    cases checkPageId page <;> rfl
  | write page image =>
    rw [ask, EngineCall.on_bind, writePage_on]
    cases engine.store.write page image <;> rfl
  | read page =>
    rw [ask, EngineCall.on_bind_pure, readPage, EngineCall.on_bind, EngineCall.on_get]
    simp only [EngineCall.on_ofExcept]
  | listDirty => rfl

/-- A leaf that is opened counts at most as a page that was read. -/
theorem Leaf.read_stats (index : Index) (page : PageId) (image : Buffer) (engine : Engine) :
    ∃ n, ((read index page image).on engine).2.stats = engine.stats.add .pagesRead n := by
  rw [read_on]
  cases ofImage index page image with
  | error fault => exact ⟨0, rfl⟩
  | ok leaf => exact ⟨1, rfl⟩

theorem Leaf.load_stats (index : Index) (page : PageId) (engine : Engine) :
    ∃ n, ((load index page).on engine).2.stats = engine.stats.add .pagesRead n := by
  rw [load_on]
  cases engine.store.read page with
  | error fault => exact ⟨0, rfl⟩
  | ok image => exact read_stats index page image engine

namespace Bench

/-- Looking for a row, as the leaf and the engine see it, is a call that only looks. -/
theorem find_eq (index : Index) (nodes : NodeLayer σ) (bench : Bench σ) (number : Nat) (leaf : Leaf)
    (target : Row) (past : Bool) :
    bench.find index nodes number leaf target past =
      match (Leaf.seek index target past).on leaf bench.engine with
      | ((.ok landing, later), engine) =>
        let (outcome, walk) := (landing.follow nodes later.id target past).run.run bench.walk
        (outcome.map fun _ => .moved, ⟨bench.leaves.set number later, engine, walk⟩)
      | ((.error fault, later), engine) =>
        (.error fault, ⟨bench.leaves.set number later, engine, bench.walk⟩) := by
  rw [find, Leaf.find_run]
  rcases (Leaf.seek index target past).on leaf bench.engine with ⟨⟨fault | landing, later⟩, engine⟩
  · rfl
  · rfl

/-- What holds of a bench holds after something was done with a leaf, if it does when the leaf was
opened. -/
theorem withLeaf_of (holds : Except Fault Upshot × Bench σ → Prop) {bench : Bench σ}
    {number : Nat} {act : Leaf → Except Fault Upshot × Bench σ}
    (before : holds (.ok .absent, bench))
    (acts : ∀ leaf, bench.leaves[number]? = some leaf → holds (act leaf)) :
    holds (bench.withLeaf number act) := by
  unfold withLeaf
  cases here : bench.leaves[number]? with
  | none => exact before
  | some leaf => exact acts leaf here

/-- Nothing but a split opens a leaf. -/
theorem opened_eq_nil {deed : Deed} (whole : ∀ point, deed ≠ .split point) {leaf later : Leaf}
    {engine after : Engine} {outcome : Except Fault Yield}
    (run : (deed.call index).on leaf engine = ((outcome, later), after)) : opened outcome = [] := by
  have plain {α : Type} {call : LeafCall α} {wrap : α → Yield}
      (run : (call >>= fun value => pure (wrap value)).on leaf engine = ((outcome, later), after))
      (wraps : ∀ value, opened (.ok (wrap value)) = []) : opened outcome = [] := by
    rw [LeafCall.on_bind] at run
    rcases first : call.on leaf engine with ⟨⟨fault | value, middle⟩, between⟩ <;> rw [first] at run
    · cases run
      rfl
    · cases run
      exact wraps value
  cases deed with
  | split point => exact absurd rfl (whole point)
  | _ => exact plain run fun _ => rfl

/-- What becomes of a bench when a call is made on a leaf that is there. -/
theorem perform_handle {bench : Bench σ} {number : Nat} {leaf later : Leaf}
    (here : bench.leaves[number]? = some leaf) {α : Type} {deed : Deed} {call : LeafCall α}
    {wrap : α → Yield} (calls : deed.call index = call >>= fun value => pure (wrap value))
    {outcome : Except Fault α} {after : Engine}
    (run : call.on leaf bench.engine = ((outcome, later), after)) (nodes : NodeLayer σ) :
    bench.perform index nodes (.handle number deed) = ((outcome.map wrap).map .gives,
      ⟨bench.leaves.set number later ++ opened (outcome.map wrap), after, bench.walk⟩) := by
  rw [perform, withLeaf, here]
  simp only [handle]
  rw [calls, LeafCall.on_bind, run]
  cases outcome <;> rfl

end Bench

end SlottedLeaf
