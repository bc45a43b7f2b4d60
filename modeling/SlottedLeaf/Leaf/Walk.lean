import SlottedLeaf.Leaf.Search

/-!
# Cursors, and walks across leaves

A cursor points at a slot of a page, or past the last row. A leaf moves a cursor within itself;
where a search or a walk leaves the leaf, the node above it goes on.
-/

namespace SlottedLeaf

/-- A place in an index: a slot of a page, or no page once a walk has ended. -/
structure Cursor where
  page : Option PageId
  slot : Nat
deriving DecidableEq, Repr

namespace Cursor

/-- A cursor that was never placed, or whose walk has ended. -/
def off : Cursor := ⟨none, 0⟩

def isExhausted (cursor : Cursor) : Bool := cursor.page.isNone

def position? (cursor : Cursor) : Option (PageId × Nat) := cursor.page.map (·, cursor.slot)

end Cursor

/-- A call that moves a cursor, on behalf of node pages with a state of their own. -/
abbrev NodeCall (σ α : Type) := ExceptT Fault (StateM (Cursor × σ)) α

/-- The routing pages above the leaves. Each call names the node that goes on. -/
structure NodeLayer (σ : Type) where
  /-- Goes on with a search that ran past the rows of a child of the node. -/
  find : (node : PageId) → (target : Row) → (past : Bool) → NodeCall σ Unit
  /-- Goes on to the first row after the leaf `left`. -/
  next : (node left : PageId) → NodeCall σ Unit
  /-- Goes on to the last row before the leaf `left`. -/
  previous : (node left : PageId) → NodeCall σ Unit

namespace Leaf

/-- Where a search ends. -/
inductive Landing where
  /-- At a slot of the leaf. -/
  | here (slot : Nat)
  /-- Past the leaf, with a node to go on from. -/
  | above (node : PageId)
  /-- Past the last row of the index. -/
  | nowhere
deriving DecidableEq, Repr

/-- Finds where a search for the first row not below `target` ends; with `past`, for the first row
above it. Positions do not matter. -/
def seek (index : Index) (target : Row) (past : Bool) : LeafCall Landing := do
  let slot ← search index (.bound past) target
  let leaf ← get
  if slot < leaf.count then return .here slot
  else match leaf.parent with
    | some node => return .above node
    | none => return .nowhere

/-- Moves a cursor to where a search ended on the leaf `id`. A search that ended nowhere leaves the
cursor alone. -/
def Landing.follow {σ : Type} (nodes : NodeLayer σ) (id : PageId) (target : Row) (past : Bool) :
    Landing → NodeCall σ Unit
  | .here slot => modify fun (_, state) => (⟨some id, slot⟩, state)
  | .above node => nodes.find node target past
  | .nowhere => return

/-- Moves a cursor to the first row not below `target`; with `past`, to the first row above it. -/
def find {σ : Type} (nodes : NodeLayer σ) (index : Index) (target : Row) (past : Bool) :
    ExceptT Fault (StateT (Cursor × σ) (StateT Leaf (StateM Engine))) Unit := do
  let landing ← ExceptT.mk (StateT.lift (seek index target past).run)
  let id := (← getThe Leaf).id
  ExceptT.mk fun walk => return (landing.follow nodes id target past).run.run walk

def last (leaf : Leaf) : Cursor :=
  match leaf.count with
  | 0 => .off
  | slot + 1 => ⟨some leaf.id, slot⟩

def nextLeaf {σ : Type} (nodes : NodeLayer σ) (leaf : Leaf) : NodeCall σ Unit :=
  match leaf.parent with
  | none => modify fun (_, state) => (.off, state)
  | some node => nodes.next node leaf.id

def previousLeaf {σ : Type} (nodes : NodeLayer σ) (leaf : Leaf) : NodeCall σ Unit :=
  match leaf.parent with
  | none => modify fun (_, state) => (.off, state)
  | some node => nodes.previous node leaf.id

end Leaf

end SlottedLeaf
