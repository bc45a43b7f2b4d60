import SlottedLeaf.Leaf.Insert
import SlottedLeaf.Leaf.Remove

/-!
# Splitting a leaf

A split moves the rows from a slot on, one after the other, to a new leaf under the same node.
-/

namespace SlottedLeaf.Leaf

/-- Moves `n` rows, each from `slot` to the end of `target`. -/
def moveRows (index : Index) (slot : Nat) : Nat → Leaf → LeafCall Leaf
  | 0, target => return target
  | n + 1, target => do
    let moving ← row index slot
    match ← (insert index moving).onOther target with
    | (.inserted, target) =>
      removeAt index slot
      moveRows index slot n target
    | (.splitAt _, _) => throw (.internal .splitTargetFull)

/-- Moves the rows from slot `point` on to a new leaf, which is the answer. Both leaves keep a
row. -/
def split (index : Index) (point : Nat) : LeafCall Leaf := do
  let leaf ← get
  if point = 0 ∨ leaf.count ≤ point then
    throw (.invalid .splitPoint)
  let id ← Engine.allocatePage
  let moved := leaf.count - point
  loadRows index
  let right ← moveRows index point moved (create index id leaf.parent leaf.form)
  Engine.count .splits 1
  Engine.report (.leafSplit leaf.id id point moved)
  return right

end SlottedLeaf.Leaf
