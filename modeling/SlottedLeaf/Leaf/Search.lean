import SlottedLeaf.Leaf.Basic

/-!
# Binary search on a leaf

A search looks for a place among rows in ascending order. What it does with a row whose key equals
the one sought depends on what it is for.
-/

namespace SlottedLeaf.Leaf

/-- What a search is for. -/
inductive Aim where
  /-- The place for a new row. -/
  | insertion
  /-- The slot of a row with this key and position. -/
  | removal
  /-- The first row with this key or a higher one; with `past`, with a higher one. -/
  | bound (past : Bool)
deriving DecidableEq, Repr

/-- Where a search goes from a row that it looked at. -/
inductive Turn where
  /-- On to the rows after it. -/
  | after
  /-- Back to this row and the rows before it. -/
  | before
  /-- Nowhere: this is the row sought. -/
  | found
  /-- Nowhere: the row sought may not join this one. -/
  | clash
deriving DecidableEq, Repr

/-- Where a search for `target` goes from `row`. Keys decide first. Of equal keys, a bound takes
none or all to be below; an insertion into a unique index refuses them; else positions decide. -/
def Aim.turn (index : Index) (target : Row) (aim : Aim) (row : Row) : Turn :=
  match row.compareKeys target with
  | .lt => .after
  | .gt => .before
  | .eq =>
    match aim with
    | .bound past => if past then .after else .before
    | .insertion =>
      if index.options.unique && !index.format.mayRepeat target then .clash
      else match row.comparePositions target with
        | .lt => .after
        | .gt => .before
        | .eq => .clash
    | .removal =>
      match row.comparePositions target with
      | .lt => .after
      | .gt => .before
      | .eq => .found

/-- Searches the slots `[low, high)`. Only the rows looked at are decoded. -/
def searchBetween (index : Index) (aim : Aim) (target : Row) (low high : Nat) : LeafCall Nat :=
  if low < high then do
    let middle := (low + high) / 2
    match aim.turn index target (← row index middle) with
    | .after => searchBetween index aim target (middle + 1) high
    | .before => searchBetween index aim target low middle
    | .found => return middle
    | .clash => throw (.duplicateKey (← get).id target)
  else return low
termination_by high - low

/-- Searches the leaf. The answer is the first slot whose row is not below `target`, or the slot
count. -/
def search (index : Index) (aim : Aim) (target : Row) : LeafCall Nat := do
  searchBetween index aim target 0 (← get).count

end SlottedLeaf.Leaf
