/-!
# Leaf statistics

An index counts what happens to its leaves. The counts are natural numbers, without a limit. A
counter of 64 bits starts again from zero at `2 ^ 64`, so it shows these counts as long as none of
them gets there, and their remainders from then on.
-/

namespace SlottedLeaf

/-- What is counted. -/
inductive Counter where
  /-- Rows added to a leaf. -/
  | rowsInserted
  /-- Rows taken off a leaf, rows moved by a split included. -/
  | rowsRemoved
  /-- Insertions answered with a split point. -/
  | splitSignals
  /-- Splits. -/
  | splits
  /-- Leaves that went over to position-only rows. -/
  | compactions
  /-- Rows decoded from page images. -/
  | rowsDecoded
  /-- Leaves read from page images. -/
  | pagesRead
  /-- Leaves written to a store. -/
  | pagesWritten
deriving DecidableEq, Repr

/-- The counts of an index. -/
structure Stats where
  rowsInserted : Nat
  rowsRemoved : Nat
  splitSignals : Nat
  splits : Nat
  compactions : Nat
  rowsDecoded : Nat
  pagesRead : Nat
  pagesWritten : Nat
deriving DecidableEq, Repr

namespace Stats

def zero : Stats := ⟨0, 0, 0, 0, 0, 0, 0, 0⟩

def get (stats : Stats) : Counter → Nat
  | .rowsInserted => stats.rowsInserted
  | .rowsRemoved => stats.rowsRemoved
  | .splitSignals => stats.splitSignals
  | .splits => stats.splits
  | .compactions => stats.compactions
  | .rowsDecoded => stats.rowsDecoded
  | .pagesRead => stats.pagesRead
  | .pagesWritten => stats.pagesWritten

def add (stats : Stats) (counter : Counter) (amount : Nat) : Stats :=
  match counter with
  | .rowsInserted => { stats with rowsInserted := stats.rowsInserted + amount }
  | .rowsRemoved => { stats with rowsRemoved := stats.rowsRemoved + amount }
  | .splitSignals => { stats with splitSignals := stats.splitSignals + amount }
  | .splits => { stats with splits := stats.splits + amount }
  | .compactions => { stats with compactions := stats.compactions + amount }
  | .rowsDecoded => { stats with rowsDecoded := stats.rowsDecoded + amount }
  | .pagesRead => { stats with pagesRead := stats.pagesRead + amount }
  | .pagesWritten => { stats with pagesWritten := stats.pagesWritten + amount }

@[simp]
theorem get_add (stats : Stats) (counter other : Counter) (amount : Nat) :
    (stats.add counter amount).get other =
      stats.get other + if other = counter then amount else 0 := by
  cases counter <;> cases other <;> rfl

end Stats

end SlottedLeaf
