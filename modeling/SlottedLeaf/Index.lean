import SlottedLeaf.Engine
import SlottedLeaf.Row.Format

/-!
# Indexes

What a leaf knows of the index that it belongs to: the table stamped into every page, the page
size, the options, and how rows are measured, written and read.
-/

namespace SlottedLeaf

/-- The options of an index. -/
structure Options where
  /-- Whether a leaf refuses a row whose key it holds already. -/
  unique : Bool
  /-- Whether a leaf checks its layout after every change. -/
  checkInvariants : Bool
deriving DecidableEq, Repr

def Options.default : Options := ⟨false, true⟩

/-- An index, as its leaves see it. -/
structure Index where
  table : TableId
  pageSize : Nat
  options : Options
  format : RowFormat

namespace Index

/-- Opens an index over the engine's store. -/
def attach (table : TableId) (options : Options) (format : RowFormat) : EngineCall Index := do
  let pageSize := (← get).store.pageSize
  MonadExcept.ofExcept (checkPageSize pageSize)
  Engine.report (.indexOpened table pageSize options.unique)
  return ⟨table, pageSize, options, format⟩

end Index

end SlottedLeaf
