import SlottedLeaf.Ident
import SlottedLeaf.Page.Kind
import SlottedLeaf.Stats

/-!
# Events

What happens to pages is reported as events. An event has a level, a message, and named fields that
are numbers or flags.
-/

namespace SlottedLeaf

/-- How much an event matters. -/
inductive Level where
  | trace
  | debug
  | info
  | warn
deriving DecidableEq, Repr

def Level.name : Level → String
  | trace => "TRACE"
  | debug => "DEBUG"
  | info => "INFO"
  | warn => "WARN"

/-- Something that happened. -/
inductive Event where
  | memoryPageAllocated (page : PageId)
  | filePageAllocated (page : PageId)
  | fileOpened (pageSize pageCount : Nat)
  | indexOpened (table : TableId) (pageSize : Nat) (unique : Bool)
  | leafRead (page : PageId) (entries : Nat) (form : RowForm)
  | leafWritten (page : PageId) (entries : Nat) (form : RowForm)
  | rowInserted (page : PageId) (slot length : Nat)
  | rowRemoved (page : PageId) (slot length : Nat)
  | splitSignalled (page : PageId) (entries point : Nat)
  | leafSplit (page newPage : PageId) (point moved : Nat)
  | leafCompacted (page : PageId) (table : TableId) (entries : Nat)
  | leafEmptied (page : PageId)
  | statsReported (stats : Stats)
deriving DecidableEq, Repr

namespace Event

/-- The value of an event's field. -/
inductive Value where
  | number (n : Nat)
  | flag (b : Bool)
deriving DecidableEq, Repr

def level : Event → Level
  | memoryPageAllocated .. | rowInserted .. | rowRemoved .. => .trace
  | leafCompacted .. => .warn
  | statsReported .. => .info
  | _ => .debug

def message : Event → String
  | memoryPageAllocated .. => "mem_store.allocate"
  | filePageAllocated .. => "file_store.allocate"
  | fileOpened .. => "file_store.open"
  | indexOpened .. => "btree.index.open"
  | leafRead .. => "btree.leaf.read"
  | leafWritten .. => "btree.leaf.write"
  | rowInserted .. => "btree.leaf.insert"
  | rowRemoved .. => "btree.leaf.remove_row"
  | splitSignalled .. => "btree.leaf.split_signal"
  | leafSplit .. => "btree.leaf.split"
  | leafCompacted .. => "btree.leaf.compact"
  | leafEmptied .. => "btree.leaf.emptied"
  | statsReported .. => "leaf stats snapshot"

private def pageField (page : PageId) : String × Value :=
  ("page", .number page.number.toNat)

def fields : Event → List (String × Value)
  | memoryPageAllocated page | filePageAllocated page | leafEmptied page => [pageField page]
  | fileOpened pageSize pageCount =>
    [("page_size", .number pageSize), ("next_id", .number pageCount)]
  | indexOpened table pageSize unique =>
    [("table", .number table.number.toNat), ("page_size", .number pageSize),
      ("unique", .flag unique)]
  | leafRead page entries form | leafWritten page entries form =>
    [pageField page, ("entries", .number entries), ("position_only", .flag form.isPositionOnly)]
  | rowInserted page slot length | rowRemoved page slot length =>
    [pageField page, ("slot", .number slot), ("row_len", .number length)]
  | splitSignalled page entries point =>
    [pageField page, ("entries", .number entries), ("split_point", .number point)]
  | leafSplit page newPage point moved =>
    [pageField page, ("new_page", .number newPage.number.toNat), ("split_point", .number point),
      ("moved", .number moved)]
  | leafCompacted page table entries =>
    [pageField page, ("table", .number table.number.toNat), ("entries", .number entries)]
  | statsReported stats =>
    [("rows_inserted", .number stats.rowsInserted), ("rows_removed", .number stats.rowsRemoved),
      ("split_signals", .number stats.splitSignals), ("splits", .number stats.splits),
      ("compactions", .number stats.compactions), ("rows_decoded", .number stats.rowsDecoded),
      ("pages_read", .number stats.pagesRead), ("pages_written", .number stats.pagesWritten)]

end Event

end SlottedLeaf
