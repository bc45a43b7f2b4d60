import SlottedLeaf.Row.Basic

/-!
# Faults

Everything that can go wrong, by cause. A fault is a corruption when the bytes of a page or of a
file are to blame, an invalid argument when the caller is, and internal when a page breaks its own
layout. `Fault.message` gives the wording.
-/

namespace SlottedLeaf

/-- Ways in which stored bytes fail to be what they should be. -/
inductive Corruption where
  | fieldOffsetOverflow
  | fieldPastEnd
  | rowOffsetPastEnd
  | rowPositionCut
  | rowKeyLengthCut
  | rowKeyLengthTooLong
  | rowLengthOverflow
  | rowCut
  | rowNotInTable
  | unknownPageKind
  | notALeaf
  | headerCut
  | offsetTableCut
  | pageLength
  | offsetOutsideData
  | offsetsAscend
  | offsetInsideTable
  | extentInverted
  | fileLength
  | tooManyPages
deriving DecidableEq, Repr

/-- Ways in which an argument fails to be what a call asks for. -/
inductive Misuse where
  | fieldOffsetOverflow
  | fieldDoesNotFit
  | headerDoesNotFit
  | slotOutOfRange
  | splitPoint
  | pageSizeTooSmall
  | pageSizeTooLarge
  | pageLength
  | reservedPage
  | writeUnallocated
  | readUnallocated
  | pagesExhausted
deriving DecidableEq, Repr

/-- Ways in which a leaf breaks its own layout. `reported` is a breach that the node layer
reports, in its own words. -/
inductive Breach where
  | offsetTooLarge
  | tooManyEntries
  | rowNotLoaded
  | rowDoesNotFit
  | offsetUnderflow
  | splitTargetFull
  | removingOnlyRow
  | positionRowTooLarge
  | rowsOverlap
  | rowsOutOfOrder
  | rowsOverlapTable
  | reported (text : String)
deriving DecidableEq, Repr

/-- Ways in which a file cannot be read. -/
inductive Unreadable where
  | isDirectory
  | notADirectory
  | nameTooLong
  | notUtf8
deriving DecidableEq, Repr

/-- A reason for a call to fail. -/
inductive Fault where
  | unreadable (cause : Unreadable)
  | corruption (cause : Corruption)
  | tableMismatch (page : PageId) (expected found : TableId)
  | rowNotFound (page : PageId) (row : Row)
  | duplicateKey (page : PageId) (row : Row)
  | internal (cause : Breach)
  | invalid (cause : Misuse)
  | config (file : Option String)
deriving DecidableEq, Repr

def Corruption.text : Corruption → String
  | .fieldOffsetOverflow => "field offset overflow"
  | .fieldPastEnd => "field extends past buffer"
  | .rowOffsetPastEnd => "row offset past page end"
  | .rowPositionCut => "row position truncated"
  | .rowKeyLengthCut => "row key length truncated"
  | .rowKeyLengthTooLong => "row varint too long"
  | .rowLengthOverflow => "row length overflow"
  | .rowCut => "row truncated by page end"
  | .rowNotInTable => "position-only row missing from table"
  | .unknownPageKind => "unknown btree page type"
  | .notALeaf => "page is not a btree leaf"
  | .headerCut => "page shorter than leaf header"
  | .offsetTableCut => "offset table exceeds page"
  | .pageLength => "page buffer length differs from page size"
  | .offsetOutsideData => "row offset outside page data region"
  | .offsetsAscend => "row offsets not descending"
  | .offsetInsideTable => "row offset inside offset table"
  | .extentInverted => "row extent inverted or past page end"
  | .fileLength => "file length is not a multiple of the page size"
  | .tooManyPages => "file holds more pages than u32 ids"

def Misuse.text : Misuse → String
  | .fieldOffsetOverflow => "field offset overflow"
  | .fieldDoesNotFit => "field does not fit in buffer"
  | .headerDoesNotFit => "page shorter than leaf header"
  | .slotOutOfRange => "slot index out of range"
  | .splitPoint => "split point must leave rows on both pages"
  | .pageSizeTooSmall => "page size below minimum"
  | .pageSizeTooLarge => "page size exceeds u16 offset range"
  | .pageLength => "page buffer length differs from page size"
  | .reservedPage => "page id 0 is reserved"
  | .writeUnallocated => "write to unallocated page"
  | .readUnallocated => "read of unallocated page"
  | .pagesExhausted => "page id space exhausted"

def Breach.text : Breach → String
  | .offsetTooLarge => "row offset exceeds u16"
  | .tooManyEntries => "entry count exceeds u16"
  | .rowNotLoaded => "row not loaded"
  | .rowDoesNotFit => "row does not fit after switching to position-only rows"
  | .offsetUnderflow => "row offset underflow on insert"
  | .splitTargetFull => "split target overflowed while moving rows"
  | .removingOnlyRow => "removing the only row would leave an empty leaf"
  | .positionRowTooLarge => "position-only row larger than page"
  | .rowsOverlap => "row bytes overlap a neighbour"
  | .rowsOutOfOrder => "rows out of order"
  | .rowsOverlapTable => "rows overlap the offset table"
  | .reported text => text

def Unreadable.text : Unreadable → String
  | .isDirectory => "Is a directory (os error 21)"
  | .notADirectory => "Not a directory (os error 20)"
  | .nameTooLong => "File name too long (os error 36)"
  | .notUtf8 => "stream did not contain valid UTF-8"

namespace Fault

/-- Whether stored bytes are to blame: they do not decode, or they belong to another table. -/
def isCorruption : Fault → Bool
  | .corruption _ => true
  | .tableMismatch .. => true
  | _ => false

/-- The wording of a fault. A configuration fault names the file that holds the configuration, if it
came from one, and leaves room for what is wrong in it. -/
def message : Fault → String
  | .unreadable cause => "IO: " ++ cause.text
  | .corruption cause => "corruption: " ++ cause.text
  | .tableMismatch page expected found =>
    "corruption: page " ++ toString page.number.toNat ++ " expected table " ++
      toString expected.number.toNat ++ " got " ++ toString found.number.toNat
  | .rowNotFound page row =>
    "row not found when deleting from page " ++ toString page.number.toNat ++ ": " ++ row.text
  | .duplicateKey page row =>
    "duplicate key on page " ++ toString page.number.toNat ++ ": " ++ row.text
  | .internal cause => "internal error: " ++ cause.text
  | .invalid cause => "invalid argument: " ++ cause.text
  | .config none => "config: "
  | .config (some file) => "config: " ++ file ++ ": "

end Fault

end SlottedLeaf
