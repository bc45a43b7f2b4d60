import SlottedLeaf.Fault

/-!
# Kinds of pages and forms of rows

The type byte of a page joins two things: its low seven bits tell leaf pages from node pages, and
its high bit tells in which form the page keeps its rows.
-/

namespace SlottedLeaf

/-- What a page of the tree holds. -/
inductive PageKind where
  /-- Index rows. -/
  | leaf
  /-- Entries that route a search to a child page. -/
  | node
deriving DecidableEq, Repr

/-- The form of every row on a page. A leaf goes from full rows to position-only rows when it is
compacted, and never back. -/
inductive RowForm where
  /-- Rows carry their position and their key. -/
  | full
  /-- Rows carry the position alone; the key is looked up in the table. -/
  | positionOnly
deriving DecidableEq, Repr

namespace PageKind

def tag : PageKind → UInt8
  | leaf => 4
  | node => 5

def ofTag (tag : UInt8) : Except Fault PageKind :=
  if tag = 4 then .ok leaf
  else if tag = 5 then .ok node
  else .error (.corruption .unknownPageKind)

def ofTypeByte (byte : UInt8) : Except Fault PageKind := ofTag (byte &&& 0x7F)

end PageKind

namespace RowForm

def flag : RowForm → UInt8
  | full => 0x80
  | positionOnly => 0

def ofTypeByte (byte : UInt8) : RowForm :=
  if byte &&& 0x80 = 0 then positionOnly else full

/-- Whether rows of this form leave their key to the table. -/
def isPositionOnly : RowForm → Bool
  | full => false
  | positionOnly => true

end RowForm

def typeByte (kind : PageKind) (form : RowForm) : UInt8 := kind.tag ||| form.flag

@[simp]
theorem ofTypeByte_typeByte (kind : PageKind) (form : RowForm) :
    PageKind.ofTypeByte (typeByte kind form) = .ok kind ∧
      RowForm.ofTypeByte (typeByte kind form) = form := by
  cases kind <;> cases form <;> exact ⟨rfl, rfl⟩

end SlottedLeaf
