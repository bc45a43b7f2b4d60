/-!
# Identifiers

Pages, tables and table rows are named by fixed-width numbers. Page 0 is reserved: it is never
handed out by a store, and in the parent field of a page it stands for "no parent".
-/

namespace SlottedLeaf

/-- The number of a page in its store. -/
structure PageId where
  number : UInt32
deriving DecidableEq, Repr

/-- The number of the table (index) that owns a page. -/
structure TableId where
  number : UInt32
deriving DecidableEq, Repr

/-- The place of the table row that an index row points at. -/
structure RowPos where
  value : UInt64
deriving DecidableEq, Repr

namespace PageId

/-- The page whose number no store hands out. -/
def reserved : PageId := ⟨0⟩

def ofParentField (raw : UInt32) : Option PageId :=
  if raw = 0 then none else some ⟨raw⟩

def toParentField : Option PageId → UInt32
  | none => 0
  | some id => id.number

@[simp]
theorem toParentField_ofParentField (raw : UInt32) :
    toParentField (ofParentField raw) = raw := by
  unfold ofParentField
  split <;> simp_all [toParentField]

/-- A parent field names no reserved page. -/
theorem ofParentField_ne_reserved (raw : UInt32) : ofParentField raw ≠ some reserved := by
  unfold ofParentField
  split
  · simp
  · rename_i nonzero
    simpa [reserved] using nonzero

theorem ofParentField_toParentField {parent : Option PageId} (unreserved : parent ≠ some reserved) :
    ofParentField (toParentField parent) = parent := by
  cases parent with
  | none => rfl
  | some id =>
    have nonzero : id.number ≠ 0 := fun zero => unreserved (by cases id; simp_all [reserved])
    simp [toParentField, ofParentField, nonzero]

end PageId

end SlottedLeaf
