import SlottedLeaf.Fault

/-!
# The table behind an index

A leaf that keeps positions only looks its keys up in the table that the index belongs to. Here the
table is the list of its rows, at most one to a position.
-/

namespace SlottedLeaf

/-- The rows of a table, latest first, no two at one position. -/
structure RowTable where
  rows : List Row
deriving Repr

namespace RowTable

def empty : RowTable := ⟨[]⟩

def erase (table : RowTable) (pos : RowPos) : RowTable :=
  ⟨table.rows.filter fun row => row.pos ≠ pos⟩

/-- Puts a row in the place of any other at its position. -/
def insert (table : RowTable) (row : Row) : RowTable := ⟨row :: (table.erase row.pos).rows⟩

/-- The table filled with rows in order; the last at a position stays. -/
def ofList (rows : List Row) : RowTable := rows.foldl insert empty

def size (table : RowTable) : Nat := table.rows.length

def find? (table : RowTable) (pos : RowPos) : Option Row :=
  table.rows.find? fun row => row.pos = pos

/-- Looks up the row that a position-only row stands for. -/
def resolve (table : RowTable) (pos : RowPos) : Except Fault Row :=
  match table.find? pos with
  | some row => .ok row
  | none => .error (.corruption .rowNotInTable)

theorem find?_erase (table : RowTable) (pos sought : RowPos) :
    (table.erase pos).find? sought = if sought = pos then none else table.find? sought := by
  simp only [find?, erase, List.find?_filter]
  split
  · next same =>
    subst same
    simp
  · next other =>
    congr 1
    funext row
    by_cases at_sought : row.pos = sought
    · simp [at_sought, other]
    · simp [at_sought]

theorem find?_insert (table : RowTable) (row : Row) (sought : RowPos) :
    (table.insert row).find? sought =
      if sought = row.pos then some row else table.find? sought := by
  by_cases same : sought = row.pos
  · simp [insert, find?, same]
  · have other : row.pos ≠ sought := fun h => same h.symm
    rw [if_neg same, ← show (table.erase row.pos).find? sought = table.find? sought by
      rw [find?_erase, if_neg same]]
    simp [insert, find?, other]

/-- A row that is put where there was none hides no other. -/
theorem resolve_insert {table : RowTable} {row found : Row} {pos : RowPos}
    (absent : table.find? row.pos = none) (resolves : table.resolve pos = .ok found) :
    (table.insert row).resolve pos = .ok found := by
  rw [resolve] at resolves ⊢
  rw [find?_insert]
  by_cases same : pos = row.pos
  · rw [same, absent] at resolves
    cases resolves
  · rw [if_neg same]
    exact resolves

end RowTable

end SlottedLeaf
