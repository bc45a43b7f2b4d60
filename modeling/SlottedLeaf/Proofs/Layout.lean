import SlottedLeaf.Leaf.Basic
import SlottedLeaf.Proofs.RowOrder
import Mathlib.Algebra.Ring.Nat

/-!
# How rows lie on a page

The entries of a leaf are its rows with the offset of each. On a page in order every row ends where
the row before it starts, or below (`Stacked`); without gaps it ends exactly there (`Packed`).
Putting a row in, taking a row out and packing keep rows stacked, and leave no gap where there was
none.
-/

namespace SlottedLeaf

/-- A row and where it starts. -/
structure RowEntry where
  offset : Nat
  row : Row
deriving DecidableEq, Repr

def RowEntry.slot (entry : RowEntry) : Slot := ⟨entry.offset, some entry.row⟩

namespace RowEntry

/-- The offset of the last of some entries; `top` if there is none. -/
def lowest : Nat → List RowEntry → Nat
  | top, [] => top
  | _, entry :: rest => lowest entry.offset rest

/-- The rows end where the row before starts, or below; the first one ends at `top` or below. -/
def Stacked (size : Row → Nat) : Nat → List RowEntry → Prop
  | _, [] => True
  | top, entry :: rest => entry.offset + size entry.row ≤ top ∧ Stacked size entry.offset rest

/-- The rows end where the row before starts; the first one ends at `top`. -/
def Packed (size : Row → Nat) : Nat → List RowEntry → Prop
  | _, [] => True
  | top, entry :: rest => entry.offset + size entry.row = top ∧ Packed size entry.offset rest

def room (size : Row → Nat) (rows : List Row) : Nat := (rows.map size).sum

def shiftDown (length : Nat) (entries : List RowEntry) : List RowEntry :=
  entries.map fun entry => { entry with offset := entry.offset - length }

def shiftUp (length : Nat) (entries : List RowEntry) : List RowEntry :=
  entries.map fun entry => { entry with offset := entry.offset + length }

/-- The entries with a row put between `before` and `after`, for which those after it move down. -/
def insertBetween (top length : Nat) (row : Row) (before after : List RowEntry) : List RowEntry :=
  before ++ ⟨lowest top before - length, row⟩ :: shiftDown length after

/-- The entries left when `entry` goes from between `before` and `after`: those after it move up by
the bytes from its start to the row before. -/
def removeBetween (top : Nat) (before : List RowEntry) (entry : RowEntry) (after : List RowEntry) :
    List RowEntry :=
  before ++ shiftUp (lowest top before - entry.offset) after

/-- The entries of rows that are packed down from `top`. -/
def pack (size : Row → Nat) : Nat → List Row → List RowEntry
  | _, [] => []
  | top, row :: rest => ⟨top - size row, row⟩ :: pack size (top - size row) rest

section

variable {size : Row → Nat} {top : Nat} {entries before after : List RowEntry} {entry : RowEntry}
  {rows : List Row}

theorem lowest_append : lowest top (before ++ after) = lowest (lowest top before) after := by
  induction before generalizing top with
  | nil => rfl
  | cons entry rest ih => exact ih

theorem stacked_append :
    Stacked size top (before ++ after) ↔
      Stacked size top before ∧ Stacked size (lowest top before) after := by
  induction before generalizing top with
  | nil => simp only [List.nil_append, Stacked, lowest, true_and]
  | cons entry rest ih => simp only [List.cons_append, Stacked, lowest, ih, and_assoc]

theorem packed_append :
    Packed size top (before ++ after) ↔
      Packed size top before ∧ Packed size (lowest top before) after := by
  induction before generalizing top with
  | nil => simp only [List.nil_append, Packed, lowest, true_and]
  | cons entry rest ih => simp only [List.cons_append, Packed, lowest, ih, and_assoc]

theorem Packed.stacked (packed : Packed size top entries) : Stacked size top entries := by
  induction entries generalizing top with
  | nil => trivial
  | cons entry rest ih => exact ⟨Nat.le_of_eq packed.1, ih packed.2⟩

/-- Stacked rows leave no more than the bytes that they do not take. -/
theorem Stacked.room_le (stacked : Stacked size top entries) :
    room size (entries.map RowEntry.row) + lowest top entries ≤ top := by
  induction entries generalizing top with
  | nil => simp [room, lowest]
  | cons entry rest ih =>
    have rest_le := ih stacked.2
    have entry_le := stacked.1
    simp only [room, lowest, List.map_cons, List.sum_cons] at rest_le ⊢
    omega

theorem Packed.room_eq (packed : Packed size top entries) :
    room size (entries.map RowEntry.row) + lowest top entries = top := by
  induction entries generalizing top with
  | nil => simp [room, lowest]
  | cons entry rest ih =>
    have rest_eq := ih packed.2
    have entry_eq := packed.1
    simp only [room, lowest, List.map_cons, List.sum_cons] at rest_eq ⊢
    omega

/-- Rows that are measured smaller leave more room. -/
theorem room_le_room {smaller : Row → Nat} (le : ∀ row ∈ rows, smaller row ≤ size row) :
    room smaller rows ≤ room size rows := by
  induction rows with
  | nil => exact Nat.le_refl 0
  | cons row rest ih =>
    obtain ⟨here, later⟩ := List.forall_mem_cons.mp le
    exact Nat.add_le_add here (ih later)

theorem Stacked.lowest_le (stacked : Stacked size top entries) : lowest top entries ≤ top := by
  have := stacked.room_le
  omega

theorem Stacked.lowest_le_offset (stacked : Stacked size top entries) (member : entry ∈ entries) :
    lowest top entries ≤ entry.offset := by
  obtain ⟨before, after, rfl⟩ := List.append_of_mem member
  rw [lowest_append]
  exact (stacked_append.mp stacked).2.2.lowest_le

theorem Stacked.offset_le (stacked : Stacked size top entries) (member : entry ∈ entries) :
    entry.offset + size entry.row ≤ top := by
  obtain ⟨before, after, rfl⟩ := List.append_of_mem member
  obtain ⟨first, second⟩ := stacked_append.mp stacked
  exact Nat.le_trans second.1 first.lowest_le

/-! ## Putting a row in -/

theorem lowest_shiftDown (length : Nat) :
    lowest (top - length) (shiftDown length entries) = lowest top entries - length := by
  induction entries generalizing top with
  | nil => rfl
  | cons entry rest ih => exact ih

theorem Stacked.shiftDown (stacked : Stacked size top entries) {length : Nat}
    (fits : length ≤ lowest top entries) :
    Stacked size (top - length) (shiftDown length entries) := by
  induction entries generalizing top with
  | nil => trivial
  | cons entry rest ih =>
    have low := stacked.2.lowest_le
    have entry_le := stacked.1
    simp only [lowest] at fits
    refine ⟨?_, ih stacked.2 fits⟩
    show entry.offset - length + size entry.row ≤ top - length
    omega

theorem Packed.shiftDown (packed : Packed size top entries) {length : Nat}
    (fits : length ≤ lowest top entries) :
    Packed size (top - length) (shiftDown length entries) := by
  induction entries generalizing top with
  | nil => trivial
  | cons entry rest ih =>
    have low := packed.2.stacked.lowest_le
    have entry_eq := packed.1
    simp only [lowest] at fits
    refine ⟨?_, ih packed.2 fits⟩
    show entry.offset - length + size entry.row = top - length
    omega

theorem lowest_insertBetween (length : Nat) (row : Row) :
    lowest top (insertBetween top length row before after) =
      lowest top (before ++ after) - length := by
  rw [insertBetween, lowest_append, lowest, lowest_shiftDown, lowest_append]

/-- A row is put in with as much room as it takes, or more. -/
theorem Stacked.insertBetween_of_le {row : Row} {length : Nat}
    (stacked : Stacked size top (before ++ after)) (holds : size row ≤ length)
    (fits : length ≤ lowest top (before ++ after)) :
    Stacked size top (RowEntry.insertBetween top length row before after) := by
  obtain ⟨first, second⟩ := stacked_append.mp stacked
  rw [lowest_append] at fits
  have low := second.lowest_le
  refine stacked_append.mpr ⟨first, ?_, second.shiftDown fits⟩
  show lowest top before - length + size row ≤ lowest top before
  omega

theorem Stacked.insertBetween {row : Row} (stacked : Stacked size top (before ++ after))
    (fits : size row ≤ lowest top (before ++ after)) :
    Stacked size top (insertBetween top (size row) row before after) :=
  stacked.insertBetween_of_le (Nat.le_refl _) fits

theorem Packed.insertBetween {row : Row} (packed : Packed size top (before ++ after))
    (fits : size row ≤ lowest top (before ++ after)) :
    Packed size top (insertBetween top (size row) row before after) := by
  obtain ⟨first, second⟩ := packed_append.mp packed
  rw [lowest_append] at fits
  have low := second.stacked.lowest_le
  refine packed_append.mpr ⟨first, ?_, second.shiftDown fits⟩
  show lowest top before - size row + size row = lowest top before
  omega

@[simp]
theorem rows_shiftDown (length : Nat) :
    (shiftDown length entries).map RowEntry.row = entries.map RowEntry.row := by
  simp [shiftDown]

theorem rows_insertBetween (length : Nat) (row : Row) :
    (insertBetween top length row before after).map RowEntry.row =
      before.map RowEntry.row ++ row :: after.map RowEntry.row := by
  simp [insertBetween]

theorem length_insertBetween (length : Nat) (row : Row) :
    (insertBetween top length row before after).length = (before ++ after).length + 1 := by
  simp [insertBetween, shiftDown]
  omega

/-! ## Taking a row out -/

theorem lowest_shiftUp (length : Nat) :
    lowest (top + length) (shiftUp length entries) = lowest top entries + length := by
  induction entries generalizing top with
  | nil => rfl
  | cons entry rest ih => exact ih

theorem Stacked.shiftUp (stacked : Stacked size top entries) (length : Nat) :
    Stacked size (top + length) (shiftUp length entries) := by
  induction entries generalizing top with
  | nil => trivial
  | cons entry rest ih =>
    have entry_le := stacked.1
    refine ⟨?_, ih stacked.2⟩
    show entry.offset + length + size entry.row ≤ top + length
    omega

theorem Packed.shiftUp (packed : Packed size top entries) (length : Nat) :
    Packed size (top + length) (shiftUp length entries) := by
  induction entries generalizing top with
  | nil => trivial
  | cons entry rest ih =>
    have entry_eq := packed.1
    refine ⟨?_, ih packed.2⟩
    show entry.offset + length + size entry.row = top + length
    omega

theorem lowest_removeBetween (stacked : Stacked size top (before ++ entry :: after)) :
    lowest top (removeBetween top before entry after) =
      lowest top (before ++ entry :: after) + (lowest top before - entry.offset) := by
  have below := (stacked_append.mp stacked).2.1
  have reach : entry.offset + (lowest top before - entry.offset) = lowest top before := by omega
  rw [removeBetween, lowest_append, lowest_append, lowest, ← lowest_shiftUp, reach]

theorem Stacked.removeBetween (stacked : Stacked size top (before ++ entry :: after)) :
    Stacked size top (removeBetween top before entry after) := by
  obtain ⟨first, below, second⟩ := stacked_append.mp stacked
  have reach : entry.offset + (lowest top before - entry.offset) = lowest top before := by omega
  have moved := second.shiftUp (lowest top before - entry.offset)
  rw [reach] at moved
  exact stacked_append.mpr ⟨first, moved⟩

theorem Packed.removeBetween (packed : Packed size top (before ++ entry :: after)) :
    Packed size top (removeBetween top before entry after) := by
  obtain ⟨first, below, second⟩ := packed_append.mp packed
  have reach : entry.offset + (lowest top before - entry.offset) = lowest top before := by omega
  have moved := second.shiftUp (lowest top before - entry.offset)
  rw [reach] at moved
  exact packed_append.mpr ⟨first, moved⟩

@[simp]
theorem rows_shiftUp (length : Nat) :
    (shiftUp length entries).map RowEntry.row = entries.map RowEntry.row := by
  simp [shiftUp]

theorem rows_removeBetween :
    (removeBetween top before entry after).map RowEntry.row =
      before.map RowEntry.row ++ after.map RowEntry.row := by
  simp [removeBetween]

@[simp]
theorem length_removeBetween :
    (removeBetween top before entry after).length = before.length + after.length := by
  simp [removeBetween, shiftUp]

theorem shiftUp_shiftDown {length : Nat} (high : ∀ entry ∈ entries, length ≤ entry.offset) :
    shiftUp length (shiftDown length entries) = entries := by
  induction entries with
  | nil => rfl
  | cons entry rest ih =>
    obtain ⟨here, high⟩ := List.forall_mem_cons.mp high
    have back : entry.offset - length + length = entry.offset := Nat.sub_add_cancel here
    exact congrArg₂ List.cons (congrArg (RowEntry.mk · entry.row) back) (ih high)

/-- A row that was put in and is taken out again leaves every other where it was, gaps and all. -/
theorem removeBetween_insertBetween (row : Row) {length : Nat}
    (stacked : Stacked size top (before ++ after)) (fits : length ≤ lowest top (before ++ after)) :
    removeBetween top before ⟨lowest top before - length, row⟩ (shiftDown length after) =
      before ++ after := by
  obtain ⟨_, second⟩ := stacked_append.mp stacked
  rw [lowest_append] at fits
  have low := second.lowest_le
  have taken : lowest top before - (lowest top before - length) = length := by omega
  have high : ∀ entry ∈ after, length ≤ entry.offset := by
    intro entry member
    exact Nat.le_trans fits (second.lowest_le_offset member)
  rw [removeBetween, taken, shiftUp_shiftDown high]

/-- Ascending rows have one place for each row. -/
theorem split_unique {first second : List RowEntry} {other : RowEntry}
    (ascending : Row.Ascending ((before ++ entry :: after).map RowEntry.row))
    (split : first ++ other :: second = before ++ entry :: after) (same : other.row = entry.row) :
    first = before ∧ other = entry ∧ second = after := by
  rw [List.map_append, List.map_cons] at ascending
  induction before generalizing first with
  | nil =>
    cases first with
    | nil =>
      cases split
      exact ⟨rfl, rfl, rfl⟩
    | cons next first =>
      obtain ⟨rfl, rfl⟩ := List.cons.inj split
      have above := (List.pairwise_cons.mp ascending).1 other.row (by simp)
      exact absurd same.symm above.ne
  | cons next before ih =>
    cases first with
    | nil =>
      obtain ⟨rfl, rfl⟩ := List.cons.inj split
      have above := (List.pairwise_cons.mp ascending).1 entry.row (by simp)
      exact absurd same above.ne
    | cons head first =>
      obtain ⟨rfl, rest⟩ := List.cons.inj split
      obtain ⟨rfl, rfl, rfl⟩ := ih (List.pairwise_cons.mp ascending).2 rest
      exact ⟨rfl, rfl, rfl⟩

/-! ## Packing -/

theorem packed_pack (fits : room size rows ≤ top) : Packed size top (pack size top rows) := by
  induction rows generalizing top with
  | nil => trivial
  | cons row rest ih =>
    simp only [room, List.map_cons, List.sum_cons] at fits
    refine ⟨?_, ih ?_⟩
    · show top - size row + size row = top
      omega
    · simp only [room]
      omega

/-- Rows without gaps lie where packing puts them. -/
theorem Packed.eq_pack (packed : Packed size top entries) :
    entries = pack size top (entries.map RowEntry.row) := by
  induction entries generalizing top with
  | nil => rfl
  | cons entry rest ih =>
    have here : top - size entry.row = entry.offset := by
      have entry_eq := packed.1
      omega
    rw [List.map_cons, pack, here, ← ih packed.2]

@[simp]
theorem rows_pack (size : Row → Nat) (top : Nat) (rows : List Row) :
    (pack size top rows).map RowEntry.row = rows := by
  induction rows generalizing top with
  | nil => rfl
  | cons row rest ih => simp [pack, ih]

@[simp]
theorem length_pack : (pack size top rows).length = rows.length := by
  rw [← List.length_map RowEntry.row, rows_pack]

theorem pack_append (size : Row → Nat) (top : Nat) (first second : List Row) :
    pack size top (first ++ second) =
      pack size top first ++ pack size (lowest top (pack size top first)) second := by
  induction first generalizing top with
  | nil => rfl
  | cons row rest ih => simp only [List.cons_append, pack, lowest, ih]

end

end RowEntry

end SlottedLeaf
