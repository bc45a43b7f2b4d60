import SlottedLeaf.Row.Basic

/-!
# The order of rows

Rows are ordered by key and, among equal keys, by position. The order is strict and total: of two
different rows one is below the other. A list of rows in ascending order has one place for a row
that it does not hold; `insertInOrder` puts the row there.
-/

namespace SlottedLeaf.Row

instance : Std.TransCmp compareKeys := inferInstanceAs (Std.TransCmp (compareOn key))

instance : Std.TransCmp comparePositions :=
  inferInstanceAs (Std.TransCmp (compareOn fun row : Row => row.pos.value))

instance : Std.TransCmp compareRows :=
  inferInstanceAs (Std.TransCmp (compareLex (compareOn key) (compareOn fun row => row.pos.value)))

theorem compareKeys_eq_iff {a b : Row} : a.compareKeys b = .eq ↔ a.key = b.key :=
  Std.LawfulEqOrd.compare_eq_iff_eq

theorem comparePositions_eq_iff {a b : Row} : a.comparePositions b = .eq ↔ a.pos = b.pos := by
  rw [comparePositions, Std.LawfulEqOrd.compare_eq_iff_eq]
  cases a.pos
  cases b.pos
  simp

theorem compareRows_eq_iff {a b : Row} : a.compareRows b = .eq ↔ a = b := by
  rw [compareRows, Ordering.then_eq_eq, compareKeys_eq_iff, comparePositions_eq_iff]
  cases a
  cases b
  simp

/-- `a` comes before `b` in an index. -/
def Below (a b : Row) : Prop := a.compareRows b = .lt

instance (a b : Row) : Decidable (a.Below b) := inferInstanceAs (Decidable (_ = _))

namespace Below

variable {a b c : Row}

theorem trans (first : a.Below b) (second : b.Below c) : a.Below c :=
  Std.TransCmp.lt_trans first second

theorem irrefl (a : Row) : ¬ a.Below a := by
  intro below
  rw [Below, compareRows_eq_iff.mpr rfl] at below
  cases below

theorem asymm (below : a.Below b) : ¬ b.Below a := fun back => irrefl a (below.trans back)

theorem ne (below : a.Below b) : a ≠ b := by
  rintro rfl
  exact irrefl a below

/-- A row below another has a lower key, or the same key and a lower position. -/
theorem keys_or_positions (below : a.Below b) :
    a.compareKeys b = .lt ∨ a.key = b.key ∧ a.comparePositions b = .lt := by
  rw [← compareKeys_eq_iff]
  exact Ordering.then_eq_lt.mp below

end Below

theorem below_iff_gt {a b : Row} : b.Below a ↔ a.compareRows b = .gt :=
  Std.OrientedCmp.gt_iff_lt.symm

/-- Of two rows, one is below the other, or they are the same. -/
theorem below_or_eq_or_below (a b : Row) : a.Below b ∨ a = b ∨ b.Below a := by
  cases order : a.compareRows b with
  | lt => exact .inl order
  | eq => exact .inr (.inl (compareRows_eq_iff.mp order))
  | gt => exact .inr (.inr (below_iff_gt.mpr order))

def Ascending (rows : List Row) : Prop := rows.Pairwise Below

instance (rows : List Row) : Decidable (Ascending rows) :=
  inferInstanceAs (Decidable (List.Pairwise _ _))

/-- Rows can be put in ascending order in one way only. -/
theorem Ascending.eq_of_mem_iff {rows others : List Row} (sorted : Ascending rows)
    (otherSorted : Ascending others) (same : ∀ row, row ∈ others ↔ row ∈ rows) : others = rows := by
  have distinct {rows : List Row} (sorted : Ascending rows) : rows.Nodup := sorted.imp Below.ne
  apply List.Perm.eq_of_pairwise _ otherSorted sorted
  · exact (List.perm_ext_iff_of_nodup (distinct otherSorted) (distinct sorted)).mpr same
  · intro a b _ _ below above
    exact absurd above below.asymm

/-- The rows with one more, after the rows below it and before those above it. -/
def insertInOrder (row : Row) (rows : List Row) : List Row :=
  rows.filter (fun other => other.Below row) ++ row :: rows.filter (fun other => row.Below other)

section insertInOrder

variable {row : Row} {below above : List Row}

private theorem filter_below_of_above (high : ∀ other ∈ above, row.Below other) :
    above.filter (fun other => other.Below row) = [] := by
  rw [List.filter_eq_nil_iff]
  intro other member
  simpa using (high other member).asymm

private theorem filter_above_of_below (low : ∀ other ∈ below, other.Below row) :
    below.filter (fun other => row.Below other) = [] := by
  rw [List.filter_eq_nil_iff]
  intro other member
  simpa using (low other member).asymm

theorem mem_insertInOrder {other : Row} {rows : List Row} :
    other ∈ insertInOrder row rows ↔ other = row ∨ other ∈ rows := by
  simp only [insertInOrder, List.mem_append, List.mem_cons, List.mem_filter, decide_eq_true_eq]
  constructor
  · rintro (⟨member, _⟩ | same | ⟨member, _⟩)
    · exact .inr member
    · exact .inl same
    · exact .inr member
  · rintro (same | member)
    · exact .inr (.inl same)
    · rcases below_or_eq_or_below other row with below | same | above
      · exact .inl ⟨member, below⟩
      · exact .inr (.inl same)
      · exact .inr (.inr ⟨member, above⟩)

theorem insertInOrder_append_left (low : ∀ other ∈ below, other.Below row) (rows : List Row) :
    insertInOrder row (below ++ rows) = below ++ insertInOrder row rows := by
  have all : below.filter (fun other => other.Below row) = below :=
    List.filter_eq_self.mpr fun other member => decide_eq_true (low other member)
  rw [insertInOrder, List.filter_append, List.filter_append, all, filter_above_of_below low,
    List.nil_append, List.append_assoc, insertInOrder]

theorem insertInOrder_append_right (high : ∀ other ∈ above, row.Below other) (rows : List Row) :
    insertInOrder row (rows ++ above) = insertInOrder row rows ++ above := by
  have all : above.filter (fun other => row.Below other) = above :=
    List.filter_eq_self.mpr fun other member => decide_eq_true (high other member)
  rw [insertInOrder, List.filter_append, List.filter_append, all, filter_below_of_above high,
    List.append_nil, insertInOrder, List.append_assoc, List.cons_append]

/-- The place of a row is between the rows below it and those above it. -/
theorem insertInOrder_append (low : ∀ other ∈ below, other.Below row)
    (high : ∀ other ∈ above, row.Below other) :
    insertInOrder row (below ++ above) = below ++ row :: above := by
  have alone : insertInOrder row [] = [row] := rfl
  rw [insertInOrder_append_left low, ← List.nil_append above, insertInOrder_append_right high,
    alone, List.singleton_append, List.nil_append]

theorem ascending_insert (low : ∀ other ∈ below, other.Below row)
    (high : ∀ other ∈ above, row.Below other) (sorted : Ascending (below ++ above)) :
    Ascending (below ++ row :: above) := by
  obtain ⟨first, second, across⟩ := List.pairwise_append.mp sorted
  refine List.pairwise_append.mpr ⟨first, List.pairwise_cons.mpr ⟨high, second⟩, ?_⟩
  intro a member b later
  rcases List.mem_cons.mp later with rfl | later
  · exact low a member
  · exact across a member b later

end insertInOrder

theorem ascending_remove {below above : List Row} {row : Row}
    (sorted : Ascending (below ++ row :: above)) : Ascending (below ++ above) :=
  List.Pairwise.sublist ((List.sublist_cons_self row above).append_left below) sorted

/-- In ascending order a row occurs once. -/
theorem erase_middle {below above : List Row} {row : Row}
    (sorted : Ascending (below ++ row :: above)) :
    (below ++ row :: above).erase row = below ++ above := by
  have absent : row ∉ below := by
    intro member
    exact Below.irrefl row ((List.pairwise_append.mp sorted).2.2 row member row List.mem_cons_self)
  rw [List.erase_append_right _ absent, List.erase_cons_head]

/-- The row is the last of these in the order of the index. -/
def Greatest (row : Row) (rows : List Row) : Prop :=
  row ∈ rows ∧ ∀ other ∈ rows, other = row ∨ other.Below row

theorem greatest_append {rows : List Row} {row : Row} (sorted : Ascending (rows ++ [row])) :
    Greatest row (rows ++ [row]) := by
  refine ⟨List.mem_append_right rows List.mem_cons_self, ?_⟩
  intro other member
  rcases List.mem_append.mp member with member | member
  · exact .inr ((List.pairwise_append.mp sorted).2.2 other member row List.mem_cons_self)
  · exact .inl (List.mem_singleton.mp member)

/-- In ascending order a row is the last if and only if none is above it. -/
theorem getLast?_eq_iff {below above : List Row} {row : Row}
    (sorted : Ascending (below ++ row :: above)) :
    (below ++ row :: above).getLast? = some row ↔ above = [] := by
  rcases List.eq_nil_or_concat above with rfl | ⟨above, last, rfl⟩
  · simp
  · have higher : row.Below last :=
      (List.pairwise_cons.mp (List.pairwise_append.mp sorted).2.1).1 last (by simp)
    have whole : below ++ row :: above.concat last = (below ++ row :: above) ++ [last] := by simp
    rw [whole, List.getLast?_concat]
    simp [higher.ne.symm]

/-! ## Keys -/

/-- No two of the rows share a key, NULL apart. -/
def KeysDiffer (rows : List Row) : Prop := rows.Pairwise fun a b => a.key = b.key → a.key = none

instance (rows : List Row) : Decidable (KeysDiffer rows) :=
  inferInstanceAs (Decidable (List.Pairwise _ _))

theorem keysDiffer_insert {below above : List Row} {row : Row}
    (differ : KeysDiffer (below ++ above))
    (fresh : ∀ other ∈ below ++ above, other.key = row.key → row.key = none) :
    KeysDiffer (below ++ row :: above) := by
  obtain ⟨first, second, across⟩ := List.pairwise_append.mp differ
  refine List.pairwise_append.mpr ⟨first, List.pairwise_cons.mpr ⟨?_, second⟩, ?_⟩
  · intro other member same
    exact fresh other (List.mem_append_right below member) same.symm
  · intro a member b later same
    rcases List.mem_cons.mp later with rfl | later
    · exact same.trans (fresh a (List.mem_append_left above member) same)
    · exact across a member b later same

theorem keysDiffer_remove {below above : List Row} {row : Row}
    (differ : KeysDiffer (below ++ row :: above)) : KeysDiffer (below ++ above) :=
  List.Pairwise.sublist ((List.sublist_cons_self row above).append_left below) differ

end SlottedLeaf.Row
