import SlottedLeaf.Leaf.Insert
import SlottedLeaf.Leaf.Remove
import SlottedLeaf.Proofs.Calls
import SlottedLeaf.Proofs.Layout

/-!
# Changes to decoded slots

Once every row is decoded, the slots of a leaf are its entries. Putting a row in, taking one out,
packing and checking are what `RowEntry` says they are, and none of them fails where there is room.
-/

namespace SlottedLeaf

open RowEntry

variable {size : Row → Nat} {top : Nat} {entries before after : List RowEntry} {entry : RowEntry}

@[simp]
theorem offsets_slots (entries : List RowEntry) :
    (entries.map RowEntry.slot).map Slot.offset = entries.map RowEntry.offset := by
  simp [RowEntry.slot, Function.comp_def]

/-- The row before a place ends nothing lower than `ceiling` says. -/
theorem ceiling_eq_lowest (top : Nat) (before after : List RowEntry) :
    OffsetTable.ceiling ((before ++ after).map RowEntry.offset) top before.length =
      lowest top before := by
  rcases List.eq_nil_or_concat before with rfl | ⟨before, entry, rfl⟩
  · rfl
  · have here : ((before ++ [entry] ++ after).map RowEntry.offset)[before.length]? =
        some entry.offset := by simp
    rw [List.concat_eq_append, List.length_append, List.length_singleton, OffsetTable.ceiling, here,
      lowest_append]
    rfl

namespace Leaf

theorem mapM_lowered {length : Nat} (high : ∀ entry ∈ entries, length ≤ entry.offset) :
    ((entries.map RowEntry.slot).mapM fun other => do
        return { other with offset := ← lowered length other.offset } : Except Fault (List Slot)) =
      .ok ((shiftDown length entries).map RowEntry.slot) := by
  induction entries with
  | nil => rfl
  | cons entry rest ih =>
    have here : lowered length entry.slot.offset = .ok (entry.offset - length) :=
      if_neg (Nat.not_lt.mpr (high entry List.mem_cons_self))
    rw [List.map_cons, List.mapM_cons, here, ih fun other member =>
      high other (List.mem_cons_of_mem entry member)]
    rfl

/-- Putting a row in does not fail where the page has room for it. -/
theorem insertSlot_eq (stacked : Stacked size top (before ++ after)) {length : Nat} (row : Row)
    (fits : length ≤ lowest top (before ++ after)) :
    insertSlot top before.length length row ((before ++ after).map RowEntry.slot) =
      .ok ((insertBetween top length row before after).map RowEntry.slot) := by
  obtain ⟨_, second⟩ := stacked_append.mp stacked
  rw [lowest_append] at fits
  have high : ∀ entry ∈ after, length ≤ entry.offset := by
    intro entry member
    exact Nat.le_trans fits (second.lowest_le_offset member)
  have room : lowered length (lowest top before) = .ok (lowest top before - length) :=
    if_neg (Nat.not_lt.mpr (Nat.le_trans fits second.lowest_le))
  have cut : (before.map RowEntry.slot).length = before.length := List.length_map ..
  rw [insertSlot, offsets_slots, ceiling_eq_lowest, room, List.map_append,
    List.drop_left' cut, List.take_left' cut, mapM_lowered high, insertBetween, List.map_append]
  rfl

theorem removeSlot_eq (length : Nat) :
    removeSlot before.length length ((before ++ entry :: after).map RowEntry.slot) =
      (before ++ shiftUp length after).map RowEntry.slot := by
  have cut : (before.map RowEntry.slot).length = before.length := List.length_map ..
  have rest : ((before ++ entry :: after).map RowEntry.slot).drop (before.length + 1) =
      after.map RowEntry.slot := by
    rw [List.map_append, List.map_cons, ← List.drop_drop, List.drop_left' cut]
    rfl
  rw [removeSlot, rest, List.map_append, List.take_left' cut, List.map_append, shiftUp,
    List.map_map, List.map_map]
  rfl

/-- Packing does not fail where the page has room for all rows. -/
theorem packSlots_eq (fits : room size (entries.map RowEntry.row) ≤ top) :
    packSlots size top (entries.map RowEntry.slot) =
      .ok ((pack size top (entries.map RowEntry.row)).map RowEntry.slot) := by
  induction entries generalizing top with
  | nil => rfl
  | cons entry rest ih =>
    simp only [room, List.map_cons, List.sum_cons] at fits
    have here : ¬ top < size entry.row := by omega
    have rest_fits : room size (rest.map RowEntry.row) ≤ top - size entry.row := by
      simp only [room]
      omega
    have later := ih rest_fits
    simp only [List.map_cons, RowEntry.slot, packSlots, if_neg here]
    exact congrArg (Except.map (_ :: ·)) later

theorem extent_eq (stacked : Stacked size top (before ++ entry :: after)) :
    OffsetTable.extent ((before ++ entry :: after).map RowEntry.offset) top before.length =
      .ok (entry.offset, lowest top before) := by
  obtain ⟨first, second⟩ := stacked_append.mp stacked
  have here : ((before ++ entry :: after).map RowEntry.offset)[before.length]? =
      some entry.offset := by simp
  have below := second.1
  have high := first.lowest_le
  rw [OffsetTable.extent, here, ceiling_eq_lowest]
  exact if_neg (by omega)

/-- The check of slots accepts stacked rows in ascending order. -/
theorem checkSlots_eq {previous : Option Row} (stacked : Stacked size top entries)
    (sorted : Row.Ascending (previous.toList ++ entries.map RowEntry.row)) :
    checkSlots size top previous (entries.map RowEntry.slot) = .ok (lowest top entries) := by
  induction entries generalizing top previous with
  | nil => rfl
  | cons entry rest ih =>
    have ordered : ¬ (previous.any fun previous => previous.compareRows entry.row ≠ .lt) := by
      cases previous with
      | none => simp
      | some previous =>
        have below : previous.Below entry.row :=
          (List.pairwise_cons.mp sorted).1 entry.row List.mem_cons_self
        simpa [Row.Below] using below
    have later : Row.Ascending ((some entry.row).toList ++ rest.map RowEntry.row) :=
      (List.pairwise_append.mp sorted).2.1
    have apart := stacked.1
    rw [List.map_cons, RowEntry.slot, checkSlots, if_neg (by omega), if_neg ordered,
      ih stacked.2 later, lowest]

/-- The check of slots accepts nothing else: they are decoded, stacked and in ascending order. -/
theorem entries_of_checkSlots {previous : Option Row} {slots : List Slot} {low : Nat}
    (checked : checkSlots size top previous slots = .ok low) :
    ∃ entries, slots = entries.map RowEntry.slot ∧ Stacked size top entries ∧
      Row.Ascending (previous.toList ++ entries.map RowEntry.row) ∧ low = lowest top entries := by
  induction slots generalizing top previous with
  | nil =>
    cases checked
    exact ⟨[], rfl, trivial, by cases previous <;> simp [Row.Ascending], rfl⟩
  | cons slot rest ih =>
    obtain ⟨offset, _ | row⟩ := slot
    · cases checked
    rw [checkSlots] at checked
    obtain ⟨apart, checked⟩ := except_guard_ok checked
    obtain ⟨ordered, checked⟩ := except_guard_ok checked
    obtain ⟨entries, rfl, stacked, ascending, rfl⟩ := ih checked
    refine ⟨⟨offset, row⟩ :: entries, rfl, ⟨Nat.le_of_not_lt apart, stacked⟩, ?_, rfl⟩
    cases previous with
    | none => exact ascending
    | some previous =>
      have below : previous.Below row := by simpa [Row.Below] using ordered
      refine List.pairwise_cons.mpr ⟨?_, ascending⟩
      intro other member
      rcases List.mem_cons.mp member with rfl | later
      · exact below
      · exact below.trans ((List.pairwise_cons.mp ascending).1 other later)

/-- The rows of a leaf whose layout is accepted are so, and clear of the offset table besides. -/
theorem entries_of_checkLayout {index : Index} {leaf : Leaf}
    (checked : leaf.checkLayout index = .ok ()) :
    ∃ entries, leaf.slots = entries.map RowEntry.slot ∧
      Stacked (index.format.size leaf.form) index.pageSize entries ∧
      Row.Ascending (entries.map RowEntry.row) ∧ leaf.start ≤ lowest index.pageSize entries := by
  rw [checkLayout] at checked
  obtain ⟨low, found, checked⟩ := except_bind_ok checked
  obtain ⟨entries, slots, stacked, ascending, rfl⟩ := entries_of_checkSlots found
  refine ⟨entries, slots, stacked, ascending, ?_⟩
  by_cases overlap : lowest index.pageSize entries < leaf.start
  · rw [if_pos overlap] at checked
    cases checked
  · exact Nat.le_of_not_lt overlap

end Leaf

end SlottedLeaf
