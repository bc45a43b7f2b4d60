import SlottedLeaf.Proofs.WellFormed

/-!
# What a removal does

On a leaf in order a removal ends in one of three ways (`Leaf.Removes`): the leaf does not hold the
row, the row is its only one and stays, or it is taken from between the rows below it and those
above it. In each of them the leaf is in order afterwards.
-/

namespace SlottedLeaf

open RowEntry

/-- What a removal answers that takes a row from between these entries. -/
def Removal.between (before after : List RowEntry) : Removal :=
  match after, before.getLast? with
  | [], some last => .lastChanged last.row
  | _, _ => .unchanged

theorem Removal.between_ne_emptied (before after : List RowEntry) (only : Row) :
    between before after ≠ .emptied only := by
  intro same
  unfold between at same
  split at same <;> cases same

namespace Leaf

variable {index : Index} {leaf : Leaf} {entries before after : List RowEntry} {entry : RowEntry}

/-! ## The steps -/

/-- Sorted rows stay sorted when one of them goes. -/
theorem Sorted.removeBetween (sorted : leaf.Sorted index (before ++ entry :: after)) :
    (leaf.changed (removeBetween index.pageSize before entry after)).Sorted index
      (removeBetween index.pageSize before entry after) := by
  have clear := sorted.clear
  have ascending := sorted.ascending
  rw [sorted.shows.start, List.length_append, List.length_cons] at clear
  rw [List.map_append, List.map_cons] at ascending
  refine (Sorted.of_holding sorted.stacked.removeBetween ?_ ?_).changed
  · rw [lowest_removeBetween sorted.stacked, length_removeBetween]
    simp only [entryLength] at clear ⊢
    omega
  · rw [rows_removeBetween]
    exact Row.ascending_remove ascending

theorem Holds.removeBetween (holds : leaf.Holds index (before ++ entry :: after)) :
    (leaf.changed (removeBetween index.pageSize before entry after)).Holds index
      (removeBetween index.pageSize before entry after) := by
  have distinct := holds.distinct
  rw [List.map_append, List.map_cons] at distinct
  refine holds.sorted.removeBetween.holds holds.image ?_
  intro unique
  rw [rows_removeBetween]
  exact Row.keysDiffer_remove (distinct unique)

/-- Taking a row off a leaf that holds another does not fail. -/
theorem removeAt_on (sorted : leaf.Sorted index (before ++ entry :: after))
    (several : 1 < (before ++ entry :: after).length) (engine : Engine) :
    ∃ later, (removeAt index before.length).on leaf engine =
        ((.ok (), leaf.changed (removeBetween index.pageSize before entry after)), later) ∧
      later.store = engine.store := by
  obtain ⟨n, _, loaded⟩ := sorted.shows.loadRows
  have inside : ¬ (before ++ entry :: after).length ≤ before.length := by simp
  have checked : (leaf.changed (removeBetween index.pageSize before entry after)).checkInvariants
      index = .ok () := sorted.removeBetween.checkInvariants
  have removed : removeSlot before.length (lowest index.pageSize before - entry.offset)
      ((before ++ entry :: after).map RowEntry.slot) =
        (removeBetween index.pageSize before entry after).map RowEntry.slot := removeSlot_eq _
  simp only [removeAt, LeafCall.on_bind, loaded, LeafCall.on_get, count_holding, if_neg inside,
    if_neg (Nat.not_le.mpr several), offsets_holding, extent_eq sorted.stacked,
    LeafCall.on_ofExcept, id_holding, parent_holding, form_holding, image_holding, slots_holding,
    removed, LeafCall.on_set, changed_mk, checked, LeafCall.on_count, LeafCall.on_report]
  exact ⟨_, rfl, rfl⟩

theorem holds_looks (shows : leaf.Shows index entries) {slot : Nat}
    (here : entries[slot]? = some entry) (target : Row) :
    (holds index slot target).Looks index leaf (.ok (decide (target = entry.row))) := by
  have inside : slot < leaf.count := by
    rw [shows.count]
    exact (List.getElem?_eq_some_iff.mp here).1
  obtain ⟨n, later, decodes, run⟩ := shows.row here
  refine ⟨n, later, decodes, ?_⟩
  intro engine
  simp only [Leaf.holds, LeafCall.on_bind, LeafCall.on_get, if_pos inside, run,
    LeafCall.on_pure, Row.compareRows_eq_iff]

theorem holds_past {slot : Nat} (past : leaf.count ≤ slot) (target : Row) :
    (holds index slot target).Looks index leaf (.ok false) := by
  refine .of_still ?_
  intro engine
  simp only [Leaf.holds, LeafCall.on_bind, LeafCall.on_get, if_neg (Nat.not_lt.mpr past),
    LeafCall.on_pure]

/-! ## The outcomes -/

/-- How the removal of a row ends on a leaf with these entries. -/
inductive Removes (index : Index) (leaf : Leaf) (entries : List RowEntry) (target : Row) :
    Except Fault Removal → Leaf → Prop where
  /-- The leaf does not hold the row. -/
  | absent {n : Nat} {later : Leaf} (decodes : leaf.Decodes index n later)
      (absent : target ∉ entries.map RowEntry.row) :
      Removes index leaf entries target (.error (.rowNotFound leaf.id target)) later
  /-- It is the only row, and stays. -/
  | only {n offset : Nat} {later : Leaf} (decodes : leaf.Decodes index n later)
      (single : entries = [⟨offset, target⟩]) :
      Removes index leaf entries target (.ok (.emptied target)) later
  /-- It is taken out; on the reserved page the call fails even so. -/
  | taken {before after : List RowEntry} {entry : RowEntry}
      (split : before ++ entry :: after = entries) (same : entry.row = target)
      (several : 1 < entries.length) :
      Removes index leaf entries target
        ((checkPageId leaf.id).map fun _ => .between before after)
        (leaf.changed (removeBetween index.pageSize before entry after))

/-- Once a row is off the leaf, its page is noted, and the answer says which row is the last if that
row was. -/
theorem note_on (index : Index) (leaf : Leaf) (several : 1 < (before ++ entry :: after).length)
    (engine : Engine) :
    ∃ store, (do
        Engine.notePage (← get).id
        if before.length = (← get).count then
          return .lastChanged (← row index (before.length - 1))
        return .unchanged : LeafCall Removal).on
          (leaf.changed (removeBetween index.pageSize before entry after)) engine =
            (((checkPageId leaf.id).map fun _ => .between before after,
              leaf.changed (removeBetween index.pageSize before entry after)),
              engine.stored store) ∧
      engine.store.Grows 0 store := by
  obtain ⟨store, noted, grows⟩ := engine.notePage_on leaf.id
  refine ⟨store, ?_, grows⟩
  simp only [LeafCall.on_bind, LeafCall.on_get, id_changed, LeafCall.on_engine, noted]
  cases checkPageId leaf.id with
  | error fault => rfl
  | ok _ =>
    simp only [count_changed, length_removeBetween]
    rcases after with _ | ⟨next, after⟩
    · rcases List.eq_nil_or_concat before with rfl | ⟨before, last, rfl⟩
      · simp at several
      · rw [List.concat_eq_append] at *
        have here : (removeBetween index.pageSize (before ++ [last]) entry [])[(before ++
            [last]).length - 1]? = some last := by simp [removeBetween, shiftUp]
        have looks : (row index ((before ++ [last]).length - 1)).Looks index
            (leaf.changed (removeBetween index.pageSize (before ++ [last]) entry []))
            (.ok last.row) := (Shows.of_changed leaf _).row here
        rw [if_pos (by simp), LeafCall.on_bind, looks_changed looks]
        simp [Removal.between, Except.map]
    · rw [if_neg (by simp)]
      simp [Removal.between, Except.map]

/-- A removal from among sorted rows ends in one of these ways, and hands out no page. -/
theorem Sorted.remove_on (sorted : leaf.Sorted index entries) (target : Row) (engine : Engine) :
    ∃ outcome later after, (remove index target).on leaf engine = ((outcome, later), after) ∧
      engine.store.Grows 0 after.store ∧ leaf.Removes index entries target outcome later := by
  rcases search_removal target sorted.shows sorted.ascending with
    ⟨before, entry, after, rfl, same, n, middle, decodes, run⟩ |
    ⟨before, after, rfl, ⟨n, middle, decodes, run⟩, low, high⟩
  · have here : (before ++ entry :: after)[before.length]? = some entry := by simp
    obtain ⟨m, found, more, rerun⟩ := holds_looks (sorted.shows.decodes decodes) here target
    have all := decodes.trans more
    have shows := sorted.shows.decodes all
    have found_it : ¬ (!decide (target = entry.row)) = true := by simp [same]
    simp only [remove, LeafCall.on_bind, run, rerun, if_neg found_it, LeafCall.on_get, all.count,
      sorted.shows.count]
    by_cases single : (before ++ entry :: after).length = 1
    · obtain ⟨k, later, last, look⟩ := shows.row here
      rw [if_pos single]
      simp only [LeafCall.on_bind, look, LeafCall.on_get, LeafCall.on_report, LeafCall.on_pure]
      have alone : before ++ entry :: after = [⟨entry.offset, target⟩] := by
        rw [List.length_append, List.length_cons] at single
        have first : before = [] := List.eq_nil_of_length_eq_zero (by omega)
        have last : after = [] := List.eq_nil_of_length_eq_zero (by omega)
        rw [first, last, ← same]
        rfl
      rw [same]
      exact ⟨_, _, _, rfl, .refl _, .only (all.trans last) alone⟩
    · -- Not the only row, and there is one, so there are two at least.
      have several : 1 < (before ++ entry :: after).length := by
        rw [List.length_append, List.length_cons] at single ⊢
        omega
      obtain ⟨middle, removed, still⟩ := removeAt_on (sorted.decodes all) several
        ((engine.counted .rowsDecoded n).counted .rowsDecoded m)
      obtain ⟨store, noted, grows⟩ := note_on index leaf several middle
      rw [all.changed] at removed
      rw [still] at grows
      rw [if_neg single, LeafCall.on_bind, removed]
      exact ⟨_, _, _, noted, grows, .taken rfl same several⟩
  · have absent : target ∉ (before ++ after).map RowEntry.row := by
      rw [List.map_append, List.mem_append]
      rintro (member | member)
      · exact (low target member).ne rfl
      · exact (high target member).ne rfl
    obtain ⟨m, later, more, rerun⟩ :
        (Leaf.holds index before.length target).Looks index middle (.ok false) := by
      cases after with
      | nil =>
        refine holds_past (Nat.le_of_eq ?_) target
        rw [decodes.count, sorted.shows.count, List.append_nil]
      | cons entry after =>
        have here : (before ++ entry :: after)[before.length]? = some entry := by simp
        have other : target ≠ entry.row := (high entry.row List.mem_cons_self).ne
        simpa [other] using holds_looks (sorted.shows.decodes decodes) here target
    simp only [remove, LeafCall.on_bind, run, rerun]
    refine ⟨_, _, _, rfl, .refl _, ?_⟩
    have all := decodes.trans more
    rw [all.id]
    exact .absent all absent

/-- So does a removal from a leaf in order. -/
theorem remove_on (holds : leaf.Holds index entries) (target : Row) (engine : Engine) :
    ∃ outcome later after, (remove index target).on leaf engine = ((outcome, later), after) ∧
      engine.store.Grows 0 after.store ∧ leaf.Removes index entries target outcome later :=
  holds.sorted.remove_on target engine

/-! ## The leaf afterwards -/

/-- `later` is `leaf` without a row, and these are its entries. -/
structure Loses (index : Index) (leaf : Leaf) (entries : List RowEntry) (row : Row) (later : Leaf)
    (rest : List RowEntry) : Prop where
  holds : later.Holds index rest
  rows : rest.map RowEntry.row = (entries.map RowEntry.row).erase row
  id : later.id = leaf.id
  parent : later.parent = leaf.parent
  form : later.form = leaf.form
  packed : leaf.IsPacked index entries → later.IsPacked index rest

/-- A leaf in order that a row was taken out of is in order, without the row. -/
theorem Holds.loses (holds : leaf.Holds index (before ++ entry :: after)) :
    leaf.Loses index (before ++ entry :: after) entry.row
      (leaf.changed (RowEntry.removeBetween index.pageSize before entry after))
      (RowEntry.removeBetween index.pageSize before entry after) := by
  have ascending := holds.ascending
  rw [List.map_append, List.map_cons] at ascending
  refine ⟨holds.removeBetween, ?_, rfl, rfl, rfl, fun packed => Packed.removeBetween packed⟩
  rw [rows_removeBetween, List.map_append, List.map_cons, Row.erase_middle ascending]

end Leaf

end SlottedLeaf
