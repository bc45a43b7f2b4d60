import SlottedLeaf.Proofs.Steady

/-!
# A machine changes steady leaves

Rows are inserted, removed and split off once all of them are decoded. Offsets change one after the
other, but while the leaf has room all of them do: the ways out in the middle of a change are never
taken, and an invariant that fails does so after the change.
-/

namespace SlottedLeaf

open Machine RawCall RowEntry

variable {index : Index} {leaf : Leaf} {entries : List RowEntry}

/-! ## Steady leaves with every row decoded -/

namespace RowEntry

theorem stacked_zero_iff {top : Nat} :
    Stacked (fun _ => 0) top entries ↔ (top :: entries.map RowEntry.offset).Pairwise (· ≥ ·) := by
  induction entries generalizing top with
  | nil => simp [Stacked]
  | cons entry rest ih =>
    rw [List.map_cons, List.pairwise_cons, ← ih, List.forall_mem_cons]
    refine ⟨fun stacked => ⟨⟨stacked.1, ?_⟩, stacked.2⟩, fun falls => ⟨falls.1.1, falls.2⟩⟩
    intro offset member
    exact Nat.le_trans ((List.pairwise_cons.mp (ih.mp stacked.2)).1 offset member) stacked.1

theorem lowest_eq_getLast (top : Nat) (entries : List RowEntry) :
    lowest top entries = (entries.map RowEntry.offset).getLast?.getD top := by
  induction entries generalizing top with
  | nil => rfl
  | cons entry rest ih =>
    rw [lowest, ih, List.map_cons, List.getLast?_cons]
    rfl

/-- Rows that lie apart from each other fall, whatever they take. -/
theorem Stacked.zero {size : Row → Nat} {top : Nat} (stacked : Stacked size top entries) :
    Stacked (fun _ => 0) top entries := by
  induction entries generalizing top with
  | nil => trivial
  | cons entry rest ih => exact ⟨Nat.le_trans (Nat.le_add_right ..) stacked.1, ih stacked.2⟩

end RowEntry

namespace Leaf

namespace Steady

theorem stacked (steady : (leaf.holding entries).Steady index) :
    Stacked (fun _ => 0) index.pageSize entries := by
  rw [stacked_zero_iff, ← offsets_holding]
  exact steady.falls

theorem clear_lowest (steady : (leaf.holding entries).Steady index) (standard : index.Standard) :
    (leaf.holding entries).start ≤ lowest index.pageSize entries := by
  rw [lowest_eq_getLast]
  cases last : (entries.map RowEntry.offset).getLast? with
  | none => exact steady.start_le standard
  | some offset =>
    refine steady.clear offset ?_
    rw [offsets_holding]
    exact List.mem_of_getLast? last

theorem rows_storable (steady : (leaf.holding entries).Steady index) :
    ∀ row ∈ entries.map RowEntry.row, row.Storable := by
  intro row member
  obtain ⟨entry, listed, rfl⟩ := List.mem_map.mp member
  exact steady.storable entry.slot (List.mem_map_of_mem listed) entry.row rfl

/-- A leaf that changed is steady if its offsets fall and stay clear of the offset table. -/
theorem of_changed (image : leaf.image.size = index.pageSize)
    (stacked : Stacked (fun _ => 0) index.pageSize entries)
    (clear : headerLength + entryLength * entries.length ≤ lowest index.pageSize entries)
    (storable : ∀ row ∈ entries.map RowEntry.row, row.Storable) :
    (leaf.changed entries).Steady index := by
  have offsets : (leaf.changed entries).offsets = entries.map RowEntry.offset :=
    offsets_holding leaf entries
  refine ⟨image, ?_, ?_, ?_⟩
  · rw [offsets]
    exact stacked_zero_iff.mp stacked
  · rw [offsets, start_changed]
    intro offset member
    obtain ⟨entry, listed, rfl⟩ := List.mem_map.mp member
    exact Nat.le_trans clear (stacked.lowest_le_offset listed)
  · intro slot member row decoded
    obtain ⟨entry, listed, rfl⟩ := List.mem_map.mp member
    cases decoded
    exact storable entry.row (List.mem_map_of_mem listed)

end Steady

end Leaf

namespace Machine

theorem load_follows (hosted : index.Hosted) (steady : leaf.Steady index) :
    Follows index id (RawLeaf.loadRows index) (Leaf.loadRows index) leaf
      fun _ later => ∃ entries, later = leaf.holding entries ∧ entries.length = leaf.count := by
  intro engine
  obtain ⟨outcome, later, after, run, raw, steady, holds⟩ := loadRows_follows hosted steady engine
  refine ⟨outcome, later, after, run, raw, steady, ?_⟩
  rintro _ rfl
  obtain ⟨n, decodes⟩ := holds () rfl
  rw [Leaf.loadRows_on] at run
  simp only [Prod.mk.injEq] at run
  obtain ⟨⟨decoded, rfl⟩, _⟩ := run
  obtain ⟨entries, same⟩ := Leaf.entries_of_decodeSlots decoded
  have length := decodes.count
  simp only [Leaf.count, same, List.length_map] at length
  exact ⟨entries, by rw [same]; rfl, length⟩

/-! ## Checking the layout -/

theorem checkFrom_gives (hosted : index.Hosted) (steady : (leaf.holding entries).Steady index)
    {done rest : List RowEntry} (split : entries = done ++ rest) (upper : Nat)
    (previous : Option Row) :
    (RawLeaf.checkFrom index done.length (rest.map RowEntry.offset) upper previous).Gives
      (leaf.holding entries).raw
      (Leaf.checkSlots (index.format.size leaf.form) upper previous (rest.map RowEntry.slot)) := by
  induction rest generalizing done upper previous with
  | nil => exact .of_pure _
  | cons entry rest ih =>
    have here : (leaf.holding entries).raw.rows[done.length]? = some (some entry.row) := by
      show ((entries.map RowEntry.slot).map Slot.row)[done.length]? = _
      simp [split, RowEntry.slot]
    have member : entry ∈ entries := by simp [split]
    have storable := steady.rows_storable entry.row (List.mem_map_of_mem member)
    obtain ⟨measured, size⟩ := rowSize_eq hosted.toStandard storable leaf.form
    have low : entry.offset ≤ index.pageSize := steady.stacked.offset_le member
    have page := hosted.pageSize_le
    have limit : addressLimit = 2 ^ 64 := rfl
    rw [List.map_cons, RawLeaf.checkFrom]
    refine .of_get (.of_sure here (.of_sure measured (.of_sure (add_eq (by omega)) ?_)))
    simp only [List.map_cons, RowEntry.slot, Leaf.checkSlots]
    by_cases overlap : upper < entry.offset + index.format.size leaf.form entry.row
    · rw [if_pos overlap, if_pos overlap]
      exact .of_throw _
    rw [if_neg overlap, if_neg overlap]
    by_cases disorder : previous.any fun previous => previous.compareRows entry.row ≠ .lt
    · rw [if_pos disorder, if_pos disorder]
      exact .of_throw _
    rw [if_neg disorder, if_neg disorder]
    have more := ih (split.trans (List.append_cons ..)) entry.offset (some entry.row)
    rwa [List.length_append] at more

/-- The vectors are as long as each other, and the end of the offset table is in step with them, so
that only what the check says of the rows decides. -/
theorem checkInvariants_gives (hosted : index.Hosted)
    (steady : (leaf.holding entries).Steady index) :
    (RawLeaf.checkInvariants index).Gives (leaf.holding entries).raw
      ((leaf.holding entries).checkInvariants index) := by
  have slots := steady.count_le hosted.toStandard
  have limit : addressLimit = 2 ^ 64 := rfl
  simp only [headerLength, entryLength, maxPageSize] at slots
  have rows : (leaf.holding entries).raw.rows.length = (leaf.holding entries).count :=
    List.length_map ..
  have start : (leaf.holding entries).raw.start =
      headerLength + entryLength * (leaf.holding entries).count := rfl
  unfold RawLeaf.checkInvariants Leaf.checkInvariants
  by_cases asked : index.options.checkInvariants
  · rw [if_pos asked, if_pos asked]
    refine .of_get ?_
    rw [Leaf.length_raw, rows, if_neg (not_not_intro rfl)]
    refine .of_sure (mul_eq (by simp only [entryLength]; omega))
      (.of_sure (add_eq (by simp only [entryLength, headerLength]; omega)) ?_)
    rw [start, if_neg (not_not_intro rfl)]
    have listed : (leaf.holding entries).raw.offsets = entries.map RowEntry.offset :=
      Leaf.offsets_holding leaf entries
    rw [listed, Leaf.checkLayout]
    refine .bind (checkFrom_gives hosted steady (List.nil_append entries).symm _ _) fun lowest => ?_
    by_cases overlap : lowest < (leaf.holding entries).start
    · rw [if_pos overlap]
      exact (if_pos overlap).symm ▸ .of_throw _
    · rw [if_neg overlap]
      exact (if_neg overlap).symm ▸ .of_pure _
  · rw [if_neg asked, if_neg asked]
    exact .of_pure _

theorem checkChanged_gives (hosted : index.Hosted)
    (steady : (leaf.changed entries).Steady index) :
    (RawLeaf.checkInvariants index).Gives (leaf.changed entries).raw
      ((leaf.changed entries).checkInvariants index) := by
  have steady : (Leaf.holding { leaf with written := false } entries).Steady index := steady
  exact checkInvariants_gives hosted steady

/-! ## Inserting -/

theorem raw_holding (leaf : Leaf) (entries : List RowEntry) :
    (leaf.holding entries).raw =
      ⟨leaf.id, leaf.parent, leaf.form, entries.map RowEntry.offset,
        entries.map fun entry => some entry.row, headerLength + entryLength * entries.length,
        leaf.written, leaf.image⟩ := by
  simp only [Leaf.raw, Leaf.start_holding, Leaf.offsets_holding, Leaf.slots_holding, List.map_map]
  rfl

theorem raw_changed (leaf : Leaf) (entries : List RowEntry) :
    (leaf.changed entries).raw =
      ⟨leaf.id, leaf.parent, leaf.form, entries.map RowEntry.offset,
        entries.map fun entry => some entry.row, headerLength + entryLength * entries.length, false,
        leaf.image⟩ :=
  raw_holding { leaf with written := false } entries

theorem insertSlot_on {before after : List RowEntry} {length : Nat}
    (stacked : Stacked (fun _ => 0) index.pageSize (before ++ after))
    (fits : length ≤ lowest index.pageSize (before ++ after))
    (small : headerLength + entryLength * (before ++ after).length + entryLength < addressLimit)
    (row : Row) (engine : Engine) :
    (RawLeaf.insertSlot index before.length length row).on (leaf.holding (before ++ after)).raw
        engine =
      some ((.ok (),
        (leaf.changed (insertBetween index.pageSize length row before after)).raw), engine) := by
  obtain ⟨_, second⟩ := stacked_append.mp stacked
  have cutOffsets : (before.map RowEntry.offset).length = before.length := List.length_map ..
  have cutRows : (before.map fun entry => some entry.row).length = before.length :=
    List.length_map ..
  have inside : before.length ≤ ((before ++ after).map RowEntry.offset).length := by simp
  have place := ceiling_eq inside index.pageSize
  rw [ceiling_eq_lowest] at place
  have low : lowest index.pageSize (before ++ after) ≤ lowest index.pageSize before := by
    rw [lowest_append]
    exact second.lowest_le
  -- The row fits below the lowest offset, so that no offset is too low to be lowered by its length.
  have high : ∀ offset ∈ after.map RowEntry.offset, length ≤ offset := by
    intro offset member
    obtain ⟨entry, listed, rfl⟩ := List.mem_map.mp member
    exact Nat.le_trans fits (stacked.lowest_le_offset (List.mem_append_right before listed))
  rw [raw_holding, raw_changed, RawLeaf.insertSlot]
  rw [on_get_bind, on_sure_bind _ _ place, on_get_bind]
  simp only [List.map_append]
  rw [on_sure_bind _ _ (cut_append cutOffsets)]
  simp only [lowerAll_eq high]
  rw [on_modify_bind, on_bind, on_ofExcept]
  simp only
  rw [if_neg (Nat.not_lt.mpr (Nat.le_trans fits low)), on_get_bind,
    on_sure_bind _ _ (insertAt_append cutOffsets _), on_modify_bind, on_get_bind,
    on_sure_bind _ _ (insertAt_append cutRows _), on_modify_bind, on_get_bind,
    on_sure_bind _ _ (add_eq small), on_modify]
  have offsets : (insertBetween index.pageSize length row before after).map RowEntry.offset =
      before.map RowEntry.offset ++ (lowest index.pageSize before - length) ::
        (after.map RowEntry.offset).map (· - length) := by
    simp [insertBetween, shiftDown]
  have rows : (insertBetween index.pageSize length row before after).map
      (fun entry => some entry.row) = (before.map fun entry => some entry.row) ++ some row ::
        after.map fun entry => some entry.row := by
    simp [insertBetween, shiftDown]
  rw [offsets, rows, length_insertBetween, Nat.mul_succ, ← Nat.add_assoc]

/-- Placing a row that fits is followed: no offset is too low to be lowered. -/
theorem place_follows (hosted : index.Hosted) (steady : (leaf.holding entries).Steady index)
    {slot : Nat} (inside : slot ≤ entries.length) {row : Row} (storable : row.Storable)
    (fits : (leaf.holding entries).fits index (index.format.size leaf.form row)) :
    Follows index id (RawLeaf.place index slot (index.format.size leaf.form row) row)
      (Leaf.place index slot row) (leaf.holding entries) fun _ _ => True := by
  obtain ⟨before, after, rfl, rfl⟩ : ∃ before after, entries = before ++ after ∧
      slot = before.length :=
    ⟨_, _, (List.take_append_drop slot entries).symm, (List.length_take_of_le inside).symm⟩
  have page := hosted.pageSize_le
  have limit : addressLimit = 2 ^ 64 := rfl
  rw [(Leaf.Shows.of_holding leaf (before ++ after)).fits_iff, Leaf.start_holding] at fits
  simp only [headerLength, entryLength] at fits
  have top := steady.stacked.lowest_le
  have room : index.format.size leaf.form row ≤ lowest index.pageSize (before ++ after) := by omega
  have slots := Leaf.insertSlot_eq steady.stacked row room
  have changed : (leaf.changed (insertBetween index.pageSize (index.format.size leaf.form row) row
      before after)).Steady index := by
    refine .of_changed steady.image (steady.stacked.insertBetween_of_le (Nat.zero_le _) room) ?_ ?_
    · rw [lowest_insertBetween, length_insertBetween]
      simp only [headerLength, entryLength]
      omega
    · have known := steady.rows_storable
      rw [List.map_append, List.forall_mem_append] at known
      rw [rows_insertBetween, List.forall_mem_append, List.forall_mem_cons]
      exact ⟨known.1, storable, known.2⟩
  refine .callGet (.callOk slots (.becomes ?_ (LeafCall.on_set _ · _) (.callGet ?_)))
  · exact insertSlot_on steady.stacked room
      (by simp only [headerLength, entryLength]; omega) row
  refine .bind (.of_gives changed (checkChanged_gives hosted changed)) ?_
  rintro _ _ steady ⟨rfl, _⟩
  refine .rawGet (.engine steady _ fun _ => .engine steady _ fun _ => ?_)
  exact (Follows.of_engine steady _).imp fun _ _ _ => trivial

theorem fits_gives (hosted : index.Hosted) (steady : (leaf.holding entries).Steady index)
    {length : Nat} (small : length < 2 ^ 63 + 18) :
    (RawLeaf.fits index length).Gives (leaf.holding entries).raw
      (.ok ((leaf.holding entries).fits index length)) := by
  have table := steady.start_le hosted.toStandard
  have page := hosted.pageSize_le
  have limit : addressLimit = 2 ^ 64 := rfl
  have start : (leaf.holding entries).raw.start = (leaf.holding entries).start := rfl
  have last : (leaf.holding entries).raw.lastOffset index =
      (leaf.holding entries).lastOffset index := by
    rw [(Leaf.Shows.of_holding leaf entries).lastOffset, lowest_eq_getLast, raw_holding]
    rfl
  refine .of_get (.of_sure (add_eq ?_) (.of_sure (add_eq ?_) ?_))
  · simp only [entryLength]
    omega
  · simp only [entryLength]
    omega
  · rw [last, start]
    exact .of_pure _

theorem packFrom_on (done : List RowEntry) {rest : List RowEntry} {top : Nat}
    (fits : room (index.format.size .positionOnly) (rest.map RowEntry.row) ≤ top) (leaf : Leaf)
    (engine : Engine) :
    (RawLeaf.packFrom index done.length rest.length top).on (leaf.holding (done ++ rest)).raw
        engine =
      some ((.ok (), (leaf.holding (done ++
        pack (index.format.size .positionOnly) top (rest.map RowEntry.row))).raw), engine) := by
  -- The rows that are packed already lie in `done`; `top` is where the last of them starts.
  induction rest generalizing done top with
  | nil => rfl
  | cons entry rest ih =>
    have here : (leaf.holding (done ++ entry :: rest)).raw.rows[done.length]? =
        some (some entry.row) := by
      rw [raw_holding]
      simp
    have inside : done.length < (leaf.holding (done ++ entry :: rest)).raw.offsets.length := by
      rw [raw_holding]
      simp
    have measured : rowSize index.format .positionOnly entry.row =
        some (index.format.size .positionOnly entry.row) := rfl
    have lowered (offset : Nat) : ({ (leaf.holding (done ++ entry :: rest)).raw with
        offsets := (leaf.holding (done ++ entry :: rest)).raw.offsets.set done.length offset } :
          RawLeaf) = (leaf.holding (done ++ [⟨offset, entry.row⟩] ++ rest)).raw := by
      rw [raw_holding, raw_holding]
      simp
    simp only [room, List.map_cons, List.sum_cons] at fits
    have fewer : room (index.format.size .positionOnly) (rest.map RowEntry.row) ≤
        top - index.format.size .positionOnly entry.row := by
      rw [room]
      omega
    have more := ih (done ++ [⟨top - index.format.size .positionOnly entry.row, entry.row⟩]) fewer
    rw [List.length_cons, RawLeaf.packFrom, on_get_bind, on_sure_bind _ _ here]
    simp only
    rw [on_sure_bind _ _ measured, if_neg (by omega), on_get_bind,
      on_sure_bind _ _ (setAt_eq inside _), on_modify_bind, lowered]
    rw [List.length_append, List.append_assoc _ _ (pack _ _ _)] at more
    exact more

theorem packSlots_on (leaf : Leaf)
    (fits : room (index.format.size .positionOnly) (entries.map RowEntry.row) ≤ index.pageSize)
    (engine : Engine) :
    (RawLeaf.packSlots index).on (leaf.holding entries).raw engine =
      some ((.ok (), (leaf.changed
        (pack (index.format.size .positionOnly) index.pageSize (entries.map RowEntry.row))).raw),
          engine) := by
  have length : (leaf.holding entries).raw.offsets.length = entries.length := by
    rw [raw_holding]
    exact List.length_map ..
  have packs := packFrom_on [] fits leaf engine
  rw [List.length_nil, List.nil_append, List.nil_append] at packs
  rw [RawLeaf.packSlots, on_get_bind, length, on_bind, packs]
  rfl

/-- Compacting a leaf with one row at most is followed: a position always fits a page. -/
theorem compact_follows (hosted : index.Hosted) (steady : (leaf.holding entries).Steady index)
    (few : entries.length ≤ 1) :
    Follows index id (RawLeaf.compact index) (Leaf.compact index) (leaf.holding entries)
      fun _ later => ∃ packed, later = ({ leaf with form := .positionOnly } : Leaf).changed packed ∧
        packed.length = entries.length := by
  have page := hosted.le_pageSize
  have fits : room (index.format.size .positionOnly) (entries.map RowEntry.row) ≤ 8 := by
    rcases entries with _ | ⟨entry, _ | ⟨other, rest⟩⟩
    · exact Nat.zero_le 8
    · simp [room, hosted.size_positionOnly]
    · simp at few
  have room : room (index.format.size .positionOnly) (entries.map RowEntry.row) ≤ index.pageSize :=
    Nat.le_trans fits (by omega)
  have packs := Leaf.packSlots_eq room
  have packed := packed_pack room
  have changed : (({ leaf with form := .positionOnly } : Leaf).changed
      (pack (index.format.size .positionOnly) index.pageSize (entries.map RowEntry.row))).Steady
        index := by
    refine .of_changed steady.image packed.stacked.zero ?_ ?_
    · have used := packed.room_eq
      rw [rows_pack] at used
      rw [length_pack, List.length_map]
      simp only [headerLength, entryLength]
      omega
    · rw [rows_pack]
      exact steady.rows_storable
  refine .get (.becomes (on_modify _ · _) (LeafCall.on_modify _ · _) ?_)
  refine .callOk packs (.becomes ?_ (LeafCall.on_modify _ · _) ?_)
  · exact packSlots_on { leaf with form := .positionOnly } room
  have result : ∃ packed, ({ leaf with form := .positionOnly } : Leaf).changed
      (pack (index.format.size .positionOnly) index.pageSize (entries.map RowEntry.row)) =
        ({ leaf with form := .positionOnly } : Leaf).changed packed ∧
          packed.length = entries.length :=
    ⟨_, rfl, by rw [length_pack, List.length_map]⟩
  rw [Leaf.length_raw]
  refine .ite Iff.rfl (fun _ => .engine changed _ fun _ => ?_) fun _ => .of_pure changed result
  exact (Follows.of_engine changed _).imp fun _ _ same => same ▸ result

/-- Inserting a row is followed. -/
theorem insert_follows (hosted : index.Hosted) (steady : leaf.Steady index) {row : Row}
    (storable : row.Storable) :
    Follows index id (RawLeaf.insert index row) (Leaf.insert index row) leaf fun _ _ => True := by
  refine .bind (load_follows hosted steady) ?_
  rintro _ _ steady ⟨entries, rfl, length⟩
  refine .bind (search_follows hosted steady .insertion row) ?_
  rintro slot _ steady ⟨inside, n, decodes⟩
  obtain ⟨rfl, rfl⟩ := decodes.of_holding
  rw [Leaf.count_holding] at inside
  obtain ⟨measured, small⟩ := rowSize_eq hosted.toStandard storable leaf.form
  refine .get (.sure measured (.still (fits_gives hosted steady small) ?_))
  refine .ite Iff.rfl (fun fits => ?_) fun _ => .rawGet ?_
  · refine .bind (place_follows hosted steady inside storable fits) ?_
    rintro _ _ steady -
    exact .of_pure steady trivial
  rw [Leaf.length_raw]
  refine .ite Iff.rfl (fun _ => ?_) fun few => ?_
  · exact .engine steady _ fun _ => .engine steady _ fun _ => .of_pure steady trivial
  · rw [Leaf.count_holding] at few
    refine .bind (compact_follows hosted steady (Nat.le_of_not_lt few)) ?_
    rintro _ _ steady ⟨packed, rfl, same⟩
    obtain ⟨measured, small⟩ := rowSize_eq hosted.toStandard storable .positionOnly
    have steady : (Leaf.holding { leaf with form := .positionOnly, written := false }
      packed).Steady index := steady
    refine .get (.sure measured (.still (fits_gives hosted steady small) ?_))
    refine .ite Iff.rfl (fun _ => .of_throw steady _) fun fits => ?_
    rw [Bool.not_eq_true, Bool.not_eq_false'] at fits
    refine .bind (place_follows hosted steady (same ▸ inside) storable fits) ?_
    rintro _ _ steady -
    exact .of_pure steady trivial

/-! ## Removing -/

theorem extent_gives (index : Index) (leaf : Leaf) (entries : List RowEntry) (slot : Nat) :
    (RawLeaf.extent index slot).Gives (leaf.holding entries).raw
      (OffsetTable.extent (leaf.holding entries).offsets index.pageSize slot) := by
  refine .of_get ?_
  rw [show (leaf.holding entries).raw.offsets = (leaf.holding entries).offsets from rfl]
  unfold OffsetTable.extent
  cases here : (leaf.holding entries).offsets[slot]? with
  | none => exact .of_throw _
  | some start =>
    have inside := (List.getElem?_eq_some_iff.mp here).1
    exact .of_sure (ceiling_eq (Nat.le_of_lt inside) _) (.of_ofExcept _)

theorem removeSlot_on {before after : List RowEntry} {entry : RowEntry} {top : Nat}
    (stacked : Stacked (fun _ => 0) top (before ++ entry :: after)) (small : top ≤ maxPageSize)
    (few : headerLength + entryLength * (before ++ entry :: after).length ≤ maxPageSize)
    (leaf : Leaf) (engine : Engine) :
    (RawLeaf.removeSlot before.length (lowest top before - entry.offset)).on
        (leaf.holding (before ++ entry :: after)).raw engine =
      some ((.ok (), (leaf.changed (removeBetween top before entry after)).raw), engine) := by
  have high := (stacked_append.mp stacked).1.lowest_le
  have limit : addressLimit = 2 ^ 64 := rfl
  simp only [maxPageSize] at small
  simp only [maxPageSize, headerLength, entryLength, List.length_append, List.length_cons] at few
  have cutOffsets : (before.map RowEntry.offset).length = before.length := List.length_map ..
  have cutRows : (before.map fun entry => some entry.row).length = before.length :=
    List.length_map ..
  have cutAfter : (before.map RowEntry.offset ++ [entry.offset]).length = before.length + 1 := by
    simp
  -- What an offset is raised by is the length of a range on the page, and so no sum leaves a word.
  have low : ∀ offset ∈ after.map RowEntry.offset, offset ≤ top := by
    intro offset member
    obtain ⟨other, listed, rfl⟩ := List.mem_map.mp member
    exact stacked.offset_le (List.mem_append_right before (List.mem_cons_of_mem entry listed))
  rw [raw_holding, raw_changed, RawLeaf.removeSlot]
  rw [on_get_bind, on_sure_bind _ _ (add_eq (by omega))]
  simp only [List.map_append, List.map_cons]
  rw [List.append_cons (before.map RowEntry.offset), on_sure_bind _ _ (cut_append cutAfter)]
  simp only
  rw [on_sure_bind _ _ (raiseAll_eq (by omega) low), ← List.append_cons,
    on_sure_bind _ _ (removeAt_append cutOffsets _), on_modify_bind, on_get_bind,
    on_sure_bind _ _ (removeAt_append cutRows _), on_modify_bind]
  have here : ((before.map fun entry => some entry.row) ++ some entry.row ::
      after.map fun entry => some entry.row)[before.length]? = some (some entry.row) := by
    simp
  rw [on_sure_bind _ _ here]
  simp only [Option.isNone_some]
  have table : entryLength ≤ headerLength + entryLength * (before ++ entry :: after).length := by
    simp only [headerLength, entryLength]
    omega
  have offsets : (removeBetween top before entry after).map RowEntry.offset =
      before.map RowEntry.offset ++
        (after.map RowEntry.offset).map (· + (lowest top before - entry.offset)) := by
    simp [removeBetween, shiftUp]
  have rows : (removeBetween top before entry after).map (fun entry => some entry.row) =
      (before.map fun entry => some entry.row) ++ after.map fun entry => some entry.row := by
    simp [removeBetween, shiftUp]
  have start : headerLength + entryLength * (before ++ entry :: after).length - entryLength =
      headerLength + entryLength * (removeBetween top before entry after).length := by
    rw [length_removeBetween, List.length_append, List.length_cons]
    simp only [headerLength, entryLength]
    omega
  rw [if_neg Bool.false_ne_true, on_get_bind, on_sure_bind _ _ (sub_eq table), on_modify, offsets,
    rows, start]

theorem removeAt_follows (hosted : index.Hosted) (steady : leaf.Steady index) (slot : Nat) :
    Follows index id (RawLeaf.removeAt index slot) (Leaf.removeAt index slot) leaf
      fun _ later => 0 < later.count ∧ later.count + 1 = leaf.count := by
  refine .bind (load_follows hosted steady) ?_
  rintro _ _ steady ⟨entries, rfl, length⟩
  refine .get ?_
  rw [Leaf.length_raw]
  refine .ite Iff.rfl (fun _ => .of_throw steady _) fun inside => ?_
  refine .ite Iff.rfl (fun _ => .of_throw steady _) fun several => ?_
  rw [Leaf.count_holding] at inside several
  obtain ⟨before, entry, after, rfl, rfl⟩ : ∃ before entry after,
      entries = before ++ entry :: after ∧ slot = before.length :=
    ⟨_, _, _, (List.take_append_drop slot entries).symm.trans
      (congrArg _ (List.drop_eq_getElem_cons (Nat.lt_of_not_le inside))),
      (List.length_take_of_le (Nat.le_of_not_le inside)).symm⟩
  have few := steady.count_le hosted.toStandard
  rw [Leaf.count_holding] at few
  have below := (stacked_append.mp steady.stacked).2.1
  have extent := Leaf.extent_eq steady.stacked
  rw [← Leaf.offsets_holding leaf] at extent
  have gives := extent_gives index leaf (before ++ entry :: after) before.length
  rw [extent] at gives
  have changed : (leaf.changed (removeBetween index.pageSize before entry after)).Steady index := by
    refine .of_changed steady.image steady.stacked.removeBetween ?_ ?_
    · have clear := steady.clear_lowest hosted.toStandard
      rw [Leaf.start_holding, List.length_append, List.length_cons] at clear
      rw [lowest_removeBetween steady.stacked, length_removeBetween]
      simp only [headerLength, entryLength] at clear ⊢
      omega
    · have known := steady.rows_storable
      rw [List.map_append, List.map_cons, List.forall_mem_append, List.forall_mem_cons] at known
      rw [rows_removeBetween, List.forall_mem_append]
      exact ⟨known.1, known.2.2⟩
  refine .callOk extent (.still gives (.sure (sub_eq below) ?_))
  simp only [Leaf.slots_holding, Leaf.removeSlot_eq]
  refine .becomes (removeSlot_on steady.stacked hosted.pageSize_le few leaf)
    (LeafCall.on_set _ · _) (.callGet ?_)
  refine .bind (.of_gives changed (checkChanged_gives hosted changed)) ?_
  rintro _ _ steady ⟨rfl, _⟩
  refine .engine steady _ fun _ => (Follows.of_engine steady _).imp ?_
  rintro _ _ rfl
  rw [Leaf.count_changed, length_removeBetween]
  rw [List.length_append, List.length_cons] at several length
  omega

theorem remove_follows (hosted : index.Hosted) (steady : leaf.Steady index) (target : Row) :
    Follows index id (RawLeaf.remove index target) (Leaf.remove index target) leaf
      fun _ _ => True := by
  refine .bind (search_follows hosted steady .removal target) ?_
  rintro slot searched steady -
  refine .bind (holds_follows hosted steady slot target) ?_
  rintro held looked steady -
  refine .ite Iff.rfl (fun _ => .get (.of_throw steady _)) fun _ => .get ?_
  rw [Leaf.length_raw]
  refine .ite Iff.rfl (fun _ => ?_) fun _ => ?_
  · refine .bind (row_follows hosted steady slot) ?_
    rintro only last steady -
    exact .get (.engine steady _ fun _ => .of_pure steady trivial)
  · refine .bind (removeAt_follows hosted steady slot) ?_
    rintro _ removed steady ⟨some, -⟩
    refine .get (.engine steady _ fun _ => .get ?_)
    rw [Leaf.length_raw]
    refine .ite Iff.rfl (fun final => ?_) fun _ => .of_pure steady trivial
    refine .sure (sub_eq (show 1 ≤ slot by omega)) (.bind (row_follows hosted steady _) ?_)
    rintro row last steady -
    exact .of_pure steady trivial

/-! ## Splitting -/

theorem moveTail_follows (hosted : index.Hosted) (steady : leaf.Steady index) {target : Leaf}
    (ready : target.Steady index) {slot n : Nat} (left : leaf.count = slot + n) :
    Follows index Leaf.raw (RawLeaf.moveTail index slot (n + 1) target.raw)
      (Leaf.moveRows index slot n target) leaf fun right _ => right.Steady index := by
  -- The last of the `n + 1` rounds finds no row left to move.
  induction n generalizing leaf target with
  | zero =>
    rw [RawLeaf.moveTail, Leaf.moveRows]
    refine .rawGet ?_
    rw [Leaf.length_raw, if_neg (by omega)]
    exact .of_pure steady ready
  | succ n ih =>
    rw [RawLeaf.moveTail, Leaf.moveRows]
    refine .rawGet ?_
    rw [Leaf.length_raw, if_pos (by omega)]
    refine .bind (row_follows hosted steady slot) ?_
    rintro moving looked steady ⟨storable, m, decodes⟩
    refine .bind (.onOther steady (insert_follows hosted ready storable)) ?_
    rintro ⟨answer, filled⟩ _ steady ⟨rfl, ready, -⟩
    cases answer with
    | splitAt point => exact .of_throw steady _
    | inserted =>
      refine .bind (removeAt_follows hosted steady slot) ?_
      rintro _ shrunk steady ⟨-, fewer⟩
      rw [decodes.count] at fewer
      exact ih steady ready (by omega)

theorem create_steady (id : PageId) (parent : Option PageId)
    (form : RowForm) : (Leaf.create index id parent form).Steady index := by
  refine ⟨Array.size_replicate, ?_, ?_, ?_⟩
  · exact List.pairwise_singleton ..
  · exact nofun
  · exact nofun

theorem split_follows (hosted : index.Hosted) (steady : leaf.Steady index) (point : Nat) :
    Follows index Leaf.raw (RawLeaf.split index point) (Leaf.split index point) leaf
      fun right _ => right.Steady index := by
  refine .get ?_
  rw [Leaf.length_raw]
  refine .ite Iff.rfl (fun _ => .of_throw steady _) fun inside => ?_
  refine .engine steady _ fun id => ?_
  refine .sure (sub_eq (by omega)) (.bind (load_follows hosted steady) ?_)
  rintro _ _ steady ⟨entries, rfl, length⟩
  refine .bind (moveTail_follows hosted steady (create_steady ..) ?_) ?_
  · rw [Leaf.count_holding]
    omega
  rintro right _ steady ready
  exact .engine steady _ fun _ => .engine steady _ fun _ => .of_pure steady ready

end Machine

end SlottedLeaf
