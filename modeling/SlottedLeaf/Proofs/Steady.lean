import SlottedLeaf.Proofs.Contents
import SlottedLeaf.Proofs.Following

/-!
# A machine looks at steady leaves

Rows are decoded, looked at and searched for on a steady leaf. A machine follows each of these
calls, whatever the rows are: it keeps what it decoded where the call does, and every round of a
search leaves it fewer slots.
-/

namespace SlottedLeaf

open Machine RawCall

variable {α β : Type} {index : Index} {leaf later : Leaf}

/-! ## What is read is storable -/

theorem RowFormat.length_of_readKey {page : Buffer} {cursor : Nat} {key : Bytes}
    (read : RowFormat.readKey page cursor = .ok (some key)) : key.length ≤ page.size := by
  have short (start length : Nat) : (page.slice start length).length ≤ page.size := by
    rw [Buffer.slice_eq, Bytes.slice, List.length_take, List.length_drop, Array.length_toList]
    omega
  simp only [RowFormat.readKey] at read
  split at read
  · cases read
  · cases read
  · cases read
  · split at read
    · cases read
    · split at read
      · cases read
      · cases read
        exact short _ _

theorem Index.Hosted.storable (hosted : index.Hosted) {form : RowForm} {page : Buffer}
    (small : page.size ≤ maxPageSize) {offset : Nat} {row : Row}
    (read : index.format.read form page offset = .ok row) : row.Storable := by
  unfold RowFormat.read at read
  obtain ⟨_, read⟩ := except_guard_ok read
  obtain ⟨_, read⟩ := except_guard_ok read
  cases form with
  | positionOnly => exact hosted.answers _ row read
  | full =>
    obtain ⟨key, found, read⟩ := except_bind_ok read
    cases read
    cases key with
    | none => exact Nat.two_pow_pos 63
    | some key =>
      have long : key.length ≤ page.size := RowFormat.length_of_readKey found
      exact Nat.lt_of_le_of_lt (Nat.le_trans long small) (by decide)

namespace Leaf

/-! ## Steady leaves -/

namespace Steady

theorem offset_le (steady : leaf.Steady index) {offset : Nat} (member : offset ∈ leaf.offsets) :
    offset ≤ index.pageSize :=
  (List.pairwise_cons.mp steady.falls).1 offset member

theorem start_le (steady : leaf.Steady index) (standard : index.Standard) :
    leaf.start ≤ index.pageSize := by
  cases listed : leaf.offsets with
  | nil =>
    have none : leaf.count = 0 := by
      rw [count, ← List.length_map (f := Slot.offset)]
      exact congrArg List.length listed
    have page := standard.le_pageSize
    simp only [start, none, headerLength]
    omega
  | cons offset rest =>
    have member : offset ∈ leaf.offsets := listed ▸ List.mem_cons_self
    exact Nat.le_trans (steady.clear offset member) (steady.offset_le member)

/-- There are no more slots than entries that fit a page. -/
theorem count_le (steady : leaf.Steady index) (standard : index.Standard) :
    headerLength + entryLength * leaf.count ≤ maxPageSize :=
  Nat.le_trans (steady.start_le standard) standard.pageSize_le

theorem small (steady : leaf.Steady index) (standard : index.Standard) :
    leaf.image.size ≤ maxPageSize :=
  steady.image ▸ standard.pageSize_le

end Steady

/-- Decoding rows keeps them storable. -/
private theorem storable_of_decodes {decode : Nat → Except Fault Row} {slots more : List Slot}
    {n : Nat} (decodes : Slot.Decodes decode slots n more)
    (reads : ∀ offset row, decode offset = .ok row → row.Storable)
    (storable : ∀ slot ∈ slots, ∀ row, slot.row = some row → row.Storable) :
    ∀ slot ∈ more, ∀ row, slot.row = some row → row.Storable := by
  induction decodes with
  | nil => exact storable
  | keep slot _ ih =>
    rw [List.forall_mem_cons] at storable ⊢
    exact ⟨storable.1, ih storable.2⟩
  | @decode offset row _ _ _ decoded _ ih =>
    rw [List.forall_mem_cons] at storable ⊢
    refine ⟨?_, ih storable.2⟩
    rintro _ ⟨⟩
    exact reads offset row decoded

theorem storable_of_decodeAt (hosted : index.Hosted) (small : leaf.image.size ≤ maxPageSize)
    {offset : Nat} {row : Row} (decoded : leaf.decodeAt index offset = .ok row) : row.Storable := by
  unfold decodeAt at decoded
  split at decoded
  · cases decoded
  · exact hosted.storable small decoded

/-- A steady leaf stays so when rows are decoded. -/
theorem Decodes.steady {n : Nat} (decodes : leaf.Decodes index n later) (hosted : index.Hosted)
    (steady : leaf.Steady index) : later.Steady index := by
  have same : later.offsets = leaf.offsets := decodes.slots.offsets
  have start : later.start = leaf.start := congrArg (headerLength + entryLength * ·) decodes.count
  refine ⟨?_, ?_, ?_, ?_⟩
  · rw [decodes.rest]
    exact steady.image
  · rw [same]
    exact steady.falls
  · rw [same, start]
    exact steady.clear
  · refine storable_of_decodes decodes.slots ?_ steady.storable
    intro offset row
    exact storable_of_decodeAt hosted (steady.small hosted.toStandard)

/-! ## Looking at rows -/

theorem length_raw (leaf : Leaf) : leaf.raw.offsets.length = leaf.count := List.length_map ..

/-- To keep a decoded row is to put it into the vector of rows. -/
theorem raw_set {slot offset : Nat} (here : leaf.slots[slot]? = some ⟨offset, none⟩) (row : Row) :
    ({ leaf with slots := leaf.slots.set slot ⟨offset, some row⟩ } : Leaf).raw =
      { leaf.raw with rows := leaf.raw.rows.set slot (some row) } := by
  have decodes : Slot.Decodes (fun _ => .ok row) leaf.slots 1
      (leaf.slots.set slot ⟨offset, some row⟩) := .set here rfl
  have rows : (leaf.slots.set slot ⟨offset, some row⟩).map Slot.row =
      (leaf.slots.map Slot.row).set slot (some row) := List.map_set ..
  simp only [raw, Leaf.offsets, start, count, List.length_set, decodes.offsets, rows]

theorem decodeRow_on (small : leaf.image.size ≤ maxPageSize) {slot offset : Nat}
    {known : Option Row} (here : leaf.slots[slot]? = some ⟨offset, known⟩) (engine : Engine) :
    (RawLeaf.decodeRow index slot).on leaf.raw engine =
      match leaf.decodeAt index offset with
      | .error fault => some ((.error fault, leaf.raw), engine)
      | .ok row => some ((.ok row, leaf.raw), engine.counted .rowsDecoded 1) := by
  have entry : leaf.raw.offsets[slot]? = some offset := by
    show (leaf.slots.map Slot.offset)[slot]? = some offset
    rw [List.getElem?_map, here]
    rfl
  unfold RawLeaf.decodeRow decodeAt
  rw [on_get_bind, on_sure_bind _ _ entry]
  by_cases outside : offset < leaf.start ∨ leaf.image.size ≤ offset
  · have outside' : offset < leaf.raw.start ∨ leaf.raw.image.size ≤ offset := outside
    rw [if_pos outside, if_pos outside', on_bind, on_throw]
  · have inside : ¬ (offset < leaf.raw.start ∨ leaf.raw.image.size ≤ offset) := outside
    have reads : (RawLeaf.readRow index.format leaf.raw.form leaf.raw.image offset).Gives leaf.raw
        (index.format.read leaf.form leaf.image offset) :=
      RawLeaf.readRow_gives index.format leaf.form small offset
    rw [if_neg outside, if_neg inside, on_bind, reads]
    cases index.format.read leaf.form leaf.image offset with
    | error fault => rfl
    | ok row => rfl

theorem fetch_on (small : leaf.image.size ≤ maxPageSize) {slot offset : Nat}
    (here : leaf.slots[slot]? = some ⟨offset, none⟩) (engine : Engine) :
    (RawLeaf.fetch index slot).on leaf.raw engine =
      match leaf.decodeAt index offset with
      | .error fault => some ((.error fault, leaf.raw), engine)
      | .ok row => some ((.ok row, ({ leaf with slots := leaf.slots.set slot ⟨offset, some row⟩ } :
          Leaf).raw), engine.counted .rowsDecoded 1) := by
  have inside : slot < leaf.raw.rows.length := by
    simpa [raw] using (List.getElem?_eq_some_iff.mp here).1
  unfold RawLeaf.fetch
  rw [on_bind, decodeRow_on small here]
  cases leaf.decodeAt index offset with
  | error fault => rfl
  | ok row =>
    simp only
    rw [on_get_bind, on_sure_bind _ _ (setAt_eq inside _), on_modify_bind, on_pure, raw_set here]

end Leaf

/-- A machine follows a call that only looks if it gives what the call does. -/
theorem Follows.of_peeks {view : α → β} {raw : RawCall β} {call : LeafCall α}
    (hosted : index.Hosted) (steady : leaf.Steady index) (peeks : call.Peeks index)
    (mirrors : ∀ {engine outcome later after}, call.on leaf engine = ((outcome, later), after) →
      raw.on leaf.raw engine = some ((outcome.map view, later.raw), after)) :
    Follows index view raw call leaf fun _ later => ∃ n, leaf.Decodes index n later := by
  intro engine
  obtain ⟨outcome, n, later, decodes, run⟩ := peeks.on leaf engine
  exact ⟨outcome, later, _, run, mirrors run, decodes.steady hosted steady, fun _ _ => ⟨n, decodes⟩⟩

namespace Machine

private theorem row_mirrors (hosted : index.Hosted) (steady : leaf.Steady index) (slot : Nat) :
    Follows index id (RawLeaf.row index slot) (Leaf.row index slot) leaf
      fun _ later => ∃ n, leaf.Decodes index n later := by
  refine .of_peeks hosted steady (Leaf.row_peeks index slot) ?_
  intro engine outcome later after run
  have length : leaf.raw.rows.length = leaf.slots.length := List.length_map ..
  have known : leaf.raw.rows[slot]? = leaf.slots[slot]?.map Slot.row := List.getElem?_map ..
  unfold RawLeaf.row
  rw [on_get_bind, length]
  rw [Leaf.row_on] at run
  rcases here : leaf.slots[slot]? with _ | ⟨offset, _ | row⟩
  · rw [here] at run
    cases run
    rw [if_pos (List.getElem?_eq_none_iff.mp here)]
    rfl
  · rw [here] at known
    rw [if_neg (Nat.not_le.mpr (List.getElem?_eq_some_iff.mp here).1), on_sure_bind _ _ known]
    simp only [Leaf.fetch_on (steady.small hosted.toStandard) here]
    cases decoded : leaf.decodeAt index offset with
    | error fault =>
      simp only [here, decoded] at run
      cases run
      rfl
    | ok row =>
      simp only [here, decoded] at run
      cases run
      rfl
  · rw [here] at run known
    cases run
    rw [if_neg (Nat.not_le.mpr (List.getElem?_eq_some_iff.mp here).1), on_sure_bind _ _ known]
    rfl

private theorem storable_of_row (hosted : index.Hosted) (steady : leaf.Steady index) {slot : Nat}
    {row : Row} {engine after : Engine}
    (run : (Leaf.row index slot).on leaf engine = ((.ok row, later), after)) : row.Storable := by
  rw [Leaf.row_on] at run
  rcases here : leaf.slots[slot]? with _ | ⟨offset, _ | known⟩
  · rw [here] at run
    cases run
  · cases decoded : leaf.decodeAt index offset with
    | error fault =>
      simp only [here, decoded] at run
      cases run
    | ok found =>
      simp only [here, decoded] at run
      cases run
      exact Leaf.storable_of_decodeAt hosted (steady.small hosted.toStandard) decoded
  · rw [here] at run
    cases run
    exact steady.storable _ (List.mem_of_getElem? here) row rfl

theorem row_follows (hosted : index.Hosted) (steady : leaf.Steady index) (slot : Nat) :
    Follows index id (RawLeaf.row index slot) (Leaf.row index slot) leaf
      fun row later => row.Storable ∧ ∃ n, leaf.Decodes index n later := by
  intro engine
  obtain ⟨outcome, later, after, run, rawRun, calm, holds⟩ := row_mirrors hosted steady slot engine
  refine ⟨outcome, later, after, run, rawRun, calm, ?_⟩
  rintro row rfl
  exact ⟨storable_of_row hosted steady run, holds row rfl⟩

/-- Decoding slot by slot is decoding the slots. -/
theorem loadFrom_on (index : Index) (small : leaf.image.size ≤ maxPageSize) {done rest : List Slot}
    (split : leaf.slots = done ++ rest) (engine : Engine) :
    (RawLeaf.loadFrom index done.length rest.length).on leaf.raw engine =
      some (((Leaf.decodeSlots (leaf.decodeAt index) rest).2.2,
        ({ leaf with slots := done ++ (Leaf.decodeSlots (leaf.decodeAt index) rest).1 } :
          Leaf).raw),
        engine.counted .rowsDecoded (Leaf.decodeSlots (leaf.decodeAt index) rest).2.1) := by
  induction rest generalizing leaf done engine with
  | nil =>
    simp only [List.length_nil, RawLeaf.loadFrom, on_pure, Leaf.decodeSlots, Engine.counted_zero,
      ← split]
  | cons slot rest ih =>
    have here : leaf.slots[done.length]? = some slot := by simp [split]
    have known : leaf.raw.rows[done.length]? = some slot.row := by
      show (leaf.slots.map Slot.row)[done.length]? = some slot.row
      rw [List.getElem?_map, here]
      rfl
    have length (slot : Slot) : (done ++ [slot]).length = done.length + 1 := List.length_append
    rw [List.length_cons, RawLeaf.loadFrom, on_get_bind, on_sure_bind _ _ known]
    obtain ⟨offset, _ | row⟩ := slot
    · simp only [on_bind, Leaf.fetch_on small here, Leaf.decodeSlots]
      cases decoded : leaf.decodeAt index offset with
      | error fault =>
        simp only [Engine.counted_zero, ← split]
      | ok row =>
        have new : leaf.slots.set done.length ⟨offset, some row⟩ =
            done ++ [⟨offset, some row⟩] ++ rest := by simp [split]
        -- What is decoded next is read from the same image.
        have still : ({ leaf with slots := leaf.slots.set done.length ⟨offset, some row⟩ } :
            Leaf).decodeAt index = leaf.decodeAt index :=
          Leaf.Decodes.decodeAt ⟨rfl, .set here decoded⟩
        have small : ({ leaf with slots := leaf.slots.set done.length ⟨offset, some row⟩ } :
            Leaf).image.size ≤ maxPageSize := small
        have more := ih small new (engine.counted .rowsDecoded 1)
        rw [length, still, List.append_assoc, Engine.counted_counted, Nat.add_comm 1] at more
        exact more
    · have more := ih small (split.trans (List.append_cons ..)) engine
      rw [length, List.append_assoc] at more
      exact more

theorem loadRows_follows (hosted : index.Hosted) (steady : leaf.Steady index) :
    Follows index id (RawLeaf.loadRows index) (Leaf.loadRows index) leaf
      fun _ later => ∃ n, leaf.Decodes index n later := by
  refine .of_peeks hosted steady (Leaf.loadRows_peeks index) ?_
  intro engine outcome later after run
  have length : leaf.raw.rows.length = leaf.slots.length := List.length_map ..
  have loaded := loadFrom_on index (steady.small hosted.toStandard)
    (List.nil_append leaf.slots).symm engine
  rw [Leaf.loadRows_on] at run
  cases run
  rw [RawLeaf.loadRows, on_get_bind, length]
  refine loaded.trans ?_
  cases (Leaf.decodeSlots (leaf.decodeAt index) leaf.slots).2.2 <;> rfl

/-- A round of a search leaves less to be searched, and every sum is below the number of slots
doubled. -/
theorem searchBetween_follows (hosted : index.Hosted) (steady : leaf.Steady index) (aim : Leaf.Aim)
    (target : Row) {rounds low high : Nat} (enough : high - low < rounds) (ordered : low ≤ high)
    (within : high ≤ leaf.count) :
    Follows index id (RawLeaf.searchBetween index aim target rounds low high)
      (Leaf.searchBetween index aim target low high) leaf
      fun slot later => slot ≤ leaf.count ∧ ∃ n, leaf.Decodes index n later := by
  have limit : addressLimit = 2 ^ 64 := rfl
  induction rounds generalizing low high leaf with
  | zero => omega
  | succ rounds ih =>
    have slots := steady.count_le hosted.toStandard
    simp only [headerLength, entryLength, maxPageSize] at slots
    rw [RawLeaf.searchBetween, Leaf.searchBetween]
    refine .ite Iff.rfl (fun inside => ?_) (fun _ => ?_)
    · refine .sure (add_eq (by omega)) (.bind (row_follows hosted steady _) ?_)
      rintro row middle steady ⟨-, n, decodes⟩
      -- Looking at a row keeps the number of slots, so what is left to be searched stays in range.
      have goesOn (slot : Nat) (later : Leaf) :
          (slot ≤ middle.count ∧ ∃ m, middle.Decodes index m later) →
            slot ≤ leaf.count ∧ ∃ n, leaf.Decodes index n later := by
        rintro ⟨le, m, more⟩
        rw [decodes.count] at le
        exact ⟨le, n + m, decodes.trans more⟩
      rw [← decodes.count] at within slots
      simp only [id]
      cases aim.turn index target row with
      | after =>
        refine .sure (add_eq (by omega)) ?_
        exact (ih steady (by omega) (by omega) (by omega)).imp goesOn
      | before => exact (ih steady (by omega) (by omega) (by omega)).imp goesOn
      | found => exact .of_pure steady (goesOn _ middle ⟨by omega, 0, .refl middle⟩)
      | clash => exact .get (.of_throw steady _)
    · exact .of_pure steady ⟨by omega, 0, .refl leaf⟩

theorem search_follows (hosted : index.Hosted) (steady : leaf.Steady index) (aim : Leaf.Aim)
    (target : Row) :
    Follows index id (RawLeaf.search index aim target) (Leaf.search index aim target) leaf
      fun slot later => slot ≤ leaf.count ∧ ∃ n, leaf.Decodes index n later := by
  refine .get ?_
  rw [Leaf.length_raw]
  exact searchBetween_follows hosted steady aim target (by omega) (Nat.zero_le _) (Nat.le_refl _)

theorem loadedRows_raw (slots : List Slot) :
    RawLeaf.loadedRows (slots.map Slot.row) = Leaf.loadedRows slots := by
  unfold Leaf.loadedRows
  induction slots with
  | nil => rfl
  | cons slot rest ih =>
    rw [List.mapM_cons, ← ih]
    obtain ⟨offset, _ | row⟩ := slot <;> rfl

theorem collect_follows (hosted : index.Hosted) (steady : leaf.Steady index) :
    Follows index id (RawLeaf.collect index) (Leaf.rows index) leaf fun _ _ => True := by
  refine .bind (loadRows_follows hosted steady) fun _ later steady _ => .get ?_
  rw [show later.raw.rows = later.slots.map Slot.row from rfl, loadedRows_raw]
  exact (Follows.of_gives steady (.of_ofExcept _)).imp fun _ _ _ => trivial

theorem setParent_follows (steady : leaf.Steady index) (parent : Option PageId) :
    Follows index id (RawLeaf.setParent parent) (Leaf.setParent parent) leaf fun _ _ => True := by
  refine .get (.ite Iff.rfl (fun _ => ?_) fun _ => .of_pure steady trivial)
  intro engine
  exact ⟨.ok (), { leaf with parent, written := false }, engine, rfl, rfl,
    ⟨steady.image, steady.falls, steady.clear, steady.storable⟩, fun _ _ => trivial⟩

theorem seek_follows (hosted : index.Hosted) (steady : leaf.Steady index) (target : Row)
    (past : Bool) :
    Follows index id (RawLeaf.seek index target past) (Leaf.seek index target past) leaf
      fun _ later => later.id = leaf.id := by
  refine .bind (search_follows hosted steady (.bound past) target) ?_
  rintro slot later steady ⟨_, n, decodes⟩
  refine .get ?_
  rw [Leaf.length_raw]
  refine .ite Iff.rfl (fun _ => .of_pure steady decodes.id) fun _ => ?_
  rw [show later.raw.parent = later.parent from rfl]
  cases later.parent with
  | none => exact .of_pure steady decodes.id
  | some node => exact .of_pure steady decodes.id

theorem holds_follows (hosted : index.Hosted) (steady : leaf.Steady index) (slot : Nat)
    (target : Row) :
    Follows index id (RawLeaf.holds index slot target) (Leaf.holds index slot target) leaf
      fun held later => (held → slot < leaf.count) ∧ ∃ n, leaf.Decodes index n later := by
  refine .get ?_
  rw [Leaf.length_raw]
  refine .ite Iff.rfl (fun inside => ?_) fun _ => .of_pure steady ⟨nofun, 0, .refl leaf⟩
  refine .bind (row_follows hosted steady slot) ?_
  rintro row later steady ⟨-, decodes⟩
  exact .of_pure steady ⟨fun _ => inside, decodes⟩

end Machine

end SlottedLeaf
