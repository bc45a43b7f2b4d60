import SlottedLeaf.Proofs.Splitting
import SlottedLeaf.Proofs.Shelves
import SlottedLeaf.Proofs.Unstopped

/-!
# Splits that break off

A split takes each row off the leaf as soon as it is on the new one, and where it fails the new leaf
is dropped. So the rows that were moved by then are lost. On a leaf in order no row that moves is
refused, but a leaf may be read from a page that another index filled, and need not be in order.
-/

namespace SlottedLeaf.Leaf

open RowEntry LeafCall

variable {index : Index} {leaf source target later : Leaf} {keep rest taken : List RowEntry}
  {entry : RowEntry} {engine after : Engine} {fault : Fault}

/-! ## Rows that move until one fails to -/

theorem holding_of_slots {entries : List RowEntry}
    (slots : leaf.slots = entries.map RowEntry.slot) : leaf.holding entries = leaf := by
  rw [holding, ← slots]

/-- Where offsets fall, taking a row off fails for the check of the layout alone, and then the row
is off. -/
theorem removeAt_stacked (slots : source.slots = (keep ++ entry :: rest).map RowEntry.slot)
    (stacked : Stacked (fun _ => 0) index.pageSize (keep ++ entry :: rest)) (kept : keep ≠ [])
    (engine : Engine) :
    ∃ outcome after, (removeAt index keep.length).on source engine =
        ((outcome, source.changed (removeBetween index.pageSize keep entry rest)), after) ∧
      ∀ fault, outcome = .error fault →
        (source.changed (removeBetween index.pageSize keep entry rest)).checkInvariants index =
          .error fault := by
  have shows : source.Shows index (keep ++ entry :: rest) := by
    rw [← holding_of_slots slots]
    exact .of_holding source _
  obtain ⟨n, _, loaded⟩ := shows.loadRows
  have inside : ¬ (keep ++ entry :: rest).length ≤ keep.length := by simp
  have several : ¬ (keep ++ entry :: rest).length ≤ 1 := by
    have some := List.length_pos_iff.mpr kept
    rw [List.length_append, List.length_cons]
    omega
  have removed : removeSlot keep.length (lowest index.pageSize keep - entry.offset)
      ((keep ++ entry :: rest).map RowEntry.slot) =
        (removeBetween index.pageSize keep entry rest).map RowEntry.slot := removeSlot_eq _
  simp only [removeAt, LeafCall.on_bind, loaded, LeafCall.on_get, count_holding, if_neg inside,
    if_neg several, offsets_holding, extent_eq stacked, LeafCall.on_ofExcept, id_holding,
    parent_holding, form_holding, image_holding, slots_holding, removed, LeafCall.on_set,
    changed_mk]
  cases checked : (source.changed (removeBetween index.pageSize keep entry rest)).checkInvariants
      index with
  | error fault => exact ⟨_, _, rfl, fun _ same => congrArg Except.error (Except.error.inj same)⟩
  | ok _ =>
    simp only [LeafCall.on_count, LeafCall.on_report]
    refine ⟨_, _, rfl, ?_⟩
    intro fault same
    cases same

/-- What stops rows from moving, once those of `seen` are on the new leaf and these are left. -/
inductive Stop (index : Index) (seen left : List Row) (later : Leaf) : Fault → Prop where
  /-- The next row is refused by one that was moved. -/
  | refused {id : PageId} {row other : Row} (next : left.head? = some row) (member : other ∈ seen)
      (refuses : index.Refuses row other) : Stop index seen left later (.duplicateKey id row)
  /-- The new leaf has no room for the next row. -/
  | full : Stop index seen left later (.internal .splitTargetFull)
  /-- The rows that are left are not in order. -/
  | disordered {fault : Fault} (checked : later.checkInvariants index = .error fault) :
      Stop index seen left later fault

/-- How the moving of rows breaks off: before the first row went, which takes rows on the new leaf
already, or with some rows gone. -/
inductive BreaksOff (index : Index) (source : Leaf) (keep rest taken : List RowEntry)
    (seen : List Row) (fault : Fault) : Leaf → Prop where
  | still (filled : taken ≠ []) (stop : Stop index seen (rest.map RowEntry.row) source fault) :
      BreaksOff index source keep rest taken seen fault source
  | gone (gone : List Row) (left : List RowEntry) (some : gone ≠ [])
      (rows : rest.map RowEntry.row = gone ++ left.map RowEntry.row)
      (stop : Stop index (seen ++ gone) (left.map RowEntry.row) (source.changed (keep ++ left))
        fault) :
      BreaksOff index source keep rest taken seen fault (source.changed (keep ++ left))

theorem moveRows_error (standard : index.Standard) (kept : keep ≠ []) {seen : List Row}
    (slots : source.slots = (keep ++ rest).map RowEntry.slot)
    (stacked : Stacked (fun _ => 0) index.pageSize (keep ++ rest))
    (holds : target.Holds index taken) (unreserved : target.id ≠ .reserved)
    (known : ∀ row ∈ taken.map RowEntry.row, row ∈ seen)
    (run : (moveRows index keep.length rest.length target).on source engine =
      ((.error fault, later), after)) :
    BreaksOff index source keep rest taken seen fault later := by
  -- Each round moves the first row of `rest`; the new leaf is in order whatever rows it takes.
  induction count : rest.length generalizing source target rest taken seen engine with
  | zero =>
    rw [count] at run
    cases run
  | succ n ih =>
    obtain ⟨entry, rest, rfl⟩ := List.exists_cons_of_length_eq_add_one count
    have here : source.slots[keep.length]? = some ⟨entry.offset, some entry.row⟩ := by
      rw [slots]
      simp [RowEntry.slot]
    obtain ⟨outcome, grown, middle, inserted, _, inserts⟩ :=
      insert_on standard holds entry.row engine
    rw [List.length_cons] at run count
    simp only [moveRows, LeafCall.on_bind, row_on, here, LeafCall.on_onOther, inserted] at run
    cases inserts with
    | @refused other member refuses =>
      cases run
      refine .still ?_ (.refused rfl (known other member) refuses)
      rintro rfl
      cases member
    | full _ _ several =>
      cases run
      refine .still ?_ .full
      rintro rfl
      cases several
    | @placed _ entries accepted places =>
      have gains := places.gains standard holds accepted
      obtain ⟨removal, between, removed, checked⟩ := removeAt_stacked slots stacked kept middle
      rw [checkPageId_of_ne unreserved] at run
      simp only [Except.map, LeafCall.on_bind, removed] at run
      have shifted : (shiftUp (lowest index.pageSize keep - entry.offset) rest).map RowEntry.row =
          rest.map RowEntry.row := rows_shiftUp _
      cases removal with
      | error cause =>
        cases run
        refine .gone [entry.row] _ (List.cons_ne_nil _ _) ?_ (.disordered (checked _ rfl))
        rw [List.map_cons, shifted]
        rfl
      | ok _ =>
        have length : (shiftUp (lowest index.pageSize keep - entry.offset) rest).length =
            rest.length := by simp [shiftUp]
        have held : ∀ row ∈ entries.map RowEntry.row, row ∈ seen ++ [entry.row] := by
          intro row member
          rw [gains.rows, Row.mem_insertInOrder] at member
          rcases member with rfl | member
          · exact List.mem_append_right seen List.mem_cons_self
          · exact List.mem_append_left _ (known row member)
        have moved : (source.changed (removeBetween index.pageSize keep entry rest)).slots =
          (keep ++ shiftUp (lowest index.pageSize keep - entry.offset) rest).map
            RowEntry.slot := rfl
        rw [← length] at run count
        have onward := ih moved stacked.removeBetween gains.holds (gains.id ▸ unreserved) held run
          (Nat.succ.inj count)
        cases onward with
        | still _ stop =>
          refine .gone [entry.row] _ (List.cons_ne_nil _ _) ?_ stop
          rw [List.map_cons, shifted]
          rfl
        | gone more left _ rows stop =>
          refine .gone (entry.row :: more) left (List.cons_ne_nil _ _) ?_ ?_
          · rw [List.map_cons, ← shifted, rows]
            rfl
          · rw [List.append_assoc, List.singleton_append] at stop
            exact stop

/-! ## Splits -/

/-- How a split that fails leaves a leaf, over a store that hands out `next` next. -/
inductive FailsSplit (index : Index) (leaf : Leaf) (point next : Nat) (fault : Fault)
    (later : Leaf) : Prop where
  /-- The leaf has its rows where they were; some more of them may be decoded. -/
  | kept {n : Nat} (decodes : leaf.Decodes index n later)
      (cause : point = 0 ∨ leaf.count ≤ point ∨ pageIdLimit ≤ next ∨
        ∀ rows, ¬ leaf.Collects index rows)
  /-- From the split point on rows are gone, and the rest have moved up. -/
  | lost {rows : List Row} {gone : Nat} (collects : leaf.Collects index rows) (inside : 0 < point)
      (some : 0 < gone) (most : point + gone ≤ leaf.count) (page : leaf.SamePage later)
      (form : later.form = leaf.form) (dirty : later.isDirty)
      (count : later.count = leaf.count - gone)
      (offsets : later.offsets.take point = leaf.offsets.take point)
      (left : later.Collects index (rows.take point ++ rows.drop (point + gone)))
      (stop : Stop index ((rows.drop point).take gone) (rows.drop (point + gone)) later fault)

/-- What an image shows falls from row to row. -/
theorem stacked_of_ofImage {id : PageId} {image : Buffer} {entries : List RowEntry}
    (shown : ofImage index id image = .ok leaf) (shows : leaf.Shows index entries) :
    Stacked (fun _ => 0) index.pageSize entries := by
  have falls := (steady_of_ofImage shown).falls
  rw [shows.offsets] at falls
  exact stacked_zero_iff.mpr falls

/-- Moving rows to a new leaf breaks off with rows gone, since a leaf without rows refuses none. -/
theorem moveRows_create_error (standard : index.Standard) {point : Nat} {entries : List RowEntry}
    (inside : 0 < point ∧ point < leaf.count) (shows : leaf.Shows index entries)
    (stacked : Stacked (fun _ => 0) index.pageSize entries) {id : PageId}
    (unreserved : id ≠ .reserved) (next : Nat)
    (run : (moveRows index point (leaf.count - point)
        (create index id leaf.parent leaf.form)).on (leaf.holding entries) engine =
      ((.error fault, later), after)) :
    FailsSplit index leaf point next fault later := by
  obtain ⟨keep, rest, rfl, rfl⟩ : ∃ keep rest, keep ++ rest = entries ∧ keep.length = point := by
    refine ⟨entries.take point, entries.drop point, List.take_append_drop point entries, ?_⟩
    exact List.length_take_of_le (shows.count ▸ Nat.le_of_lt inside.2)
  have count : leaf.count - keep.length = rest.length := by
    rw [shows.count, List.length_append, Nat.add_sub_cancel_left]
  rw [count] at run
  have unseen : ∀ row ∈ ([] : List RowEntry).map RowEntry.row, row ∈ ([] : List Row) := nofun
  have breaks := moveRows_error standard (List.length_pos_iff.mp inside.1) rfl stacked
    (.create standard id leaf.parent leaf.form) unreserved unseen run
  cases breaks with
  | still filled _ => exact absurd rfl filled
  | gone gone left some rows stop =>
    have lengths : rest.length = gone.length + left.length := by
      simpa using congrArg List.length rows
    have total : leaf.count = keep.length + rest.length := by
      rw [shows.count, List.length_append]
    have all : (keep ++ rest).map RowEntry.row =
        keep.map RowEntry.row ++ (gone ++ left.map RowEntry.row) := by
      rw [List.map_append, rows]
    have cut : (keep.map RowEntry.row).length = keep.length := List.length_map ..
    have early : ((keep ++ rest).map RowEntry.row).take keep.length = keep.map RowEntry.row := by
      rw [all, List.take_left' cut]
    have late : ((keep ++ rest).map RowEntry.row).drop keep.length =
        gone ++ left.map RowEntry.row := by
      rw [all, List.drop_left' cut]
    have last : ((keep ++ rest).map RowEntry.row).drop (keep.length + gone.length) =
        left.map RowEntry.row := by
      rw [← List.drop_drop, late, List.drop_left]
    refine .lost shows.collects inside.1 (List.length_pos_iff.mpr some) (by omega) ⟨rfl, rfl, rfl⟩
      rfl rfl ?_ ?_ ?_ ?_
    · rw [count_changed, List.length_append]
      omega
    · have here : ((leaf.holding (keep ++ rest)).changed (keep ++ left)).offsets =
          (keep ++ left).map RowEntry.offset := offsets_slots _
      rw [here, shows.offsets, List.map_append, List.map_append,
        List.take_left' (List.length_map ..), List.take_left' (List.length_map ..)]
    · rw [early, last, ← List.map_append]
      exact (Shows.of_changed leaf (keep ++ left)).collects
    · rw [late, last, List.take_left]
      exact stop

/-- A split of a leaf that was just read fails before a row has moved, and then the leaf is as
before; or it fails while rows are moving, and then those that were moved are lost. It does so for
no leaf in order. -/
theorem split_error (standard : index.Standard) (serves : engine.Serves index) {id : PageId}
    {image : Buffer} (shown : ofImage index id image = .ok leaf) {point : Nat}
    (run : (split index point).on leaf engine = ((.error fault, later), after)) :
    FailsSplit index leaf point engine.store.nextPage fault later ∧
      (leaf.WellFormed index → later = leaf) := by
  constructor
  · rw [split, on_get_bind] at run
    by_cases outside : point = 0 ∨ leaf.count ≤ point
    · rw [if_pos outside] at run
      cases run
      refine .kept (.refl leaf) ?_
      rcases outside with none | past
      · exact .inl none
      · exact .inr (.inl past)
    rw [if_neg outside] at run
    by_cases room : engine.store.nextPage < pageIdLimit
    · obtain ⟨store, event, allocated, grows⟩ := Engine.allocatePage_of_room serves.opened room
      have unreserved := (grows.allocated_next serves.opened room).unreserved
      rw [on_bind, on_engine, allocated] at run
      rcases on_bind_error run with failed | ⟨_, loaded, ready, loads, run⟩
      · obtain ⟨n, decodes, _⟩ := (loadRows_peeks index).ended failed
        refine .kept decodes (.inr (.inr (.inr ?_)))
        intro rows collects
        have given := collects ((engine.stored store).reported event)
        rw [Leaf.rows, on_bind, failed] at given
        cases given
      · obtain ⟨entries, shows, rfl⟩ := shows_of_loadRows loads
        rcases on_bind_error run with failed | ⟨_, _, _, _, finished⟩
        · exact moveRows_create_error standard (by omega) shows (stacked_of_ofImage shown shows)
            unreserved _ failed
        · cases finished
    · have full := Nat.not_lt.mp room
      rw [on_bind, on_engine, Engine.allocatePage_of_full full] at run
      cases run
      exact .kept (.refl leaf) (.inr (.inr (.inl full)))
  · rintro ⟨entries, holds⟩
    obtain ⟨outcome, last, ended, n, same, _, splits⟩ := split_on standard holds point serves
    rw [run] at same
    cases same
    cases splits with
    | refused _ => rfl
    | exhausted _ _ => rfl

/-! ## A row that is lost -/

/-- A unique index on pages of the smallest size. -/
def onlyOnce : Index := .smallest ⟨true, true⟩ fun _ => .error (.corruption .rowNotInTable)

/-- A page of the smallest size with the key `a` at position 1, and `b` at 2 and at 3. -/
def doubled : Buffer :=
  #[0, 0, 0, 0, 0x84, 0, 0, 0, 1, 0, 3, 0, 54, 0, 44, 0, 34, 0, 0, 0, 0, 0, 0, 0, 0, 0, 0, 0,
    0, 0, 0, 0, 0, 0, 0, 0, 0, 0, 0, 0, 0, 3, 2, 98, 0, 0, 0, 0, 0, 0, 0, 2, 2, 98,
    0, 0, 0, 0, 0, 0, 0, 1, 2, 97]

/-- What an index that is not unique does to leave that page behind. -/
def doublingRun : List Task :=
  [.createRoot, .insert ⟨1⟩ ⟨some [97], ⟨1⟩⟩, .insert ⟨1⟩ ⟨some [98], ⟨2⟩⟩,
    .insert ⟨1⟩ ⟨some [98], ⟨3⟩⟩, .write ⟨1⟩]

/-- What that page shows. -/
def doubledLeaf : Leaf :=
  ⟨⟨1⟩, none, .full, [⟨54, none⟩, ⟨44, none⟩, ⟨34, none⟩], true, doubled⟩

theorem ofImage_doubled : ofImage onlyOnce ⟨1⟩ doubled = .ok doubledLeaf := by rfl

theorem split_doubled : ((split onlyOnce 1).on doubledLeaf (.inMemory 64 1)).1.1 =
    .error (.duplicateKey ⟨2⟩ ⟨some [98], ⟨3⟩⟩) := by decide +kernel

/-- So it is for a unique index on a page where a key stands twice: the second of the two rows is
refused once the first is gone. -/
theorem split_error_doubled :
    ∃ later after, ofImage onlyOnce ⟨1⟩ doubled = .ok doubledLeaf ∧
      (split onlyOnce 1).on doubledLeaf (.inMemory 64 1) =
        ((.error (.duplicateKey ⟨2⟩ ⟨some [98], ⟨3⟩⟩), later), after) ∧
      FailsSplit onlyOnce doubledLeaf 1 2 (.duplicateKey ⟨2⟩ ⟨some [98], ⟨3⟩⟩) later ∧
      (doubledLeaf.WellFormed onlyOnce → later = doubledLeaf) := by
  have serves : (Engine.inMemory 64 1).Serves onlyOnce := Engine.inMemory_serves onlyOnce 1
  have standard : onlyOnce.Standard := Index.smallest_standard _ _
  have run : (split onlyOnce 1).on doubledLeaf (.inMemory 64 1) =
      ((.error (.duplicateKey ⟨2⟩ ⟨some [98], ⟨3⟩⟩), _), _) :=
    Prod.ext (Prod.ext split_doubled rfl) rfl
  exact ⟨_, _, ofImage_doubled, run, split_error standard serves ofImage_doubled run⟩

/-- A row is lost: an index that is not unique writes a page with a key twice, and a unique index
reads it and splits it. The split fails, and of the three rows two are left. -/
theorem split_loses_row :
    ((Shelf.blank 0).after .plain .idle doublingRun).engine.store.read ⟨1⟩ = .ok doubled ∧
      ofImage onlyOnce ⟨1⟩ doubled = .ok doubledLeaf ∧
      let later := ((split onlyOnce 1).on doubledLeaf (.inMemory 64 1)).1.2
      ((split onlyOnce 1).on doubledLeaf (.inMemory 64 1)).1.1 =
          .error (.duplicateKey ⟨2⟩ ⟨some [98], ⟨3⟩⟩) ∧
        doubledLeaf.count = 3 ∧ later.count = 2 ∧
        ((rows onlyOnce).on doubledLeaf (.inMemory 64 1)).1.1 =
          .ok [⟨some [97], ⟨1⟩⟩, ⟨some [98], ⟨2⟩⟩, ⟨some [98], ⟨3⟩⟩] ∧
        ((rows onlyOnce).on later (.inMemory 64 1)).1.1 =
          .ok [⟨some [97], ⟨1⟩⟩, ⟨some [98], ⟨3⟩⟩] := by
  refine ⟨by decide +kernel, ofImage_doubled, split_doubled, rfl, ?_, ?_, ?_⟩ <;> decide +kernel

end SlottedLeaf.Leaf
