import SlottedLeaf.Leaf.Split
import SlottedLeaf.Proofs.Insertion
import SlottedLeaf.Proofs.Removal

/-!
# What a split does

A split moves rows one after the other to the end of a new leaf. The rows still to be moved are
above those moved already, and the page had room for all of them together, so each of them fits the
new leaf as it is: the split of a leaf in order fails only for a wrong split point or when no page
is left.
-/

namespace SlottedLeaf.Leaf

open RowEntry

variable {index : Index} {source blank : Leaf} {keep taken rest : List RowEntry} {entry : RowEntry}

/-! ## Moving rows -/

/-- While rows move: `source` holds the rows that stay and the rest to be moved, and the new leaf,
`blank` at first, holds those taken already. -/
structure Moving (index : Index) (source blank : Leaf) (keep taken rest : List RowEntry) :
    Prop where
  stays : source.Holds index (keep ++ rest)
  moved : (blank.changed taken).Holds index taken
  form : source.form = blank.form
  packed : Packed (index.format.size blank.form) index.pageSize taken
  ascending : Row.Ascending (taken.map RowEntry.row ++ rest.map RowEntry.row)
  distinct : index.options.unique →
    Row.KeysDiffer (taken.map RowEntry.row ++ rest.map RowEntry.row)
  room : headerLength + entryLength * (taken.length + rest.length) +
    RowEntry.room (index.format.size blank.form) (taken.map RowEntry.row ++ rest.map RowEntry.row) ≤
      index.pageSize

namespace Moving

/-- There is room for the next row at the end of the new leaf, and nothing there refuses it. -/
theorem next (moving : Moving index source blank keep taken (entry :: rest))
    (standard : index.Standard) :
    (blank.changed taken).fits index (index.format.size blank.form entry.row) ∧
      (∀ other ∈ taken.map RowEntry.row, other.Below entry.row) ∧
      ∀ other ∈ taken.map RowEntry.row, ¬ index.Refuses entry.row other := by
  have room := moving.room
  have used := moving.packed.room_eq
  have below : ∀ other ∈ taken.map RowEntry.row, other.Below entry.row := by
    intro other member
    exact (List.pairwise_append.mp moving.ascending).2.2 other member entry.row List.mem_cons_self
  refine ⟨?_, below, ?_⟩
  · -- The rows taken are packed, so what they leave free is what `room` kept for the rest.
    rw [moving.moved.shows.fits_iff, start_changed]
    simp only [RowEntry.room, List.map_append, List.sum_append, List.map_cons, List.sum_cons,
      List.length_cons, entryLength] at room used ⊢
    omega
  · intro other member refuses
    rcases standard.refuses_iff.mp refuses with same | ⟨unique, known, same⟩
    · exact (below other member).ne same
    · have null := (List.pairwise_append.mp (moving.distinct unique)).2.2 other member entry.row
        List.mem_cons_self same
      exact known (same.symm.trans null)

theorem insert_on (moving : Moving index source blank keep taken (entry :: rest))
    (standard : index.Standard) (unreserved : blank.id ≠ .reserved) (engine : Engine) :
    ∃ later, (insert index entry.row).on (blank.changed taken) engine =
        ((.ok .inserted, blank.changed (taken ++
          [⟨lowest index.pageSize taken - index.format.size blank.form entry.row, entry.row⟩])),
          later) ∧
      engine.store.Grows 0 later.store := by
  obtain ⟨fits, below, accepted⟩ := moving.next standard
  obtain ⟨outcome, grown, later, run, grows, inserts⟩ :=
    Leaf.insert_on standard moving.moved entry.row engine
  refine ⟨later, ?_, grows⟩
  -- It fits and nothing refuses it, so it is put in its place, and its place is the end.
  cases inserts with
  | refused member refuses => exact absurd refuses (accepted _ member)
  | full _ short _ => exact absurd fits short
  | placed _ places =>
    cases places with
    | compacted _ short _ _ _ => exact absurd fits short
    | @fitted before after split _ _ high =>
      have none : after = [] := by
        rcases after with _ | ⟨first, after⟩
        · rfl
        · have member : first.row ∈ taken.map RowEntry.row := by simp [← split]
          exact absurd (below _ member) (high first.row List.mem_cons_self).asymm
      subst none
      rw [List.append_nil] at split
      subst split
      rw [run, id_changed, checkPageId_of_ne unreserved]
      rfl

/-- After a row has moved, the rest is still to be moved. -/
theorem step (moving : Moving index source blank keep taken (entry :: rest))
    (standard : index.Standard) :
    Moving index (source.changed (removeBetween index.pageSize keep entry rest)) blank keep
      (taken ++ [⟨lowest index.pageSize taken - index.format.size blank.form entry.row, entry.row⟩])
      (shiftUp (lowest index.pageSize keep - entry.offset) rest) := by
  obtain ⟨fits, below, accepted⟩ := moving.next standard
  have high : ∀ other ∈ ([] : List RowEntry).map RowEntry.row, entry.row.Below other := by simp
  have moved := moving.moved
  have packed := moving.packed
  rw [← List.append_nil taken] at moved packed accepted fits
  have rows : (taken ++ [RowEntry.mk (lowest index.pageSize taken -
      index.format.size blank.form entry.row) entry.row]).map RowEntry.row ++
        (shiftUp (lowest index.pageSize keep - entry.offset) rest).map RowEntry.row =
      taken.map RowEntry.row ++ (entry :: rest).map RowEntry.row := by simp
  refine ⟨moving.stays.removeBetween, moved.insertBetween standard fits below high accepted,
    moving.form, packed.insertBetween (le_lowest_of_fits moved.shows fits), ?_, ?_, ?_⟩
  · rw [rows]
    exact moving.ascending
  · intro unique
    rw [rows]
    exact moving.distinct unique
  · have room := moving.room
    rw [rows]
    simp only [List.length_append, List.length_cons, List.length_nil, shiftUp, List.length_map,
      entryLength] at room ⊢
    omega

end Moving

theorem moveRows_on (moving : Moving index source blank keep taken rest)
    (standard : index.Standard) (unreserved : blank.id ≠ .reserved) (kept : keep ≠ [])
    (engine : Engine) :
    ∃ later after moved,
      (moveRows index keep.length rest.length (blank.changed taken)).on source engine =
        ((.ok (blank.changed moved), later), after) ∧
      engine.store.Grows 0 after.store ∧ Moving index later blank keep moved [] ∧
      moved.map RowEntry.row = taken.map RowEntry.row ++ rest.map RowEntry.row ∧
      (later = source ∧ rest = [] ∨ later = source.changed keep) := by
  -- `moving` is the invariant; each round has one row fewer left to move.
  induction n : rest.length generalizing source taken rest engine with
  | zero =>
    obtain rfl := List.eq_nil_of_length_eq_zero n
    exact ⟨source, engine, taken, rfl, .refl _, moving, by simp, .inl ⟨rfl, rfl⟩⟩
  | succ n ih =>
    obtain ⟨entry, rest, rfl⟩ := List.exists_cons_of_length_eq_add_one n
    have here : (keep ++ entry :: rest)[keep.length]? = some entry := by simp
    have several : 1 < (keep ++ entry :: rest).length := by
      have := List.length_pos_iff.mpr kept
      rw [List.length_append, List.length_cons]
      omega
    obtain ⟨k, looked, decodes, look⟩ := moving.stays.shows.row here
    obtain ⟨middle, inserted, grows⟩ :=
      moving.insert_on standard unreserved (engine.counted .rowsDecoded k)
    obtain ⟨removed, remove, same⟩ :=
      removeAt_on (moving.stays.sorted.decodes decodes) several middle
    rw [decodes.changed] at remove
    obtain ⟨later, after, moved, run, more, done, rows, last⟩ := ih (moving.step standard)
      removed (by simpa [shiftUp] using n)
    refine ⟨later, after, moved, ?_, ?_, done, ?_, .inr ?_⟩
    · simp only [moveRows, LeafCall.on_bind, look, LeafCall.on_onOther, inserted, remove]
      exact run
    · rw [same] at more
      exact grows.trans more
    · simpa using rows
    · rcases last with ⟨rfl, none⟩ | rfl
      · rw [removeBetween, none, List.append_nil]
      · rfl

/-! ## The outcomes -/

/-- `right` is the leaf that a split moved rows to, and these are its entries. -/
structure Parts (index : Index) (leaf : Leaf) (keep rest : List RowEntry) (right : Leaf)
    (moved : List RowEntry) : Prop where
  stays : (leaf.changed keep).Holds index keep
  moves : right.Holds index moved
  packed : right.IsPacked index moved
  rows : moved.map RowEntry.row = rest.map RowEntry.row
  unreserved : right.id ≠ .reserved
  fresh : right = (create index right.id leaf.parent leaf.form).changed moved

/-- How a split ends on a leaf with these entries, over a store that hands out `next` next. -/
inductive Splits (index : Index) (leaf : Leaf) (entries : List RowEntry) (point next : Nat) :
    Except Fault Leaf → Leaf → Nat → Prop where
  /-- The split point would leave one of the leaves without rows. -/
  | refused (outside : point = 0 ∨ entries.length ≤ point) :
      Splits index leaf entries point next (.error (.invalid .splitPoint)) leaf 0
  /-- There is no page for the new leaf. -/
  | exhausted (inside : 0 < point ∧ point < entries.length) (full : pageIdLimit ≤ next) :
      Splits index leaf entries point next (.error (.invalid .pagesExhausted)) leaf 0
  /-- The rows from the split point on are on the new leaf. -/
  | parted {keep rest moved : List RowEntry} {right : Leaf} (split : keep ++ rest = entries)
      (cut : keep.length = point) (kept : keep ≠ []) (left : rest ≠ [])
      (room : next < pageIdLimit) (parts : leaf.Parts index keep rest right moved) :
      Splits index leaf entries point next (.ok right) (leaf.changed keep) 1

variable {leaf : Leaf} {entries : List RowEntry}

private theorem moving_start (standard : index.Standard) (holds : leaf.Holds index (keep ++ rest))
    (id : PageId) :
    Moving index leaf (create index id leaf.parent leaf.form) keep [] rest := by
  have ascending := holds.ascending
  have distinct := holds.distinct
  have room := holds.stacked.room_le
  have clear := holds.clear
  rw [List.map_append] at ascending distinct room
  rw [holds.shows.start] at clear
  refine ⟨holds, .create standard id leaf.parent leaf.form, rfl, trivial,
    (List.pairwise_append.mp ascending).2.1,
    fun unique => (List.pairwise_append.mp (distinct unique)).2.1, ?_⟩
  simp only [RowEntry.room, List.map_append, List.sum_append, List.length_append, List.length_nil,
    List.map_nil, List.nil_append, create, entryLength] at room clear ⊢
  omega

private theorem moveRows_create (standard : index.Standard)
    (holds : leaf.Holds index (keep ++ rest)) {id : PageId} (unreserved : id ≠ .reserved)
    (kept : keep ≠ []) (left : rest ≠ []) (engine : Engine) :
    ∃ right moved after,
      (moveRows index keep.length rest.length (create index id leaf.parent leaf.form)).on
          (leaf.holding (keep ++ rest)) engine = ((.ok right, leaf.changed keep), after) ∧
        engine.store.Grows 0 after.store ∧ leaf.Parts index keep rest right moved := by
  obtain ⟨n, decodes, _⟩ := holds.shows.loadRows
  obtain ⟨later, after, moved, run, grows, done, rows, last⟩ := moveRows_on
    (moving_start standard (holds.decodes decodes) id) standard unreserved kept engine
  have same : later = leaf.changed keep := by
    rcases last with ⟨_, none⟩ | same
    · exact absurd none left
    · exact same
  subst same
  exact ⟨_, moved, after, run, grows, by simpa using done.stays, done.moved, done.packed, rows,
    unreserved, rfl⟩

/-- A split point that would leave one of the leaves without rows is refused before anything is
done. -/
theorem split_of_outside {point : Nat} (outside : point = 0 ∨ leaf.count ≤ point)
    (engine : Engine) :
    (split index point).on leaf engine = ((.error (.invalid .splitPoint), leaf), engine) := by
  simp only [split, LeafCall.on_bind, LeafCall.on_get, if_pos outside, LeafCall.on_throw]

/-- Without a page to be handed out nothing is done either. -/
theorem split_of_full {point : Nat} (inside : ¬ (point = 0 ∨ leaf.count ≤ point)) {engine : Engine}
    (full : pageIdLimit ≤ engine.store.nextPage) :
    (split index point).on leaf engine = ((.error (.invalid .pagesExhausted), leaf), engine) := by
  simp only [split, LeafCall.on_bind, LeafCall.on_get, if_neg inside, LeafCall.on_engine,
    Engine.allocatePage_of_full full]

/-- A split of a leaf in order ends in one of these ways. -/
theorem split_on (standard : index.Standard) (holds : leaf.Holds index entries) (point : Nat)
    {engine : Engine} (serves : engine.Serves index) :
    ∃ outcome later after n, (split index point).on leaf engine = ((outcome, later), after) ∧
      engine.store.Grows n after.store ∧
      leaf.Splits index entries point engine.store.nextPage outcome later n := by
  by_cases outside : point = 0 ∨ leaf.count ≤ point
  · exact ⟨_, leaf, engine, 0, split_of_outside outside engine, .refl _,
      .refused (by rwa [← holds.shows.count])⟩
  have inside : 0 < point ∧ point < entries.length := by
    rw [holds.shows.count] at outside
    omega
  by_cases room : engine.store.nextPage < pageIdLimit
  · obtain ⟨keep, rest, rfl, rfl⟩ : ∃ keep rest, keep ++ rest = entries ∧ keep.length = point :=
      ⟨entries.take point, entries.drop point, List.take_append_drop point entries,
        List.length_take_of_le (Nat.le_of_lt inside.2)⟩
    have kept : keep ≠ [] := List.length_pos_iff.mp inside.1
    have left : rest ≠ [] := by
      rintro rfl
      simp at inside
    obtain ⟨store, event, allocated, grows⟩ := Engine.allocatePage_of_room serves.opened room
    have unreserved := (grows.allocated_next serves.opened room).unreserved
    obtain ⟨n, decodes, loaded⟩ := holds.shows.loadRows
    obtain ⟨right, moved, after, run, still, parts⟩ := moveRows_create standard holds unreserved
      kept left (((engine.stored store).reported event).counted .rowsDecoded n)
    have cut : leaf.count - keep.length = rest.length := by
      rw [holds.shows.count, List.length_append, Nat.add_sub_cancel_left]
    refine ⟨.ok right, leaf.changed keep, (after.counted .splits 1).reported (.leafSplit leaf.id
      ⟨UInt32.ofNat engine.store.nextPage⟩ keep.length rest.length), 1, ?_, grows.trans still,
      .parted rfl rfl kept left room parts⟩
    simp only [split, LeafCall.on_bind, LeafCall.on_get, if_neg outside, LeafCall.on_engine,
      allocated, loaded, cut, run]
    rfl
  · have full := Nat.not_lt.mp room
    exact ⟨_, leaf, engine, 0, split_of_full outside full, .refl _, .exhausted inside full⟩

end SlottedLeaf.Leaf
