import SlottedLeaf.Proofs.Attempts

/-!
# Rows that a split moves

A split takes rows off one leaf and puts them on a new one, each with an attempt of its own. The
leaf that is split keeps its form, whatever becomes of the split. Rows take no more room on the new
leaf than they took on the old one, so if the layout of the old leaf is in order, none of them turns
the new one, and it keeps the form that it was created with.
-/

namespace SlottedLeaf

open LeafCall RowEntry

variable {index : Index} {leaf later : Leaf} {engine after : Engine} {row : Row}

/-! ## What a split attempts -/

namespace Leaf

/-- The attempts that are made while rows are moved to `target`, up to one that fails. -/
def moveAttempts (index : Index) (slot : Nat) : Nat → Leaf → Leaf → Engine → List Attempt
  | 0, _, _, _ => []
  | n + 1, target, leaf, engine =>
    match (Leaf.row index slot).on leaf engine with
    | ((.error _, _), _) => []
    | ((.ok moving, leaf), engine) =>
      let ((outcome, filled), engine) := (insert index moving).on target engine
      ⟨target, moving, filled⟩ ::
        match outcome, (removeAt index slot).on leaf engine with
        | .ok .inserted, ((.ok _, leaf), engine) => moveAttempts index slot n filled leaf engine
        | _, _ => []

/-- The attempts that a split makes, all of them on the new leaf. -/
def splitAttempts (index : Index) (point : Nat) (leaf : Leaf) (engine : Engine) : List Attempt :=
  if point = 0 ∨ leaf.count ≤ point then []
  else
    match Engine.allocatePage.on engine with
    | (.error _, _) => []
    | (.ok id, engine) =>
      match (loadRows index).on leaf engine with
      | ((.error _, _), _) => []
      | ((.ok _, loaded), engine) =>
        moveAttempts index point (leaf.count - point) (create index id leaf.parent leaf.form) loaded
          engine

/-- An insertion into another leaf leaves this one alone. -/
theorem Retains.insert (standard : index.Standard) (leaf : Leaf) {target filled : Leaf}
    {outcome : Except Fault Insertion}
    (run : (insert index row).on target engine = ((outcome, filled), after)) :
    leaf.Retains index engine [⟨target, row, filled⟩] leaf after := by
  refine ⟨rfl, fun tidy => tidy, ?_⟩
  rw [Attempt.compactions_of_insert standard run, List.countP_singleton]
  cases Attempt.turns ⟨target, row, filled⟩ <;> rfl

theorem moveRows_forms (standard : index.Standard) {slot n : Nat} {target : Leaf}
    {outcome : Except Fault Leaf}
    (run : (moveRows index slot n target).on leaf engine = ((outcome, later), after)) :
    leaf.Retains index engine (moveAttempts index slot n target leaf engine) later after ∧
      ∃ last, Attempt.Fills index target (moveAttempts index slot n target leaf engine) last ∧
        ∀ right, outcome = .ok right → right = last := by
  induction n generalizing leaf target engine with
  | zero =>
    cases run
    refine ⟨.refl .., target, .none target, ?_⟩
    rintro _ ⟨⟩
    rfl
  | succ n ih =>
    rw [moveRows, on_bind] at run
    rw [moveAttempts]
    rcases look : (Leaf.row index slot).on leaf engine with ⟨⟨fault | moving, looked⟩, between⟩ <;>
      rw [look] at run
    · cases run
      refine ⟨(row_peeks index slot).keepsForm.ended look, target, .none target, ?_⟩
      rintro _ ⟨⟩
    have looks := (row_peeks index slot).keepsForm.ended look
    simp only at run ⊢
    rw [on_bind, on_onOther] at run
    rcases inserts : (insert index moving).on target between with ⟨⟨answer, filled⟩, noting⟩
    rw [inserts] at run
    have made : Attempt.Made index ⟨target, moving, filled⟩ := ⟨between, answer, noting, inserts⟩
    have one := looks.trans (.insert standard looked inserts)
    rcases answer with fault | (_ | point)
    · cases run
      refine ⟨one, filled, .put made (.none filled), ?_⟩
      rintro _ ⟨⟩
    · simp only at run ⊢
      rw [on_bind] at run
      rcases takes : (removeAt index slot).on looked noting with ⟨⟨fault | _, shrunk⟩, left⟩ <;>
        rw [takes] at run <;> have taken := (removeAt_keepsForm index slot).ended takes
      · cases run
        refine ⟨one.trans taken, filled, .put made (.none filled), ?_⟩
        rintro _ ⟨⟩
      · obtain ⟨others, last, fills, same⟩ := ih run
        exact ⟨(one.trans taken).trans others, last, .put made fills, same⟩
    · cases run
      refine ⟨one, filled, .put made (.none filled), ?_⟩
      rintro _ ⟨⟩

/-- A split keeps the form of the leaf that is split. The new leaf is created with this form, and
filled by the attempts of the split. -/
theorem split_forms (standard : index.Standard) {point : Nat} {outcome : Except Fault Leaf}
    (run : (split index point).on leaf engine = ((outcome, later), after)) :
    leaf.Retains index engine (splitAttempts index point leaf engine) later after ∧
      (∀ attempt ∈ splitAttempts index point leaf engine, attempt.Made index) ∧
      ∀ right, outcome = .ok right →
        Attempt.Fills index (create index right.id leaf.parent leaf.form)
          (splitAttempts index point leaf engine) right := by
  have opens {between : Engine} {given : Except Fault PageId}
      (allocates : Engine.allocatePage.on engine = (given, between)) :
      leaf.Retains index engine [] leaf between := by
    have same := congrArg Stats.compactions engine.allocatePage_stats
    rw [allocates] at same
    exact ⟨rfl, fun tidy => tidy, same⟩
  cases split_divides run with
  | refused outside =>
    rw [splitAttempts, if_pos outside]
    exact ⟨.refl .., nofun, nofun⟩
  | unallocated inside fails =>
    rw [splitAttempts, if_neg inside, fails]
    exact ⟨opens fails, nofun, nofun⟩
  | undecoded inside allocates _ fails =>
    have reads := (loadRows_peeks index).keepsForm.ended fails
    simp only [splitAttempts, if_neg inside, allocates, fails]
    exact ⟨(opens allocates).trans reads, nofun, nofun⟩
  | stopped inside allocates _ loads moves =>
    have reads := (loadRows_peeks index).keepsForm.ended loads
    simp only [splitAttempts, if_neg inside, allocates, loads]
    obtain ⟨moved, last, fills, _⟩ := moveRows_forms standard moves
    exact ⟨((opens allocates).trans reads).trans moved, fills.made, nofun⟩
  | @done id _ _ _ right _ _ inside allocates _ loads moves =>
    have reads := (loadRows_peeks index).keepsForm.ended loads
    simp only [splitAttempts, if_neg inside, allocates, loads]
    obtain ⟨moved, last, fills, same⟩ := moveRows_forms standard moves
    obtain rfl := same _ rfl
    have whole := ((opens allocates).trans reads).trans moved
    refine ⟨⟨whole.form, whole.tidy, whole.compactions⟩, fills.made, ?_⟩
    rintro _ ⟨⟩
    rw [show right.id = id from fills.id]
    exact fills

/-! ## Splits of leaves in order -/

section

variable {entries filled : List RowEntry}

/-- A row that fits is put among the others, if the call succeeds. -/
theorem Tries.of_fits (tries : (leaf.holding entries).Tries index row engine (.ok .inserted) later
      after) (fits : (leaf.holding entries).fits index (index.format.size leaf.form row)) :
    ∃ before behind, entries = before ++ behind ∧ later = leaf.changed
      (insertBetween index.pageSize (index.format.size leaf.form row) row before behind) := by
  generalize answer : (Except.ok Insertion.inserted : Except Fault Insertion) = outcome at tries
  cases tries with
  | undecoded _ _ => cases answer
  | refused _ => cases answer
  | signalled _ _ _ => cases answer
  | @fitted n before behind _ _ _ decodes _ places =>
    obtain ⟨_, same⟩ := decodes.of_holding
    refine ⟨before, behind, (entries_of_holding same).symm, ?_⟩
    cases places with
    | unmoved => cases answer
    | unsound _ => cases answer
    | unnoted _ => cases answer
    | placed _ => rfl
  | stuck _ _ _ _ => cases answer
  | crowded _ _ _ => cases answer
  | compacted _ short _ _ _ _ => exact absurd fits short

theorem Takes.of_ok {slot : Nat}
    (takes : (leaf.holding entries).Takes index slot engine (.ok ()) later after) :
    ∃ before entry behind, entries = before ++ entry :: behind ∧ slot = before.length ∧
      later = leaf.changed (removeBetween index.pageSize before entry behind) := by
  cases takes with
  | taken decodes here _ _ =>
    obtain ⟨_, same⟩ := decodes.of_holding
    exact ⟨_, _, _, (entries_of_holding same).symm, here, rfl⟩

/-- A row that fits turns no leaf. -/
theorem not_turns_of_fits (standard : index.Standard) {outcome : Except Fault Insertion}
    (tries : leaf.Tries index row engine outcome later after)
    (fits : leaf.fits index (index.format.size leaf.form row)) :
    Attempt.turns ⟨leaf, row, later⟩ = false := by
  rcases tries.turns standard with ⟨same, _⟩ | ⟨_, _, _, _, short⟩
  · exact Attempt.not_turns_of_form same
  · exact absurd fits short

/-- Rows that are moved to a leaf without gaps fit, where the page has room for all of them. -/
theorem moveAttempts_fit (standard : index.Standard) {target : Leaf} {before tail : List RowEntry}
    (packed : Packed (index.format.size target.form) index.pageSize filled)
    (room : headerLength + entryLength * (filled.length + tail.length) +
      (RowEntry.room (index.format.size target.form) (filled.map RowEntry.row) +
        RowEntry.room (index.format.size target.form) (tail.map RowEntry.row)) ≤ index.pageSize) :
    ∀ attempt ∈ moveAttempts index before.length tail.length (target.holding filled)
      (leaf.holding (before ++ tail)) engine, attempt.turns = false := by
  -- The rows that are still to be moved, and those that were, are as many bytes as before.
  generalize many : tail.length = n
  induction n generalizing leaf target filled before tail engine with
  | zero => exact List.forall_mem_nil _
  | succ n ih =>
    obtain ⟨entry, rest, rfl⟩ := List.exists_cons_of_length_eq_add_one many
    have here : (leaf.holding (before ++ entry :: rest)).slots[before.length]? =
        some ⟨entry.offset, some entry.row⟩ := by
      simp [RowEntry.slot]
    have used := packed.room_eq
    simp only [List.length_cons, List.map_cons, headerLength, entryLength] at many room
    have fits : (target.holding filled).fits index (index.format.size target.form entry.row) := by
      rw [(Shows.of_holding target filled).fits_iff, start_holding]
      simp only [RowEntry.room, List.map_cons, List.sum_cons, headerLength, entryLength]
        at room used ⊢
      omega
    rw [moveAttempts, row_on, here]
    simp only
    rcases inserts : (insert index entry.row).on (target.holding filled) engine with
      ⟨⟨answer, grown⟩, middle⟩
    have tries := insert_tries inserts
    refine List.forall_mem_cons.mpr ⟨not_turns_of_fits standard tries fits, ?_⟩
    rcases answer with fault | (_ | point)
    · exact List.forall_mem_nil _
    · rcases taking : (removeAt index before.length).on (leaf.holding (before ++ entry :: rest))
        middle with ⟨⟨fault | _, shrunk⟩, left⟩
      · exact List.forall_mem_nil _
      obtain ⟨first, second, rfl, rfl⟩ := tries.of_fits fits
      obtain ⟨kept, taken, others, listed, length, rfl⟩ := (removeAt_takes taking).of_ok
      obtain ⟨rfl, same⟩ := List.append_inj listed length
      cases same
      have room_left : index.format.size target.form entry.row ≤
          lowest index.pageSize (first ++ second) := le_lowest_of_fits (.of_holding _ _) fits
      have grown := Packed.insertBetween packed room_left
      have rows : (insertBetween index.pageSize (index.format.size target.form entry.row) entry.row
          first second).map RowEntry.row =
            first.map RowEntry.row ++ entry.row :: second.map RowEntry.row := rows_insertBetween ..
      show ∀ attempt ∈ moveAttempts index before.length n
        (({ target with written := false } : Leaf).holding _)
        (({ leaf with written := false } : Leaf).holding
          (before ++ shiftUp (lowest index.pageSize before - entry.offset) rest)) left,
          attempt.turns = false
      refine ih grown ?_ (by rw [shiftUp, List.length_map]; omega)
      rw [rows, rows_shiftUp, length_insertBetween]
      simp only [RowEntry.room, List.map_append, List.map_cons, List.sum_append, List.sum_cons,
        List.length_append, shiftUp, List.length_map, headerLength, entryLength] at room ⊢
      omega
    · exact List.forall_mem_nil _

/-- No row that a split moves turns the new leaf, if the layout of the leaf that is split is in
order. -/
theorem splitAttempts_fit (standard : index.Standard) (shows : leaf.Shows index entries)
    (checked : (leaf.holding entries).checkLayout index = .ok ()) (point : Nat) (engine : Engine) :
    ∀ attempt ∈ splitAttempts index point leaf engine, attempt.turns = false := by
  obtain ⟨_, stacked, clear, _⟩ := Sorted.of_checkLayout shows checked
  rw [shows.start] at clear
  rw [splitAttempts]
  by_cases outside : point = 0 ∨ leaf.count ≤ point
  · rw [if_pos outside]
    exact nofun
  rw [if_neg outside]
  rcases Engine.allocatePage.on engine with ⟨fault | id, between⟩
  · exact nofun
  obtain ⟨n, _, loads⟩ := shows.loadRows
  have count := shows.count
  have inside : point ≤ entries.length := by omega
  have length : (entries.take point).length = point := List.length_take_of_le inside
  have left : (entries.drop point).length = leaf.count - point := by
    rw [List.length_drop, count]
  have used := stacked.room_le
  rw [← List.take_append_drop point entries, List.map_append, RowEntry.room, List.map_append,
    List.sum_append, List.take_append_drop] at used
  have fits := @moveAttempts_fit index leaf (between.counted .rowsDecoded n) [] standard
    (create index id leaf.parent leaf.form) (entries.take point) (entries.drop point) trivial (by
      simp only [RowEntry.room, headerLength, entryLength, List.length_nil, List.map_nil,
        List.sum_nil, create] at used clear ⊢
      omega)
  rw [length, left, List.take_append_drop] at fits
  simp only [loads]
  exact fits

end

end Leaf

end SlottedLeaf
