import SlottedLeaf.Proofs.Effects

/-!
# Leaves with nothing left to decode

Once every row of a leaf is decoded, no call on it decodes a row again, and every row stays decoded
whatever becomes of it: moved, packed, or taken to another leaf. That holds of calls that fail as
well. The argument goes by the parts that calls are put together from.
-/

namespace SlottedLeaf

variable {α β : Type} {index : Index}

/-- The leaf of a page, with every row decoded. -/
structure Leaf.Loaded (page : PageId) (leaf : Leaf) : Prop where
  id : leaf.id = page
  rows : ∀ slot ∈ leaf.slots, slot.row.isSome

namespace Leaf

variable {leaf later : Leaf} {page : PageId} {n : Nat}

/-- Where nothing is left to decode, decoding changes nothing. -/
theorem Loaded.of_decodes (loaded : leaf.Loaded page) (decodes : leaf.Decodes index n later) :
    n = 0 ∧ later = leaf := by
  have still : ∀ {decode : Nat → Except Fault Row} {slots rest : List Slot} {n : Nat},
      (∀ slot ∈ slots, slot.row.isSome) → Slot.Decodes decode slots n rest →
        n = 0 ∧ rest = slots := by
    intro decode slots rest n known decodes
    induction decodes with
    | nil => exact ⟨rfl, rfl⟩
    | keep slot _ ih =>
      obtain ⟨none, same⟩ := ih fun other member => known other (List.mem_cons_of_mem slot member)
      exact ⟨none, by rw [same]⟩
    | decode _ _ _ => exact absurd (known _ List.mem_cons_self) (by simp)
  obtain ⟨none, same⟩ := still loaded.rows decodes.slots
  refine ⟨none, ?_⟩
  rw [decodes.rest, same]

theorem loaded_create (index : Index) (page : PageId) (parent : Option PageId) (form : RowForm) :
    (create index page parent form).Loaded page := by
  refine ⟨rfl, ?_⟩
  intro slot member
  cases member

/-! ## Slots that move -/

private theorem mapM_rows {f : Slot → Except Fault Slot} {slots moved : List Slot}
    (keeps : ∀ slot later, f slot = .ok later → later.row = slot.row)
    (run : slots.mapM f = .ok moved) : moved.map Slot.row = slots.map Slot.row := by
  induction slots generalizing moved with
  | nil =>
    cases run
    rfl
  | cons slot rest ih =>
    rw [List.mapM_cons] at run
    obtain ⟨later, here, run⟩ := except_bind_ok run
    obtain ⟨others, there, run⟩ := except_bind_ok run
    cases run
    rw [List.map_cons, List.map_cons, keeps slot later here, ih there]

private theorem isSome_of_rows {slots later : List Slot}
    (same : later.map Slot.row = slots.map Slot.row) (known : ∀ slot ∈ slots, slot.row.isSome) :
    ∀ slot ∈ later, slot.row.isSome := by
  intro slot member
  have there : slot.row ∈ slots.map Slot.row := same ▸ List.mem_map_of_mem member
  obtain ⟨other, inside, equal⟩ := List.mem_map.mp there
  rw [← equal]
  exact known other inside

theorem isSome_of_insertSlot {pageSize slot length : Nat} {row : Row} {slots later : List Slot}
    (run : insertSlot pageSize slot length row slots = .ok later)
    (known : ∀ slot ∈ slots, slot.row.isSome) : ∀ slot ∈ later, slot.row.isSome := by
  rw [insertSlot] at run
  obtain ⟨moved, shift, run⟩ := except_bind_ok run
  obtain ⟨offset, _, run⟩ := except_bind_ok run
  cases run
  have kept : moved.map Slot.row = (slots.drop slot).map Slot.row := by
    apply mapM_rows _ shift
    intro other later here
    obtain ⟨_, _, here⟩ := except_bind_ok here
    cases here
    rfl
  intro other member
  rcases List.mem_append.mp member with early | late
  · exact known other (List.mem_of_mem_take early)
  · rcases List.mem_cons.mp late with rfl | late
    · rfl
    · exact isSome_of_rows kept (fun slot inside => known slot (List.mem_of_mem_drop inside))
        other late

theorem isSome_of_removeSlot {slot length : Nat} {slots : List Slot}
    (known : ∀ slot ∈ slots, slot.row.isSome) :
    ∀ other ∈ removeSlot slot length slots, other.row.isSome := by
  intro other member
  rcases List.mem_append.mp member with early | late
  · exact known other (List.mem_of_mem_take early)
  · obtain ⟨former, inside, rfl⟩ := List.mem_map.mp late
    exact known former (List.mem_of_mem_drop inside)

theorem isSome_of_packSlots {size : Row → Nat} {ceiling : Nat} {slots later : List Slot}
    (run : packSlots size ceiling slots = .ok later) : ∀ slot ∈ later, slot.row.isSome := by
  induction slots generalizing ceiling later with
  | nil =>
    cases run
    intro slot member
    cases member
  | cons slot rest ih =>
    obtain ⟨offset, _ | row⟩ := slot
    · cases run
    · rw [packSlots] at run
      obtain ⟨_, run⟩ := except_guard_ok run
      obtain ⟨others, packed, run⟩ := except_bind_ok run
      cases run
      intro other member
      rcases List.mem_cons.mp member with rfl | member
      · rfl
      · exact ih packed other member

end Leaf

/-! ## Calls -/

/-- On a leaf of the page with every row decoded the call decodes none and leaves every row decoded,
and `good` holds of what it gives. -/
def LeafCall.Settles (page : PageId) (call : LeafCall α) (good : α → Prop) : Prop :=
  ∀ leaf engine, leaf.Loaded page → (call.on leaf engine).1.2.Loaded page ∧
    (call.on leaf engine).2.stats.rowsDecoded = engine.stats.rowsDecoded ∧
    ∀ value, (call.on leaf engine).1.1 = .ok value → good value

namespace LeafCall

variable {page : PageId} {call other : LeafCall α} {next : α → LeafCall β} {good : α → Prop}
  {fine : β → Prop}

theorem Settles.imp {better : α → Prop} (settles : call.Settles page good)
    (weaker : ∀ value, good value → better value) : call.Settles page better := by
  intro leaf engine loaded
  obtain ⟨stays, count, given⟩ := settles leaf engine loaded
  exact ⟨stays, count, fun value same => weaker value (given value same)⟩

theorem Settles.bind (first : call.Settles page good)
    (second : ∀ value, good value → (next value).Settles page fine) :
    (call >>= next).Settles page fine := by
  intro leaf engine loaded
  have start := first leaf engine loaded
  rw [on_bind]
  rcases run : call.on leaf engine with ⟨⟨fault | value, middle⟩, between⟩ <;> rw [run] at start
  · refine ⟨start.1, start.2.1, ?_⟩
    intro value same
    cases same
  · obtain ⟨stays, count, given⟩ := second value (start.2.2 value rfl) middle between start.1
    exact ⟨stays, count.trans start.2.1, given⟩

theorem Settles.ite {condition : Prop} [Decidable condition] (first : call.Settles page good)
    (second : other.Settles page good) :
    (if condition then call else other).Settles page good := by
  by_cases holds : condition
  · rw [if_pos holds]
    exact first
  · rw [if_neg holds]
    exact second

/-- A call that only looks has nothing to decode. -/
theorem Peeks.settles (peeks : call.Peeks index) (page : PageId) :
    call.Settles page fun _ => True := by
  intro leaf engine loaded
  obtain ⟨outcome, n, later, decodes, run⟩ := peeks.on leaf engine
  obtain ⟨rfl, rfl⟩ := loaded.of_decodes decodes
  rw [run, Engine.counted_zero]
  exact ⟨loaded, rfl, fun _ _ => trivial⟩

/-- A call that leaves the leaf and the count of decoded rows alone. -/
theorem Settles.of_still (leaf_same : ∀ leaf engine, (call.on leaf engine).1.2 = leaf)
    (count_same : ∀ leaf engine,
      (call.on leaf engine).2.stats.rowsDecoded = engine.stats.rowsDecoded) :
    call.Settles page fun _ => True := by
  intro leaf engine loaded
  rw [leaf_same, count_same]
  exact ⟨loaded, rfl, fun _ _ => trivial⟩

theorem settles_pure {value : α} (holds : good value) :
    (pure value : LeafCall α).Settles page good := by
  intro leaf engine loaded
  refine ⟨loaded, rfl, ?_⟩
  intro given same
  cases same
  exact holds

theorem settles_throw (fault : Fault) : (throw fault : LeafCall α).Settles page good := by
  intro leaf engine loaded
  refine ⟨loaded, rfl, ?_⟩
  intro value same
  cases same

theorem settles_get : (get : LeafCall Leaf).Settles page (Leaf.Loaded page) := by
  intro leaf engine loaded
  refine ⟨loaded, rfl, ?_⟩
  intro value same
  cases same
  exact loaded

theorem settles_set {new : Leaf} (loaded : new.Loaded page) :
    (set new : LeafCall PUnit).Settles page fun _ => True :=
  fun _ _ _ => ⟨loaded, rfl, fun _ _ => trivial⟩

theorem settles_modify {change : Leaf → Leaf}
    (keeps : ∀ leaf : Leaf, leaf.Loaded page → (change leaf).Loaded page) :
    (modify change : LeafCall PUnit).Settles page fun _ => True :=
  fun leaf _ loaded => ⟨keeps leaf loaded, rfl, fun _ _ => trivial⟩

theorem settles_ofExcept (outcome : Except Fault α) :
    (MonadExcept.ofExcept outcome : LeafCall α).Settles page fun value => outcome = .ok value := by
  intro leaf engine loaded
  rw [on_ofExcept]
  exact ⟨loaded, rfl, fun _ same => same⟩

theorem settles_count {counter : Counter} (other : counter ≠ .rowsDecoded) (amount : Nat) :
    (liftM (Engine.count counter amount) : LeafCall Unit).Settles page fun _ => True := by
  refine .of_still (fun _ _ => rfl) ?_
  intro leaf engine
  have same := Stats.get_add engine.stats counter .rowsDecoded amount
  rwa [if_neg (Ne.symm other)] at same

theorem settles_report (event : Event) :
    (liftM (Engine.report event) : LeafCall Unit).Settles page fun _ => True :=
  .of_still (fun _ _ => rfl) fun _ _ => rfl

theorem settles_notePage (noted : PageId) :
    (liftM (Engine.notePage noted) : LeafCall Unit).Settles page fun _ => True := by
  refine .of_still (fun _ _ => rfl) ?_
  intro leaf engine
  simp only [on_engine, Engine.notePage, EngineCall.on_bind, EngineCall.on_get,
    EngineCall.on_ofExcept]
  cases engine.store.note noted <;> rfl

theorem settles_writePage (written : PageId) (image : Buffer) :
    (liftM (Engine.writePage written image) : LeafCall Unit).Settles page fun _ => True := by
  refine .of_still (fun _ _ => rfl) ?_
  intro leaf engine
  simp only [on_engine, Engine.writePage, EngineCall.on_bind, EngineCall.on_get,
    EngineCall.on_ofExcept]
  cases engine.store.write written image <;> rfl

/-- A call that may end early settles the leaf if the rest of it does. -/
theorem Settles.unless {condition : Prop} [Decidable condition] {fault : Fault}
    {rest : PUnit → LeafCall α} (settles : (rest ⟨⟩).Settles page good) :
    (if condition then (throw fault : LeafCall PUnit) >>= rest else rest ⟨⟩).Settles page good :=
  .ite (settles_throw fault) settles

theorem Settles.onOther {target : Leaf} (settles : call.Settles target.id good)
    (loaded : target.Loaded target.id) :
    (call.onOther target).Settles page
      fun answer => good answer.1 ∧ answer.2.Loaded answer.2.id := by
  intro leaf engine here
  obtain ⟨stays, count, given⟩ := settles target engine loaded
  rw [on_onOther]
  rcases run : call.on target engine with ⟨⟨fault | value, after⟩, between⟩ <;>
    rw [run] at stays count given
  · refine ⟨here, count, ?_⟩
    intro answer same
    cases same
  · refine ⟨here, count, ?_⟩
    intro answer same
    cases same
    exact ⟨given value rfl, rfl, stays.rows⟩

/-- The call begins by decoding every row, and never decodes one again. -/
def Loads (index : Index) (call : LeafCall α) (good : α → Prop) : Prop :=
  ∃ rest : LeafCall α, call = (Leaf.loadRows index >>= fun _ => rest) ∧
    ∀ page, rest.Settles page good

theorem Loads.settles (loads : call.Loads index good) (page : PageId) :
    call.Settles page good := by
  obtain ⟨rest, rfl, settles⟩ := loads
  exact ((Leaf.loadRows_peeks index).settles page).bind fun _ _ => settles page

end LeafCall

open LeafCall

namespace Leaf

variable {page : PageId}

theorem place_settles (index : Index) (slot : Nat) (row : Row) :
    (place index slot row).Settles page fun _ => True := by
  refine settles_get.bind ?_
  intro leaf loaded
  refine (settles_ofExcept _).bind ?_
  intro slots placed
  apply Settles.bind (settles_set ?_)
  · intro _ _
    refine settles_get.bind fun _ _ => (settles_ofExcept _).bind fun _ _ => ?_
    refine (settles_notePage leaf.id).bind fun _ _ => ?_
    exact (settles_count (by decide) _).bind fun _ _ => settles_report _
  · exact ⟨loaded.id, isSome_of_insertSlot placed loaded.rows⟩

theorem compact_settles (index : Index) : (compact index).Settles page fun _ => True := by
  refine settles_get.bind ?_
  intro former loaded
  apply Settles.bind (settles_modify ?_)
  · intro _ _
    refine (settles_ofExcept _).bind ?_
    intro slots packed
    apply Settles.bind (settles_modify ?_)
    · intro _ _
      apply Settles.ite
      · exact (settles_count (by decide) _).bind fun _ _ => settles_report _
      · exact settles_pure trivial
    · intro leaf here
      exact ⟨here.id, isSome_of_packSlots packed⟩
  · intro leaf here
    exact ⟨here.id, here.rows⟩

theorem insert_loads (index : Index) (row : Row) :
    (insert index row).Loads index fun _ => True := by
  refine ⟨_, rfl, ?_⟩
  intro page
  refine ((search_peeks index .insertion row).settles page).bind fun slot _ => ?_
  refine settles_get.bind fun leaf _ => ?_
  apply Settles.ite
  · exact (place_settles index slot row).bind fun _ _ => settles_pure trivial
  apply Settles.ite
  · exact (settles_count (by decide) _).bind fun _ _ => (settles_report _).bind fun _ _ =>
      settles_pure trivial
  refine (compact_settles index).bind fun _ _ => settles_get.bind fun turned _ => ?_
  exact .unless ((place_settles index slot row).bind fun _ _ => settles_pure trivial)

theorem removeAt_loads (index : Index) (slot : Nat) :
    (removeAt index slot).Loads index fun _ => True := by
  refine ⟨_, rfl, ?_⟩
  intro page
  refine settles_get.bind ?_
  intro leaf loaded
  refine .unless (.unless ((settles_ofExcept _).bind ?_))
  rintro ⟨start, stop⟩ _
  apply Settles.bind (settles_set ?_)
  · intro _ _
    refine settles_get.bind fun _ _ => (settles_ofExcept _).bind fun _ _ => ?_
    exact (settles_count (by decide) _).bind fun _ _ => settles_report _
  · exact ⟨loaded.id, isSome_of_removeSlot loaded.rows⟩

theorem moveRows_settles (index : Index) (slot n : Nat) {target : Leaf}
    (loaded : target.Loaded target.id) :
    (moveRows index slot n target).Settles page fun right => right.Loaded right.id := by
  induction n generalizing target with
  | zero => exact settles_pure loaded
  | succ n ih =>
    refine ((row_peeks index slot).settles page).bind fun moving _ => ?_
    refine (((insert_loads index moving).settles target.id).onOther loaded).bind ?_
    rintro ⟨_ | point, target⟩ ⟨_, stays⟩
    · exact ((removeAt_loads index slot).settles page).bind fun _ _ => ih stays
    · exact settles_throw _

/-- Rendering decodes every row, and so does a write that renders. -/
theorem rendered_loads (index : Index) {rest : LeafCall α}
    (settles : ∀ page, rest.Settles page fun _ => True) :
    (render index >>= fun _ => rest).Loads index fun _ => True := by
  refine ⟨_, bind_assoc .., ?_⟩
  intro page
  apply Settles.bind
  · apply settles_get.bind
    intro leaf loaded
    apply Settles.unless
    apply Settles.bind (settles_set ?_)
    · intro _ _
      exact (settles_ofExcept _).imp fun _ _ => trivial
    · exact ⟨loaded.id, loaded.rows⟩
  · intro _ _
    exact settles page

end Leaf

end SlottedLeaf
