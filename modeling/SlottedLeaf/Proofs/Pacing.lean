import SlottedLeaf.Proofs.Settled

/-!
# Calls on a leaf, decoded or not

A leaf that was read and a leaf on which every row was decoded at once answer every call alike. The
relation between the two (`Leaf.Ahead`) says how many rows are left to decode on the first. Calls
that only look at rows keep it, each in its own time; a call that changes rows decodes all of them
first, and from there on the two leaves are the same.
-/

namespace SlottedLeaf

variable {α β : Type} {index : Index}

/-! ## A leaf and the same leaf with every row decoded -/

/-- `early` is `lazy` with the last `n` rows decoded. What is not decoded on `lazy` stands where it
did on the original, in the same image. -/
structure Leaf.Ahead (index : Index) (original lazy : Leaf) (n : Nat) (early : Leaf) : Prop where
  decodes : lazy.Decodes index n early
  loaded : early.Loaded original.id
  untouched : ∀ (slot offset : Nat), lazy.slots[slot]? = some ⟨offset, none⟩ →
    original.offsets[slot]? = some offset ∧ lazy.image = original.image

namespace Slot.Decodes

variable {decode : Nat → Except Fault Row} {slots later : List Slot} {n : Nat}

/-- Decoding every slot gives the later slots, if nothing is left to decode on them. -/
theorem decodeSlots_eq (decodes : Decodes decode slots n later)
    (loaded : ∀ slot ∈ later, slot.row.isSome) :
    Leaf.decodeSlots decode slots = (later, n, .ok ()) := by
  induction decodes with
  | nil => rfl
  | @keep slot _ _ _ _ ih =>
    have rest := ih fun other member => loaded other (List.mem_cons_of_mem _ member)
    obtain ⟨offset, _ | row⟩ := slot
    · exact absurd (loaded _ List.mem_cons_self) (by simp)
    · rw [Leaf.decodeSlots, rest]
  | decode here _ ih =>
    have rest := ih fun other member => loaded other (List.mem_cons_of_mem _ member)
    simp only [Leaf.decodeSlots, here, rest]

/-- A slot that is decoded stays as it is. -/
theorem getElem?_known (decodes : Decodes decode slots n later) {i offset : Nat} {row : Row}
    (here : slots[i]? = some ⟨offset, some row⟩) : later[i]? = some ⟨offset, some row⟩ := by
  induction decodes generalizing i with
  | nil => cases here
  | keep slot _ ih =>
    cases i with
    | zero => exact here
    | succ i => exact ih here
  | decode _ _ ih =>
    cases i with
    | zero => cases here
    | succ i => exact ih here

/-- A slot that is not decoded is one of those to be decoded, so decoding it leaves one less. -/
theorem getElem?_unknown (decodes : Decodes decode slots n later)
    (loaded : ∀ slot ∈ later, slot.row.isSome) {i offset : Nat}
    (here : slots[i]? = some ⟨offset, none⟩) :
    ∃ row m, n = m + 1 ∧ decode offset = .ok row ∧ later[i]? = some ⟨offset, some row⟩ ∧
      Decodes decode (slots.set i ⟨offset, some row⟩) m later := by
  induction decodes generalizing i with
  | nil => cases here
  | keep slot rest ih =>
    have known := fun other member => loaded other (List.mem_cons_of_mem _ member)
    cases i with
    | zero =>
      cases here
      exact absurd (loaded _ List.mem_cons_self) (by simp)
    | succ i =>
      obtain ⟨row, m, rfl, decoded, shown, fewer⟩ := ih known here
      exact ⟨row, m, rfl, decoded, shown, .keep slot fewer⟩
  | decode first rest ih =>
    have known := fun other member => loaded other (List.mem_cons_of_mem _ member)
    cases i with
    | zero =>
      cases here
      exact ⟨_, _, rfl, first, rfl, .keep _ rest⟩
    | succ i =>
      obtain ⟨row, m, rfl, decoded, shown, fewer⟩ := ih known here
      exact ⟨row, m + 1, rfl, decoded, shown, .decode first fewer⟩

end Slot.Decodes

namespace Leaf

variable {original lazy early leaf : Leaf} {n : Nat} {page : PageId}

theorem Loaded.known (loaded : leaf.Loaded page) (slot offset : Nat) :
    leaf.slots[slot]? ≠ some ⟨offset, none⟩ := by
  intro here
  exact absurd (loaded.rows _ (List.mem_of_getElem? here)) (by simp)

/-- A leaf with every row decoded is ahead of itself. -/
theorem Loaded.ahead (loaded : leaf.Loaded original.id) : Ahead index original leaf 0 leaf :=
  ⟨.refl leaf, loaded, fun slot offset here => absurd here (loaded.known slot offset)⟩

theorem Ahead.id (ahead : Ahead index original lazy n early) : lazy.id = original.id :=
  ahead.decodes.id.symm.trans ahead.loaded.id

/-- Decoding all rows takes the one leaf to the other. -/
theorem Ahead.loadRows (ahead : Ahead index original lazy n early) (engine : Engine) :
    (loadRows index).on lazy engine = ((.ok (), early), engine.counted .rowsDecoded n) := by
  rw [loadRows_on, ahead.decodes.slots.decodeSlots_eq ahead.loaded.rows, ← ahead.decodes.rest]

theorem Loaded.loadRows (loaded : leaf.Loaded page) (engine : Engine) :
    (Leaf.loadRows index).on leaf engine = ((.ok (), leaf), engine) := by
  rw [loadRows_on, (Slot.Decodes.refl leaf.slots).decodeSlots_eq loaded.rows,
    Engine.counted_zero]

/-- Decoding one more row leaves one less to decode. -/
theorem Ahead.decode {m slot offset : Nat} {row : Row} (ahead : Ahead index original lazy n early)
    (here : lazy.slots[slot]? = some ⟨offset, none⟩)
    (decoded : lazy.decodeAt index offset = .ok row)
    (fewer : Slot.Decodes (lazy.decodeAt index) (lazy.slots.set slot ⟨offset, some row⟩) m
      early.slots) :
    Ahead index original { lazy with slots := lazy.slots.set slot ⟨offset, some row⟩ } m early := by
  have one : lazy.Decodes index 1 { lazy with slots := lazy.slots.set slot ⟨offset, some row⟩ } :=
    ⟨rfl, .set here decoded⟩
  refine ⟨⟨ahead.decodes.rest, ?_⟩, ahead.loaded, ?_⟩
  · rw [one.decodeAt]
    exact fewer
  · intro other place unknown
    have unset : (lazy.slots.set slot ⟨offset, some row⟩)[other]? = some ⟨place, none⟩ := unknown
    by_cases same : slot = other
    · subst same
      simp [List.getElem?_set] at unset
    · rw [List.getElem?_set_ne same] at unset
      exact ahead.untouched other place unset

end Leaf

/-! ## Calls on both -/

/-- The call answers alike on a leaf and on the same leaf with every row decoded, and leaves such a
pair behind. Between them the rows decoded and those left to decode stay as many. -/
def LeafCall.Paces (index : Index) (call : LeafCall α) (good : α → Leaf → Prop) : Prop :=
  ∀ (original lazy early : Leaf) (n : Nat), Leaf.Ahead index original lazy n early →
    ∀ engine, ∃ outcome later m ahead after,
      call.on lazy engine = ((outcome, later), after) ∧
      call.on early (engine.counted .rowsDecoded n) =
        ((outcome, ahead), after.counted .rowsDecoded m) ∧
      Leaf.Ahead index original later m ahead ∧
      after.stats.rowsDecoded + m = engine.stats.rowsDecoded + n ∧
      ∀ value, outcome = .ok value → good value later

namespace LeafCall

open Leaf

variable {call : LeafCall α} {next : α → LeafCall β} {good : α → Leaf → Prop}
  {fine : β → Leaf → Prop}

theorem Paces.imp {better : α → Leaf → Prop} (paces : call.Paces index good)
    (weaker : ∀ value leaf, good value leaf → better value leaf) : call.Paces index better := by
  intro original lazy early n ahead engine
  obtain ⟨outcome, later, m, earlier, after, run, rerun, stays, count, given⟩ :=
    paces original lazy early n ahead engine
  exact ⟨outcome, later, m, earlier, after, run, rerun, stays, count,
    fun value same => weaker value later (given value same)⟩

theorem Paces.bind (first : call.Paces index good)
    (second : ∀ value, (next value).Paces index fine) : (call >>= next).Paces index fine := by
  intro original lazy early n ahead engine
  obtain ⟨outcome, middle, m, earlier, between, run, rerun, stays, count, _⟩ :=
    first original lazy early n ahead engine
  cases outcome with
  | error fault =>
    refine ⟨.error fault, middle, m, earlier, between, ?_, ?_, stays, count, ?_⟩
    · rw [on_bind, run]
    · rw [on_bind, rerun]
    · intro value same
      cases same
  | ok value =>
    obtain ⟨outcome, later, k, earliest, after, onward, again, keeps, sum, given⟩ :=
      second value original middle earlier m stays between
    refine ⟨outcome, later, k, earliest, after, ?_, ?_, keeps, sum.trans count, given⟩
    · rw [on_bind, run]
      exact onward
    · rw [on_bind, rerun]
      exact again

theorem Paces.ite {condition : Prop} [Decidable condition] {other : LeafCall α}
    (first : call.Paces index good) (second : other.Paces index good) :
    (if condition then call else other).Paces index good := by
  by_cases holds : condition
  · rw [if_pos holds]
    exact first
  · rw [if_neg holds]
    exact second

theorem paces_pure (value : α) : (pure value : LeafCall α).Paces index fun _ _ => True :=
  fun _ _ _ _ ahead _ => ⟨_, _, _, _, _, rfl, rfl, ahead, rfl, fun _ _ => trivial⟩

theorem paces_throw (fault : Fault) : (throw fault : LeafCall α).Paces index good := by
  intro original lazy early n ahead engine
  refine ⟨_, _, _, _, _, rfl, rfl, ahead, rfl, ?_⟩
  intro value same
  cases same

theorem Paces.unless {condition : Prop} [Decidable condition] {fault : Fault}
    {rest : PUnit → LeafCall α} (paces : (rest ⟨⟩).Paces index good) :
    (if condition then (throw fault : LeafCall PUnit) >>= rest else rest ⟨⟩).Paces index good :=
  .ite (paces_throw fault) paces

/-- A call that goes by what the two leaves have in common. -/
theorem Paces.look {next : Leaf → LeafCall β}
    (same : ∀ {leaf later : Leaf} {n : Nat}, leaf.Decodes index n later → next later = next leaf)
    (paces : ∀ leaf, (next leaf).Paces index fine) :
    ((get : LeafCall Leaf) >>= next).Paces index fine := by
  intro original lazy early n ahead engine
  obtain ⟨outcome, later, m, earlier, after, run, rerun, rest⟩ :=
    paces lazy original lazy early n ahead engine
  refine ⟨outcome, later, m, earlier, after, ?_, ?_, rest⟩
  · rw [on_get_bind, run]
  · rw [on_get_bind, same ahead.decodes, rerun]

/-- A call on the engine that neither counts rows as decoded nor asks how many were. -/
theorem Paces.of_engine {call : EngineCall α}
    (blind : ∀ engine n, call.on (engine.counted .rowsDecoded n) =
      ((call.on engine).1, (call.on engine).2.counted .rowsDecoded n))
    (still : ∀ engine, (call.on engine).2.stats.rowsDecoded = engine.stats.rowsDecoded) :
    (liftM call : LeafCall α).Paces index fun _ _ => True := by
  intro original lazy early n ahead engine
  refine ⟨_, lazy, n, early, _, on_engine .., ?_, ahead, ?_, fun _ _ => trivial⟩
  · rw [on_engine, blind]
  · rw [still]

theorem paces_report (event : Event) :
    (liftM (Engine.report event) : LeafCall Unit).Paces index fun _ _ => True :=
  fun _ _ _ _ ahead _ => ⟨_, _, _, _, _, rfl, rfl, ahead, rfl, fun _ _ => trivial⟩

theorem paces_allocatePage :
    (liftM Engine.allocatePage : LeafCall PageId).Paces index fun _ _ => True := by
  refine .of_engine ?_ ?_
  · intro engine n
    simp only [Engine.allocatePage, EngineCall.on_bind, EngineCall.on_get, EngineCall.on_ofExcept,
      Engine.store_counted]
    cases engine.store.allocate with
    | error fault => rfl
    | ok answer =>
      obtain ⟨page, store⟩ := answer
      cases store <;> rfl
  · intro engine
    simp only [Engine.allocatePage, EngineCall.on_bind, EngineCall.on_get, EngineCall.on_ofExcept]
    cases engine.store.allocate with
    | error fault => rfl
    | ok answer =>
      obtain ⟨page, store⟩ := answer
      cases store <;> rfl

theorem paces_notePage (page : PageId) :
    (liftM (Engine.notePage page) : LeafCall Unit).Paces index fun _ _ => True := by
  refine .of_engine ?_ ?_
  · intro engine n
    simp only [Engine.notePage, EngineCall.on_bind, EngineCall.on_get, EngineCall.on_ofExcept,
      Engine.store_counted]
    cases engine.store.note page <;> rfl
  · intro engine
    simp only [Engine.notePage, EngineCall.on_bind, EngineCall.on_get, EngineCall.on_ofExcept]
    cases engine.store.note page <;> rfl

/-- Once a call has decoded every row, both leaves are the same, and what follows is one run. -/
theorem Loads.paces {good : α → Prop} (loads : call.Loads index good) :
    call.Paces index fun value later => good value ∧ later.Loaded later.id := by
  obtain ⟨rest, rfl, settles⟩ := loads
  intro original lazy early n ahead engine
  obtain ⟨stays, count, given⟩ :=
    settles original.id early (engine.counted .rowsDecoded n) ahead.loaded
  rcases run : rest.on early (engine.counted .rowsDecoded n) with ⟨⟨outcome, later⟩, after⟩
  rw [run] at stays count given
  refine ⟨outcome, later, 0, later, after, ?_, ?_, stays.ahead, count, ?_⟩
  · rw [on_bind, ahead.loadRows]
    exact run
  · rw [on_bind, ahead.loaded.loadRows, Engine.counted_zero]
    exact run
  · intro value same
    exact ⟨given value same, rfl, stays.rows⟩

end LeafCall

open LeafCall

namespace Leaf

theorem row_paces (index : Index) (slot : Nat) :
    (row index slot).Paces index fun _ _ => True := by
  intro original lazy early n ahead engine
  have length : early.slots.length = lazy.slots.length := ahead.decodes.slots.length
  rcases here : lazy.slots[slot]? with _ | ⟨offset, _ | known⟩
  · have there : early.slots[slot]? = none :=
      List.getElem?_eq_none (length ▸ List.getElem?_eq_none_iff.mp here)
    refine ⟨.error (.invalid .slotOutOfRange), lazy, n, early, engine, ?_, ?_, ahead, rfl,
      fun _ _ => trivial⟩
    · rw [row_on, here]
    · rw [row_on, there]
  · obtain ⟨known, m, rfl, decoded, there, fewer⟩ :=
      ahead.decodes.slots.getElem?_unknown ahead.loaded.rows here
    refine ⟨.ok known, { lazy with slots := lazy.slots.set slot ⟨offset, some known⟩ }, m, early,
      engine.counted .rowsDecoded 1, ?_, ?_, ahead.decode here decoded fewer, ?_,
      fun _ _ => trivial⟩
    · simp only [row_on, here, decoded]
    · simp only [row_on, there, Engine.counted_counted, Nat.add_comm]
    · show engine.stats.rowsDecoded + 1 + m = _
      rw [Nat.add_assoc, Nat.add_comm 1 m]
  · have there := ahead.decodes.slots.getElem?_known here
    refine ⟨.ok known, lazy, n, early, engine, ?_, ?_, ahead, rfl, fun _ _ => trivial⟩
    · rw [row_on, here]
    · rw [row_on, there]

theorem searchBetween_paces (index : Index) (aim : Aim) (target : Row) (low high : Nat) :
    (searchBetween index aim target low high).Paces index fun _ _ => True := by
  induction low, high using searchBetween.induct with
  | case1 low high inside middle after before =>
    rw [searchBetween, if_pos inside]
    refine (row_paces index middle).bind ?_
    intro row
    cases aim.turn index target row with
    | after => exact after
    | before => exact before
    | found => exact paces_pure _
    | clash => exact .look (fun decodes => by rw [decodes.id]) fun _ => paces_throw _
  | case2 low high empty =>
    rw [searchBetween, if_neg empty]
    exact paces_pure _

theorem search_paces (index : Index) (aim : Aim) (target : Row) :
    (search index aim target).Paces index fun _ _ => True :=
  .look (fun decodes => by rw [decodes.count]) fun _ => searchBetween_paces index aim target 0 _

theorem seek_paces (index : Index) (target : Row) (past : Bool) :
    (seek index target past).Paces index fun _ _ => True := by
  refine (search_paces index (.bound past) target).bind ?_
  intro slot
  refine .look (fun decodes => by rw [decodes.count, decodes.parent]) ?_
  intro leaf
  apply Paces.ite
  · exact paces_pure _
  · cases leaf.parent with
    | none => exact paces_pure _
    | some node => exact paces_pure _

theorem holds_paces (index : Index) (slot : Nat) (target : Row) :
    (holds index slot target).Paces index fun _ _ => True := by
  refine .look (fun decodes => by rw [decodes.count]) ?_
  intro leaf
  apply Paces.ite
  · exact (row_paces index slot).bind fun _ => paces_pure _
  · exact paces_pure _

theorem rows_loads (index : Index) : (rows index).Loads index fun _ => True := by
  refine ⟨_, rfl, ?_⟩
  intro page
  refine settles_get.bind ?_
  intro leaf _
  exact (settles_ofExcept _).imp fun _ _ => trivial

theorem remove_paces (index : Index) (target : Row) :
    (remove index target).Paces index fun _ _ => True := by
  refine (search_paces index .removal target).bind ?_
  intro slot
  refine (holds_paces index slot target).bind ?_
  intro held
  apply Paces.ite
  · refine .look (fun decodes => by rw [decodes.id]) ?_
    intro leaf
    exact paces_throw _
  refine .look (fun decodes => by rw [decodes.count]) ?_
  intro leaf
  apply Paces.ite
  · refine (row_paces index slot).bind fun only => ?_
    refine .look (fun decodes => by rw [decodes.id]) fun leaf => ?_
    exact (paces_report _).bind fun _ => paces_pure _
  refine (removeAt_loads index slot).paces.bind fun _ => ?_
  refine .look (fun decodes => by rw [decodes.id]) fun leaf => ?_
  refine (paces_notePage leaf.id).bind fun _ => ?_
  refine .look (fun decodes => by rw [decodes.count]) fun leaf => ?_
  apply Paces.ite
  · exact (row_paces index (slot - 1)).bind fun last => paces_pure _
  · exact paces_pure _

theorem setParent_paces (index : Index) (parent : Option PageId) :
    (setParent parent).Paces index fun _ _ => True := by
  intro original lazy early n ahead engine
  have above : early.parent = lazy.parent := ahead.decodes.parent
  by_cases same : lazy.parent = parent
  · refine ⟨.ok (), lazy, n, early, engine, ?_, ?_, ahead, rfl, fun _ _ => trivial⟩
    · rw [setParent_on, if_pos same]
    · rw [setParent_on, if_pos (above.trans same)]
  · refine ⟨.ok (), { lazy with parent, written := false }, n,
      { early with parent, written := false }, engine, ?_, ?_,
      ⟨⟨?_, ahead.decodes.slots⟩, ⟨?_, ?_⟩, ?_⟩, rfl, fun _ _ => trivial⟩
    · rw [setParent_on, if_neg same]
    · rw [setParent_on, if_neg fun equal => same (above.symm.trans equal)]
    · rw [ahead.decodes.rest]
    · exact ahead.loaded.id
    · exact ahead.loaded.rows
    · exact ahead.untouched

theorem write_paces (index : Index) : (write index).Paces index fun _ _ => True := by
  refine .look (fun decodes => by rw [decodes.isDirty]) ?_
  intro leaf
  apply Paces.ite
  · refine (rendered_loads index ?_).paces.imp fun _ _ _ => trivial
    intro page
    refine settles_get.bind ?_
    intro rendered loaded
    refine (settles_writePage rendered.id rendered.image).bind fun _ _ => ?_
    apply Settles.bind (settles_set ?_)
    · intro _ _
      exact (settles_count (by decide) _).bind fun _ _ => settles_report _
    · exact ⟨loaded.id, loaded.rows⟩
  · exact paces_pure _

theorem split_paces (index : Index) (point : Nat) :
    (split index point).Paces index fun right left =>
      right.Loaded right.id ∧ left.Loaded left.id := by
  refine .look ?_ ?_
  · intro leaf later n decodes
    simp only [decodes.count, decodes.id, decodes.parent, decodes.form]
  intro leaf
  refine .unless (paces_allocatePage.bind fun id => ?_)
  apply Loads.paces
  refine ⟨_, rfl, ?_⟩
  intro page
  refine (moveRows_settles index point (leaf.count - point)
    (loaded_create index id leaf.parent leaf.form)).bind ?_
  intro right loaded
  refine (settles_count (by decide) _).bind fun _ _ => (settles_report _).bind fun _ _ => ?_
  exact settles_pure loaded

end Leaf

end SlottedLeaf
