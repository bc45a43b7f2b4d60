import SlottedLeaf.Leaf.Split
import SlottedLeaf.Leaf.Image
import SlottedLeaf.Leaf.Walk
import SlottedLeaf.Proofs.Decoding
import SlottedLeaf.Proofs.Slots
import SlottedLeaf.Proofs.Stores
import Mathlib.Data.List.Pairwise

/-!
# Calls that only look

A call is made of smaller ones, one after the other, and what it leaves of the leaf and of the store
is put together from what they leave. The store only hands out pages and takes notes on the way. A
call that only looks decodes rows, on any leaf, and does nothing else.
-/

namespace SlottedLeaf

variable {α β : Type} {index : Index}

/-! ## What becomes of the store -/

/-- `later` is the store once it handed out pages and took notes of these, the latest first. -/
inductive Store.Works : Store → List PageId → Store → Prop where
  | rest {store : Store} : Works store [] store
  | allocate {store middle later : Store} {noted : List PageId} {page : PageId} :
      Works store noted middle → middle.allocate = .ok (page, later) → Works store noted later
  | note {store middle later : Store} {noted : List PageId} {page : PageId} :
      Works store noted middle → middle.note page = .ok later → Works store (page :: noted) later

theorem Store.Works.trans {store middle later : Store} {first second : List PageId}
    (works : store.Works first middle) (more : middle.Works second later) :
    store.Works (second ++ first) later := by
  induction more with
  | rest => exact works
  | allocate _ handed ih => exact ih.allocate handed
  | note _ taken ih => exact ih.note taken

namespace Engine

variable {engine after : Engine} {page : PageId}

theorem allocatePage_ok (run : allocatePage.on engine = (.ok page, after)) :
    engine.store.allocate = .ok (page, after.store) := by
  simp only [allocatePage, EngineCall.on_bind, EngineCall.on_get, EngineCall.on_ofExcept] at run
  cases handed : engine.store.allocate with
  | error fault =>
    rw [handed] at run
    cases run
  | ok answer =>
    obtain ⟨given, store⟩ := answer
    rw [handed] at run
    cases store <;> cases run <;> rfl

theorem allocatePage_error {fault : Fault} (run : allocatePage.on engine = (.error fault, after)) :
    after = engine := by
  simp only [allocatePage, EngineCall.on_bind, EngineCall.on_get, EngineCall.on_ofExcept] at run
  cases handed : engine.store.allocate with
  | error fault =>
    rw [handed] at run
    cases run
    rfl
  | ok answer =>
    obtain ⟨given, store⟩ := answer
    rw [handed] at run
    cases store <;> cases run

/-- A page that is handed out is not counted. -/
theorem allocatePage_stats (engine : Engine) :
    (allocatePage.on engine).2.stats = engine.stats := by
  simp only [allocatePage, EngineCall.on_bind, EngineCall.on_get, EngineCall.on_ofExcept]
  cases engine.store.allocate with
  | error fault => rfl
  | ok answer =>
    obtain ⟨page, store⟩ := answer
    cases store <;> rfl

theorem notePage_ok (run : (notePage page).on engine = (.ok (), after)) :
    engine.store.note page = .ok after.store := by
  simp only [notePage, EngineCall.on_bind, EngineCall.on_get, EngineCall.on_ofExcept] at run
  cases taken : engine.store.note page with
  | error fault =>
    rw [taken] at run
    cases run
  | ok store =>
    rw [taken] at run
    cases run
    rfl

theorem notePage_error {fault : Fault} (run : (notePage page).on engine = (.error fault, after)) :
    after = engine := by
  simp only [notePage, EngineCall.on_bind, EngineCall.on_get, EngineCall.on_ofExcept] at run
  cases taken : engine.store.note page with
  | error fault =>
    rw [taken] at run
    cases run
    rfl
  | ok store =>
    rw [taken] at run
    cases run

theorem writePage_on (page : PageId) (image : Buffer) (engine : Engine) :
    (writePage page image).on engine =
      match engine.store.write page image with
      | .error fault => (.error fault, engine)
      | .ok store => (.ok (), engine.stored store) := by
  rw [writePage, EngineCall.on_bind, EngineCall.on_get]
  simp only [EngineCall.on_bind, EngineCall.on_ofExcept]
  cases engine.store.write page image <;> rfl

end Engine

/-! ## Calls one after the other -/

namespace LeafCall

variable {leaf later : Leaf} {engine after : Engine}

/-- A call with this outcome ends somehow. -/
theorem on_eq {call : LeafCall α} {outcome : Except Fault α}
    (same : (call.on leaf engine).1.1 = outcome) :
    call.on leaf engine = ((outcome, (call.on leaf engine).1.2), (call.on leaf engine).2) := by
  rw [← same]

/-- A call that succeeds was not refused. -/
theorem on_guard_ok {refused : Prop} [Decidable refused] {fault : Fault} {rest : LeafCall α}
    {answer : α}
    (run : (if refused then throw fault else rest).on leaf engine = ((.ok answer, later), after)) :
    ¬ refused ∧ rest.on leaf engine = ((.ok answer, later), after) := by
  by_cases holds : refused
  · rw [if_pos holds] at run
    cases run
  · rw [if_neg holds] at run
    exact ⟨holds, run⟩

/-- A call that succeeds went through a first part that did. -/
theorem on_bind_ok {call : LeafCall α} {next : α → LeafCall β} {answer : β}
    (run : (call >>= next).on leaf engine = ((.ok answer, later), after)) :
    ∃ value middle between, call.on leaf engine = ((.ok value, middle), between) ∧
      (next value).on middle between = ((.ok answer, later), after) := by
  rw [on_bind] at run
  rcases first : call.on leaf engine with ⟨⟨fault | value, middle⟩, between⟩
  · rw [first] at run
    cases run
  · rw [first] at run
    exact ⟨value, middle, between, rfl, run⟩

/-- A call that fails does so in its first part, or went through it and fails after. -/
theorem on_bind_error {call : LeafCall α} {next : α → LeafCall β} {fault : Fault}
    (run : (call >>= next).on leaf engine = ((.error fault, later), after)) :
    call.on leaf engine = ((.error fault, later), after) ∨
      ∃ value middle between, call.on leaf engine = ((.ok value, middle), between) ∧
        (next value).on middle between = ((.error fault, later), after) := by
  rw [on_bind] at run
  rcases first : call.on leaf engine with ⟨⟨cause | value, middle⟩, between⟩
  · rw [first] at run
    cases run
    exact .inl rfl
  · rw [first] at run
    exact .inr ⟨value, middle, between, rfl, run⟩

section

variable (next : α → LeafCall β) (leaf : Leaf) (engine : Engine)

theorem on_get_bind (next : Leaf → LeafCall β) :
    (get >>= next).on leaf engine = (next leaf).on leaf engine := by
  rw [on_bind, on_get]

theorem on_set_bind (new : Leaf) (next : PUnit → LeafCall β) :
    (set new >>= next).on leaf engine = (next ⟨⟩).on new engine := by
  rw [on_bind, on_set]

theorem on_modify_bind (change : Leaf → Leaf) (next : PUnit → LeafCall β) :
    ((modify change : LeafCall PUnit) >>= next).on leaf engine =
      (next ⟨⟩).on (change leaf) engine := by
  rw [on_bind, on_modify]

theorem on_count_bind (counter : Counter) (amount : Nat) (next : Unit → LeafCall β) :
    ((liftM (Engine.count counter amount) : LeafCall Unit) >>= next).on leaf engine =
      (next ()).on leaf (engine.counted counter amount) := by
  rw [on_bind, on_count]

theorem on_report_bind (event : Event) (next : Unit → LeafCall β) :
    ((liftM (Engine.report event) : LeafCall Unit) >>= next).on leaf engine =
      (next ()).on leaf (engine.reported event) := by
  rw [on_bind, on_report]

end

theorem on_ofExcept_bind_ok {outcome : Except Fault α} {next : α → LeafCall β} {answer : β}
    (run : ((MonadExcept.ofExcept outcome : LeafCall α) >>= next).on leaf engine =
      ((.ok answer, later), after)) :
    ∃ value, outcome = .ok value ∧ (next value).on leaf engine = ((.ok answer, later), after) := by
  cases outcome with
  | error fault => cases run
  | ok value => exact ⟨value, rfl, run⟩

theorem on_notePage_ok {page : PageId}
    (run : (liftM (Engine.notePage page) : LeafCall Unit).on leaf engine =
      ((.ok (), later), after)) :
    later = leaf ∧ engine.store.note page = .ok after.store := by
  rw [on_engine] at run
  rcases taken : (Engine.notePage page).on engine with ⟨fault | _, between⟩
  · rw [taken] at run
    cases run
  · rw [taken] at run
    cases run
    exact ⟨rfl, Engine.notePage_ok taken⟩

theorem on_writePage_ok {page : PageId} {image : Buffer}
    (run : (liftM (Engine.writePage page image) : LeafCall Unit).on leaf engine =
      ((.ok (), later), after)) :
    later = leaf ∧ engine.store.write page image = .ok after.store := by
  simp only [on_engine, Engine.writePage, EngineCall.on_bind, EngineCall.on_get,
    EngineCall.on_ofExcept] at run
  cases stored : engine.store.write page image with
  | error fault =>
    rw [stored] at run
    cases run
  | ok store =>
    rw [stored] at run
    cases run
    exact ⟨rfl, rfl⟩

/-- Whatever the leaf, the call only looks. -/
def Peeks (index : Index) (call : LeafCall α) : Prop :=
  ∀ leaf, ∃ outcome, call.Looks index leaf outcome

theorem Peeks.bind {call : LeafCall α} {next : α → LeafCall β} (first : call.Peeks index)
    (second : ∀ value, (next value).Peeks index) : (call >>= next).Peeks index := by
  intro leaf
  obtain ⟨outcome, looks⟩ := first leaf
  cases outcome with
  | error fault =>
    obtain ⟨n, later, decodes, run⟩ := looks
    exact ⟨.error fault, n, later, decodes, fun engine => by rw [on_bind, run]⟩
  | ok value =>
    have then_looks (n : Nat) (later : Leaf) (_ : leaf.Decodes index n later) :
        ∃ outcome, (next value).Looks index later outcome ∧ True :=
      (second value later).imp fun _ looks => ⟨looks, trivial⟩
    obtain ⟨outcome, both, _⟩ := looks.bind then_looks
    exact ⟨outcome, both⟩

theorem Peeks.of_still {call : LeafCall α} (outcome : Leaf → Except Fault α)
    (still : ∀ leaf engine, call.on leaf engine = ((outcome leaf, leaf), engine)) :
    call.Peeks index :=
  fun leaf => ⟨outcome leaf, .of_still (still leaf)⟩

theorem Peeks.on {call : LeafCall α} (peeks : call.Peeks index) (leaf : Leaf) (engine : Engine) :
    ∃ outcome n later, leaf.Decodes index n later ∧
      call.on leaf engine = ((outcome, later), engine.counted .rowsDecoded n) := by
  obtain ⟨outcome, n, later, decodes, run⟩ := peeks leaf
  exact ⟨outcome, n, later, decodes, run engine⟩

/-- On this leaf the call only looks, and decodes `most` rows at most. -/
def Glances (index : Index) (call : LeafCall α) (leaf : Leaf) (most : Nat) : Prop :=
  ∃ outcome n later, n ≤ most ∧ leaf.Decodes index n later ∧
    ∀ engine, call.on leaf engine = ((outcome, later), engine.counted .rowsDecoded n)

theorem Glances.of_still {call : LeafCall α} {most : Nat} (outcome : Except Fault α)
    (still : ∀ engine, call.on leaf engine = ((outcome, leaf), engine)) :
    call.Glances index leaf most :=
  ⟨outcome, 0, leaf, Nat.zero_le _, .refl leaf, fun engine => by rw [still, Engine.counted_zero]⟩

theorem Glances.bind {call : LeafCall α} {next : α → LeafCall β} {most more : Nat}
    (first : call.Glances index leaf most)
    (second : ∀ value n middle, leaf.Decodes index n middle →
      (next value).Glances index middle more) :
    (call >>= next).Glances index leaf (most + more) := by
  obtain ⟨outcome, n, middle, few, decodes, run⟩ := first
  cases outcome with
  | error fault =>
    refine ⟨.error fault, n, middle, Nat.le_add_right_of_le few, decodes, ?_⟩
    intro engine
    rw [on_bind, run]
  | ok value =>
    obtain ⟨outcome, m, later, rest, again, rerun⟩ := second value n middle decodes
    refine ⟨outcome, n + m, later, Nat.add_le_add few rest, decodes.trans again, ?_⟩
    intro engine
    rw [on_bind, run]
    simp only [rerun, Engine.counted_counted]

/-- What is known of a call that only looks, once it has ended. -/
theorem Peeks.ended {call : LeafCall α} (peeks : call.Peeks index) {outcome : Except Fault α}
    (run : call.on leaf engine = ((outcome, later), after)) :
    ∃ n, leaf.Decodes index n later ∧ after = engine.counted .rowsDecoded n := by
  obtain ⟨_, n, _, decodes, same⟩ := peeks.on leaf engine
  rw [run] at same
  cases same
  exact ⟨n, decodes, rfl⟩

end LeafCall

open LeafCall

namespace Leaf

/-! ## Calls that only look -/

theorem get_peeks : (get : LeafCall Leaf).Peeks index := .of_still .ok fun _ _ => rfl

/-- Looking at a slot decodes one row at most. -/
theorem row_glances (index : Index) (slot : Nat) (leaf : Leaf) :
    (row index slot).Glances index leaf 1 := by
  rcases here : leaf.slots[slot]? with _ | ⟨offset, _ | known⟩
  · exact .of_still _ fun engine => by rw [row_on, here]
  · cases decoded : leaf.decodeAt index offset with
    | error fault =>
      exact .of_still (.error fault) fun engine => by simp only [row_on, here, decoded]
    | ok known =>
      exact ⟨.ok known, 1, { leaf with slots := leaf.slots.set slot ⟨offset, some known⟩ },
        Nat.le_refl 1, ⟨rfl, .set here decoded⟩, fun engine => by simp only [row_on, here, decoded]⟩
  · exact .of_still _ fun engine => by rw [row_on, here]

theorem row_peeks (index : Index) (slot : Nat) : (row index slot).Peeks index := by
  intro leaf
  obtain ⟨outcome, n, later, _, looks⟩ := row_glances index slot leaf
  exact ⟨outcome, n, later, looks⟩

theorem loadRows_peeks (index : Index) : (loadRows index).Peeks index := by
  intro leaf
  exact ⟨_, _, _, ⟨rfl, .of_decodeSlots leaf.slots⟩, loadRows_on index leaf⟩

theorem rows_peeks (index : Index) : (rows index).Peeks index :=
  (loadRows_peeks index).bind fun _ => get_peeks.bind fun leaf =>
    .of_still (fun _ => loadedRows leaf.slots) fun _ _ => on_ofExcept ..

theorem searchBetween_peeks (index : Index) (aim : Aim) (target : Row) (low high : Nat) :
    (searchBetween index aim target low high).Peeks index := by
  induction low, high using searchBetween.induct with
  | case1 low high inside middle after before =>
    rw [searchBetween, if_pos inside]
    refine (row_peeks index middle).bind ?_
    intro row
    cases aim.turn index target row with
    | after => exact after
    | before => exact before
    | found => exact .of_still (fun _ => .ok middle) fun _ _ => rfl
    | clash =>
      exact get_peeks.bind fun leaf =>
        .of_still (fun _ => .error (.duplicateKey leaf.id target)) fun _ _ => rfl
  | case2 low high empty =>
    rw [searchBetween, if_neg empty]
    exact .of_still (fun _ => .ok low) fun _ _ => rfl

theorem search_peeks (index : Index) (aim : Aim) (target : Row) :
    (search index aim target).Peeks index :=
  get_peeks.bind fun leaf => searchBetween_peeks index aim target 0 leaf.count

theorem holds_peeks (index : Index) (slot : Nat) (target : Row) :
    (holds index slot target).Peeks index := by
  refine get_peeks.bind ?_
  intro leaf
  by_cases inside : slot < leaf.count
  · rw [if_pos inside]
    exact (row_peeks index slot).bind fun row => .of_still (fun _ => .ok _) fun _ _ => rfl
  · rw [if_neg inside]
    exact .of_still (fun _ => .ok false) fun _ _ => rfl

theorem seek_peeks (index : Index) (target : Row) (past : Bool) :
    (seek index target past).Peeks index := by
  refine (search_peeks index (.bound past) target).bind ?_
  intro slot
  refine get_peeks.bind ?_
  intro leaf
  by_cases inside : slot < leaf.count
  · rw [if_pos inside]
    exact .of_still (fun _ => .ok (.here slot)) fun _ _ => rfl
  · rw [if_neg inside]
    cases leaf.parent with
    | none => exact .of_still (fun _ => .ok .nowhere) fun _ _ => rfl
    | some node => exact .of_still (fun _ => .ok (.above node)) fun _ _ => rfl

/-- A leaf whose rows can be collected shows them. -/
theorem Collects.shows {leaf : Leaf} {rows : List Row} (collects : leaf.Collects index rows) :
    ∃ entries, leaf.Shows index entries ∧ entries.map RowEntry.row = rows := by
  obtain ⟨_, _, _, load, _⟩ := LeafCall.on_bind_ok (LeafCall.on_eq (collects (.inMemory 0 0)))
  obtain ⟨entries, shows, _⟩ := shows_of_loadRows load
  exact ⟨entries, shows, shows.collects.unique collects (.inMemory 0 0)⟩

end Leaf

end SlottedLeaf
