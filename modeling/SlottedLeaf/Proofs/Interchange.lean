import SlottedLeaf.Proofs.Benches

/-!
# Stores that cannot be told apart

One kind of store keeps the images that were written, and the other cuts them out of a file. What a
caller sees of either is a `StoreView`, and every call is a function of it: what is answered, the
faults, and what is seen afterwards. So a new store in memory and one in an empty file answer alike
whatever they are asked, and so do all calls on leaves, which know the store by its calls alone.
-/

namespace SlottedLeaf

variable {σ α β : Type} {index : Index}

/-! ## What is seen of a store -/

/-- A store as its callers see it, wherever the images are. -/
structure StoreView where
  pageSize : Nat
  nextPage : Nat
  dirty : PageSet
  /-- The image of every page, handed out or not. -/
  images : PageId → Buffer

namespace StoreView

def allocate (view : StoreView) : Except Fault (PageId × StoreView) :=
  if view.nextPage < pageIdLimit then
    .ok (⟨UInt32.ofNat view.nextPage⟩, { view with nextPage := view.nextPage + 1 })
  else .error (.invalid .pagesExhausted)

def note (view : StoreView) (page : PageId) : Except Fault StoreView := do
  checkPageId page
  return { view with dirty := view.dirty.insert page }

def write (view : StoreView) (page : PageId) (image : Buffer) : Except Fault StoreView := do
  checkPageId page
  checkImageLength view.pageSize image
  if view.nextPage ≤ page.number.toNat then
    throw (.invalid .writeUnallocated)
  return { view with
    dirty := view.dirty.erase page
    images := fun other => if other = page then image else view.images other }

def read (view : StoreView) (page : PageId) : Except Fault Buffer := do
  checkPageId page
  if view.nextPage ≤ page.number.toNat then
    throw (.invalid .readUnallocated)
  return view.images page

end StoreView

/-- Outcomes that are seen alike are the same fault, or values that are seen alike. -/
theorem except_map_eq {see : α → β} {first second : Except Fault α}
    (same : first.map see = second.map see) :
    (∃ fault, first = .error fault ∧ second = .error fault) ∨
      ∃ one other, first = .ok one ∧ second = .ok other ∧ see one = see other := by
  cases first with
  | error fault =>
    cases second with
    | error other =>
      cases same
      exact .inl ⟨fault, rfl, rfl⟩
    | ok other => cases same
  | ok one =>
    cases second with
    | error fault => cases same
    | ok other => exact .inr ⟨one, other, rfl, rfl, Except.ok.inj same⟩

namespace Store

def view (store : Store) : StoreView :=
  ⟨store.pageSize, store.nextPage, store.dirty, fun page => store.kept page⟩

theorem allocate_view (store : Store) :
    store.allocate.map (fun made => (made.1, made.2.view)) = store.view.allocate := by
  cases store with
  | memory store =>
    by_cases room : store.allocated + 1 < pageIdLimit
    · rw [allocate, MemoryStore.allocate, StoreView.allocate, if_pos room, if_pos]
      · rfl
      · exact room
    · rw [allocate, MemoryStore.allocate, StoreView.allocate, if_neg room, if_neg]
      · rfl
      · exact room
  | file store =>
    by_cases room : store.pageCount < pageIdLimit
    · rw [allocate, FileStore.allocate, StoreView.allocate, if_pos room, if_pos]
      · rfl
      · exact room
    · rw [allocate, FileStore.allocate, StoreView.allocate, if_neg room, if_neg]
      · rfl
      · exact room

theorem note_view (store : Store) (page : PageId) :
    (store.note page).map view = store.view.note page := by
  cases store with
  | memory store =>
    simp only [note, MemoryStore.note, StoreView.note]
    cases checkPageId page <;> rfl
  | file store =>
    simp only [note, FileStore.note, StoreView.note]
    cases checkPageId page <;> rfl

theorem unallocated_memory (store : MemoryStore) (page : PageId) :
    (!store.isAllocated page) = decide ((memory store).nextPage ≤ page.number.toNat) := by
  rw [MemoryStore.isAllocated, ← decide_not, nextPage]
  exact decide_eq_decide.mpr (by omega)

theorem unallocated_file (store : FileStore) (page : PageId) :
    (!store.isAllocated page) = decide ((file store).nextPage ≤ page.number.toNat) := by
  rw [FileStore.isAllocated, ← decide_not, nextPage]
  exact decide_eq_decide.mpr (by omega)

theorem read_view (store : Store) (page : PageId) : store.read page = store.view.read page := by
  cases store with
  | memory store =>
    rw [read, MemoryStore.read, unallocated_memory]
    simp only [decide_eq_true_eq]
    rfl
  | file store =>
    rw [read, FileStore.read, unallocated_file]
    simp only [decide_eq_true_eq]
    rfl

/-- What is seen of a store that took an image. -/
theorem Stores.view {store later : Store} {page : PageId} {image : Buffer}
    (stores : store.Stores page image later) (dirty : later.dirty = store.dirty.erase page) :
    later.view = { store.view with
      dirty := store.dirty.erase page
      images := fun other => if other = page then image else store.kept other } := by
  have images : (fun other => later.kept other) =
      fun other => if other = page then image else store.kept other := by
    funext other
    by_cases here : other = page
    · rw [if_pos here, here, stores.here]
    · rw [if_neg here, stores.elsewhere other here]
  rw [Store.view, stores.pageSize, stores.nextPage, dirty, images]
  rfl

/-- A write that passes its checks does what is seen of it. -/
private theorem map_checked {page : PageId} {image : Buffer} {pageSize : Nat} {absent : Prop}
    [Decidable absent] {value : α} {see : α → β} {seen : β}
    (same : page ≠ .reserved → image.size = pageSize → ¬ absent → see value = seen) :
    (do
      checkPageId page
      checkImageLength pageSize image
      if absent then
        throw (.invalid .writeUnallocated)
      return value : Except Fault α).map see =
    (do
      checkPageId page
      checkImageLength pageSize image
      if absent then
        throw (.invalid .writeUnallocated)
      return seen) := by
  cases checked : checkPageId page with
  | error fault => rfl
  | ok _ =>
    cases sized : checkImageLength pageSize image with
    | error fault => rfl
    | ok _ =>
      by_cases missing : absent
      · simp only [bind, Except.bind, if_pos missing]
        rfl
      · simp only [bind, Except.bind, if_neg missing]
        exact congrArg Except.ok (same (ne_reserved_of_checkPageId checked)
          (size_of_checkImageLength sized) missing)

theorem write_view (store : Store) (page : PageId) (image : Buffer) :
    (store.write page image).map view = store.view.write page image := by
  cases store with
  | memory store =>
    refine (comp_map memory view (store.write page image)).symm.trans ?_
    rw [MemoryStore.write, unallocated_memory]
    simp only [decide_eq_true_eq]
    refine map_checked ?_
    intro unreserved sized there
    have allocated : store.isAllocated page :=
      decide_eq_true (Nat.le_of_lt_succ (Nat.lt_of_not_le there))
    have taken : (memory store).write page image = .ok (memory _) :=
      congrArg (memory <$> ·) (MemoryStore.write_eq unreserved allocated sized)
    exact (stores_of_write taken).view rfl
  | file store =>
    refine (comp_map file view (store.write page image)).symm.trans ?_
    rw [FileStore.write, unallocated_file]
    simp only [decide_eq_true_eq]
    refine map_checked ?_
    intro unreserved sized there
    have allocated : store.isAllocated page := decide_eq_true (Nat.lt_of_not_le there)
    have taken : (file store).write page image = .ok (file _) :=
      congrArg (file <$> ·) (FileStore.write_eq unreserved allocated sized)
    exact (stores_of_write taken).view rfl

section

variable {first second : Store} (alike : first.view = second.view)

include alike

theorem allocate_alike :
    (∃ fault, first.allocate = .error fault ∧ second.allocate = .error fault) ∨
      ∃ page one other, first.allocate = .ok (page, one) ∧ second.allocate = .ok (page, other) ∧
        one.view = other.view := by
  have seen : first.allocate.map (fun made => (made.1, made.2.view)) =
      second.allocate.map fun made => (made.1, made.2.view) := by
    rw [allocate_view, allocate_view, alike]
  rcases except_map_eq seen with failed | ⟨⟨page, one⟩, ⟨again, other⟩, made, remade, same⟩
  · exact .inl failed
  · obtain ⟨rfl, same⟩ := Prod.mk.inj same
    exact .inr ⟨page, one, other, made, remade, same⟩

theorem note_alike (page : PageId) :
    (∃ fault, first.note page = .error fault ∧ second.note page = .error fault) ∨
      ∃ one other, first.note page = .ok one ∧ second.note page = .ok other ∧
        one.view = other.view := by
  apply except_map_eq
  rw [note_view, note_view, alike]

theorem write_alike (page : PageId) (image : Buffer) :
    (∃ fault, first.write page image = .error fault ∧ second.write page image = .error fault) ∨
      ∃ one other, first.write page image = .ok one ∧ second.write page image = .ok other ∧
        one.view = other.view := by
  apply except_map_eq
  rw [write_view, write_view, alike]

theorem read_alike (page : PageId) : first.read page = second.read page := by
  rw [read_view, read_view, alike]

theorem dirty_alike : first.dirty = second.dirty := congrArg StoreView.dirty alike

theorem pageSize_alike : first.pageSize = second.pageSize := congrArg StoreView.pageSize alike

end

end Store

/-! ## Engines over stores that look alike -/

/-- The event without the kind of store that handed a page out. -/
def Event.storeless : Event → Event
  | .filePageAllocated page => .memoryPageAllocated page
  | event => event

/-- Engines that differ in where the images are and in nothing else. -/
structure Engine.Alike (first second : Engine) : Prop where
  store : first.store.view = second.store.view
  stats : first.stats = second.stats
  events : first.events.map Event.storeless = second.events.map Event.storeless

namespace Engine.Alike

variable {first second : Engine}

theorem counted (alike : first.Alike second) (counter : Counter) (amount : Nat) :
    (first.counted counter amount).Alike (second.counted counter amount) where
  store := alike.store
  stats := congrArg (·.add counter amount) alike.stats
  events := alike.events

theorem reported (alike : first.Alike second) {one other : Event}
    (same : one.storeless = other.storeless) :
    (first.reported one).Alike (second.reported other) where
  store := alike.store
  stats := alike.stats
  events := by
    simp only [Engine.reported, List.map_append, alike.events, List.map_cons, same]

theorem stored (alike : first.Alike second) {one other : Store} (same : one.view = other.view) :
    (first.stored one).Alike (second.stored other) where
  store := same
  stats := alike.stats
  events := alike.events

end Engine.Alike

/-- Over engines that are alike the call has the same outcome, and leaves them alike. -/
def EngineCall.Agrees (call : EngineCall α) : Prop :=
  ∀ first second : Engine, first.Alike second →
    (call.on first).1 = (call.on second).1 ∧ (call.on first).2.Alike (call.on second).2

/-- Over engines that are alike the call has the same outcome on any leaf, does the same to the
leaf, and leaves the engines alike. -/
def LeafCall.Agrees (call : LeafCall α) : Prop :=
  ∀ (leaf : Leaf) (first second : Engine), first.Alike second →
    (call.on leaf first).1 = (call.on leaf second).1 ∧
      (call.on leaf first).2.Alike (call.on leaf second).2

namespace EngineCall

theorem Agrees.bind {call : EngineCall α} {next : α → EngineCall β} (agrees : call.Agrees)
    (rest : ∀ value, (next value).Agrees) : (call >>= next).Agrees := by
  intro first second alike
  obtain ⟨same, later⟩ := agrees first second alike
  rw [on_bind, on_bind]
  rcases made : call.on first with ⟨outcome, one⟩
  rcases again : call.on second with ⟨repeated, other⟩
  rw [made, again] at same later
  obtain rfl : outcome = repeated := same
  cases outcome with
  | error fault => exact ⟨rfl, later⟩
  | ok value => exact rest value one other later

theorem agrees_pure (value : α) : (pure value : EngineCall α).Agrees :=
  fun _ _ alike => ⟨rfl, alike⟩

theorem agrees_ofExcept (outcome : Except Fault α) :
    (MonadExcept.ofExcept outcome : EngineCall α).Agrees := by
  intro first second alike
  rw [on_ofExcept, on_ofExcept]
  exact ⟨rfl, alike⟩

theorem agrees_count (counter : Counter) (amount : Nat) :
    (liftM (Engine.count counter amount) : EngineCall Unit).Agrees :=
  fun _ _ alike => ⟨rfl, alike.counted counter amount⟩

theorem agrees_report (event : Event) : (liftM (Engine.report event) : EngineCall Unit).Agrees :=
  fun _ _ alike => ⟨rfl, alike.reported rfl⟩

theorem agrees_allocatePage : Engine.allocatePage.Agrees := by
  intro first second alike
  simp only [Engine.allocatePage, on_bind, on_get, on_ofExcept]
  rcases Store.allocate_alike alike.store with ⟨fault, made, remade⟩ |
    ⟨page, one, other, made, remade, same⟩
  · rw [made, remade]
    exact ⟨rfl, alike⟩
  · have stored := alike.stored same
    rw [made, remade]
    cases one <;> cases other <;> exact ⟨rfl, stored.reported rfl⟩

theorem agrees_notePage (page : PageId) : (Engine.notePage page).Agrees := by
  intro first second alike
  simp only [Engine.notePage, on_bind, on_get, on_ofExcept]
  rcases Store.note_alike alike.store page with ⟨fault, made, remade⟩ |
    ⟨one, other, made, remade, same⟩
  · rw [made, remade]
    exact ⟨rfl, alike⟩
  · rw [made, remade]
    exact ⟨rfl, alike.stored same⟩

theorem agrees_writePage (page : PageId) (image : Buffer) :
    (Engine.writePage page image).Agrees := by
  intro first second alike
  simp only [Engine.writePage, on_bind, on_get, on_ofExcept]
  rcases Store.write_alike alike.store page image with ⟨fault, made, remade⟩ |
    ⟨one, other, made, remade, same⟩
  · rw [made, remade]
    exact ⟨rfl, alike⟩
  · rw [made, remade]
    exact ⟨rfl, alike.stored same⟩

theorem agrees_readPage (page : PageId) : (Engine.readPage page).Agrees := by
  intro first second alike
  simp only [Engine.readPage, on_bind, on_get, on_ofExcept]
  rw [Store.read_alike alike.store]
  exact ⟨rfl, alike⟩

theorem agrees_ask (call : StoreCall) : (Engine.ask call).Agrees := by
  cases call with
  | allocate => exact Agrees.bind agrees_allocatePage fun _ => agrees_pure _
  | note page => exact Agrees.bind (agrees_notePage page) fun _ => agrees_pure _
  | write page image => exact Agrees.bind (agrees_writePage page image) fun _ => agrees_pure _
  | read page => exact Agrees.bind (agrees_readPage page) fun _ => agrees_pure _
  | listDirty =>
    intro first second alike
    refine ⟨?_, alike⟩
    exact congrArg (fun set => Except.ok (StoreAnswer.pages set.pages))
      (Store.dirty_alike alike.store)

end EngineCall

open EngineCall

/-- However a call is put together from what calls do, it does not tell the stores apart. -/
theorem LeafCall.Orderly.agrees {call : LeafCall α} (orderly : call.Orderly) : call.Agrees := by
  intro leaf first second alike
  induction orderly generalizing leaf first second with
  | look looks =>
    obtain ⟨made, n, run⟩ := looks leaf
    rw [run, run]
    exact ⟨rfl, alike.counted _ _⟩
  | @bind _ _ call next _ _ ih rest =>
    obtain ⟨same, later⟩ := ih leaf first second alike
    rw [on_bind, on_bind]
    rcases made : call.on leaf first with ⟨⟨outcome, middle⟩, one⟩
    rcases again : call.on leaf second with ⟨⟨repeated, copy⟩, other⟩
    rw [made, again] at same later
    obtain ⟨rfl, rfl⟩ := Prod.mk.inj same
    cases outcome with
    | error fault => exact ⟨rfl, later⟩
    | ok value => exact rest value middle one other later
  | @onOther _ call _ other ih =>
    obtain ⟨same, later⟩ := ih other first second alike
    rw [on_onOther, on_onOther]
    rcases made : call.on other first with ⟨⟨outcome, middle⟩, one⟩
    rcases again : call.on other second with ⟨⟨repeated, copy⟩, two⟩
    rw [made, again] at same later
    obtain ⟨rfl, rfl⟩ := Prod.mk.inj same
    cases outcome with
    | error fault => exact ⟨rfl, later⟩
    | ok value => exact ⟨rfl, later⟩
  | allocate =>
    obtain ⟨same, later⟩ := agrees_allocatePage first second alike
    exact ⟨congrArg (·, leaf) same, later⟩
  | note page =>
    obtain ⟨same, later⟩ := agrees_notePage page first second alike
    exact ⟨congrArg (·, leaf) same, later⟩
  | write page image =>
    obtain ⟨same, later⟩ := agrees_writePage page image first second alike
    exact ⟨congrArg (·, leaf) same, later⟩
  | tally _ _ ih =>
    rw [on_count_bind, on_count_bind, on_report_bind, on_report_bind]
    exact ih leaf _ _ ((alike.counted _ _).reported rfl)
  | emptied page => exact ⟨rfl, alike.reported rfl⟩

/-! ## Leaves that are opened -/

namespace Leaf

theorem read_agrees (index : Index) (page : PageId) (image : Buffer) :
    (read index page image).Agrees := by
  refine (agrees_ofExcept _).bind fun leaf => (agrees_count _ _).bind fun _ => ?_
  exact (agrees_report _).bind fun _ => agrees_pure _

theorem load_agrees (index : Index) (page : PageId) : (load index page).Agrees :=
  (agrees_readPage page).bind fun image => read_agrees index page image

theorem createRoot_agrees (index : Index) : (createRoot index).Agrees := by
  intro first second alike
  obtain ⟨same, later⟩ := agrees_allocatePage first second alike
  rw [createRoot_on, createRoot_on]
  rcases made : Engine.allocatePage.on first with ⟨outcome, one⟩
  rcases again : Engine.allocatePage.on second with ⟨repeated, other⟩
  rw [made, again] at same later
  obtain rfl : outcome = repeated := same
  cases outcome with
  | error fault => exact ⟨rfl, later⟩
  | ok page =>
    obtain ⟨same, later⟩ :=
      (write_orderly index).agrees (create index page none .full) one other later
    exact ⟨congrArg (fun made => made.1.map fun _ => made.2) same, later⟩

end Leaf

theorem Index.attach_agrees (table : TableId) (options : Options) (format : RowFormat) :
    (attach table options format).Agrees := by
  intro first second alike
  rw [attach, on_bind, on_bind, on_get, on_get]
  simp only [Store.pageSize_alike alike.store]
  refine Agrees.bind (agrees_ofExcept _) (fun _ => ?_) first second alike
  exact (agrees_report _).bind fun _ => agrees_pure _

/-! ## Benches over stores that look alike -/

namespace Bench

variable {first second : Bench σ} {nodes : NodeLayer σ}

/-- The benches have the same leaves, over engines that are alike. -/
structure Alike (first second : Bench σ) : Prop where
  leaves : first.leaves = second.leaves
  engine : first.engine.Alike second.engine
  walk : first.walk = second.walk

/-- What was done on two benches gave the same, and left them alike. -/
def Agree (made other : Except Fault Upshot × Bench σ) : Prop :=
  made.1 = other.1 ∧ made.2.Alike other.2

theorem Alike.take (alike : first.Alike second) {call : EngineCall Leaf} (agrees : call.Agrees) :
    Agree (first.take call) (second.take call) := by
  obtain ⟨same, later⟩ := agrees _ _ alike.engine
  unfold Bench.take
  rcases made : call.on first.engine with ⟨outcome, one⟩
  rcases again : call.on second.engine with ⟨repeated, other⟩
  rw [made, again] at same later
  obtain rfl : outcome = repeated := same
  cases outcome with
  | error fault => exact ⟨rfl, alike.leaves, later, alike.walk⟩
  | ok leaf => exact ⟨rfl, congrArg (· ++ [leaf]) alike.leaves, later, alike.walk⟩

theorem Alike.handle (alike : first.Alike second) (number : Nat) (leaf : Leaf) (deed : Deed) :
    Agree (first.handle index number leaf deed) (second.handle index number leaf deed) := by
  obtain ⟨same, later⟩ := (deed.call_orderly index).agrees leaf _ _ alike.engine
  unfold Bench.handle
  rcases made : (deed.call index).on leaf first.engine with ⟨⟨outcome, changed⟩, one⟩
  rcases again : (deed.call index).on leaf second.engine with ⟨⟨repeated, copy⟩, other⟩
  rw [made, again] at same later
  obtain ⟨rfl, rfl⟩ := Prod.mk.inj same
  exact ⟨rfl, congrArg (·.set number changed ++ opened outcome) alike.leaves, later, alike.walk⟩

theorem Alike.find (alike : first.Alike second) (number : Nat) (leaf : Leaf) (target : Row)
    (past : Bool) :
    Agree (first.find index nodes number leaf target past)
      (second.find index nodes number leaf target past) := by
  obtain ⟨same, later⟩ :=
    (Leaf.seek_peeks index target past).orderly.agrees leaf _ _ alike.engine
  rw [find_eq, find_eq, ← alike.walk, ← alike.leaves]
  rcases made : (Leaf.seek index target past).on leaf first.engine with ⟨⟨outcome, changed⟩, one⟩
  rcases again : (Leaf.seek index target past).on leaf second.engine with ⟨⟨repeated, copy⟩, other⟩
  rw [made, again] at same later
  obtain ⟨rfl, rfl⟩ := Prod.mk.inj same
  cases outcome with
  | error fault => exact ⟨rfl, rfl, later, rfl⟩
  | ok landing => exact ⟨rfl, rfl, later, rfl⟩

theorem Alike.withLeaf (alike : first.Alike second) {number : Nat}
    {act other : Leaf → Except Fault Upshot × Bench σ}
    (agree : ∀ leaf, Agree (act leaf) (other leaf)) :
    Agree (first.withLeaf number act) (second.withLeaf number other) := by
  unfold Bench.withLeaf
  rw [alike.leaves]
  cases second.leaves[number]? with
  | none => exact ⟨rfl, alike⟩
  | some leaf => exact agree leaf

/-- A chore gives the same on benches that are alike, and leaves them alike. -/
theorem Alike.perform (index : Index) (nodes : NodeLayer σ) (alike : first.Alike second)
    (chore : Chore) :
    Agree (first.perform index nodes chore) (second.perform index nodes chore) := by
  cases chore with
  | ask call =>
    obtain ⟨same, later⟩ := agrees_ask call _ _ alike.engine
    exact ⟨congrArg (Except.map Upshot.store) same, alike.leaves, later, alike.walk⟩
  | create page parent form => exact alike.take (agrees_pure _)
  | createRoot => exact alike.take (Leaf.createRoot_agrees index)
  | read page image => exact alike.take (Leaf.read_agrees index page image)
  | load page => exact alike.take (Leaf.load_agrees index page)
  | handle number deed => exact alike.withLeaf fun leaf => alike.handle number leaf deed
  | find number target past =>
    exact alike.withLeaf fun leaf => alike.find number leaf target past
  | turn number course =>
    refine alike.withLeaf fun leaf => ?_
    rw [turn, turn, alike.walk]
    exact ⟨rfl, alike.leaves, alike.engine, rfl⟩

/-- So do jobs one after the other. -/
theorem Alike.run (index : Index) (nodes : NodeLayer σ) (alike : first.Alike second)
    (jobs : List Job) :
    first.history index nodes jobs = second.history index nodes jobs ∧
      (first.after index nodes jobs).Alike (second.after index nodes jobs) := by
  induction jobs generalizing first second with
  | nil => exact ⟨rfl, alike⟩
  | cons job rest ih =>
    obtain ⟨same, later⟩ := alike.perform (index.lookingUp job.resolve) nodes job.chore
    obtain ⟨histories, last⟩ := ih later
    refine ⟨?_, last⟩
    rw [history_cons, history_cons, work, work, same]
    exact congrArg (_ :: ·) histories

end Bench

/-! ## New stores -/

namespace Store

/-- The answer to a call on the store, and the store after it. -/
def answer (store : Store) : StoreCall → Except Fault (StoreAnswer × Store)
  | .allocate => store.allocate.map fun (page, later) => (.page page, later)
  | .note page => (store.note page).map fun later => (.done, later)
  | .write page image => (store.write page image).map fun later => (.done, later)
  | .read page => (store.read page).map fun image => (.image image, store)
  | .listDirty => .ok (.pages store.dirty.pages, store)

/-- The answers to calls one after the other; one that fails leaves the store as it is. -/
def answers (store : Store) : List StoreCall → List (Except Fault StoreAnswer)
  | [] => []
  | call :: rest =>
    match store.answer call with
    | .ok (answer, later) => .ok answer :: later.answers rest
    | .error fault => .error fault :: store.answers rest

theorem answer_alike {first second : Store} (alike : first.view = second.view) (call : StoreCall) :
    (∃ fault, first.answer call = .error fault ∧ second.answer call = .error fault) ∨
      ∃ answer one other, first.answer call = .ok (answer, one) ∧
        second.answer call = .ok (answer, other) ∧ one.view = other.view := by
  cases call with
  | allocate =>
    rcases allocate_alike alike with ⟨fault, made, remade⟩ | ⟨page, one, other, made, remade, same⟩
    · rw [answer, answer, made, remade]
      exact .inl ⟨fault, rfl, rfl⟩
    · rw [answer, answer, made, remade]
      exact .inr ⟨.page page, one, other, rfl, rfl, same⟩
  | note page =>
    rcases note_alike alike page with ⟨fault, made, remade⟩ | ⟨one, other, made, remade, same⟩
    · rw [answer, answer, made, remade]
      exact .inl ⟨fault, rfl, rfl⟩
    · rw [answer, answer, made, remade]
      exact .inr ⟨.done, one, other, rfl, rfl, same⟩
  | write page image =>
    rcases write_alike alike page image with
      ⟨fault, made, remade⟩ | ⟨one, other, made, remade, same⟩
    · rw [answer, answer, made, remade]
      exact .inl ⟨fault, rfl, rfl⟩
    · rw [answer, answer, made, remade]
      exact .inr ⟨.done, one, other, rfl, rfl, same⟩
  | read page =>
    rw [answer, answer, read_alike alike]
    cases second.read page with
    | error fault => exact .inl ⟨fault, rfl, rfl⟩
    | ok image => exact .inr ⟨.image image, first, second, rfl, rfl, alike⟩
  | listDirty =>
    rw [answer, answer, dirty_alike alike]
    exact .inr ⟨_, first, second, rfl, rfl, alike⟩

/-- The answers depend on what is seen of the store alone. -/
theorem answers_alike {first second : Store} (alike : first.view = second.view)
    (calls : List StoreCall) : first.answers calls = second.answers calls := by
  induction calls generalizing first second with
  | nil => rfl
  | cons call rest ih =>
    rw [answers, answers]
    rcases answer_alike alike call with ⟨fault, made, remade⟩ |
      ⟨answer, one, other, made, remade, same⟩
    · rw [made, remade]
      exact congrArg (_ :: ·) (ih alike)
    · rw [made, remade]
      exact congrArg (_ :: ·) (ih same)

end Store

/-- Whatever page size is valid, a new store in memory and one opened over an empty file cannot be
told apart: they give the same answers and the same faults to any calls with any arguments. An index
is opened over either with the same outcome, and whatever is done then with any leaves, with the
store besides, and with rows looked up to whatever, gives the same, leaf for leaf, with the same
counts; of the events only those differ that tell which kind of store handed a page out. -/
theorem stores_interchangeable {pageSize : Nat} (valid : checkPageSize pageSize = .ok ()) :
    ∃ memory file, MemoryStore.create pageSize = .ok memory ∧
      FileStore.ofFile pageSize (.ofBytes []) = .ok file ∧
      (∀ calls, (Store.memory memory).answers calls = (Store.file file).answers calls) ∧
      (∀ table options format,
        ((Index.attach table options format).on (.start (.memory memory))).1 =
          ((Index.attach table options format).on (.start (.file file))).1) ∧
      ∀ {σ : Type} (index : Index) (nodes : NodeLayer σ) (walk : Cursor × σ) (jobs : List Job),
        let first := Bench.empty (.start (.memory memory)) walk
        let second := Bench.empty (.start (.file file)) walk
        first.history index nodes jobs = second.history index nodes jobs ∧
          (first.after index nodes jobs).Alike (second.after index nodes jobs) := by
  have created : MemoryStore.create pageSize = .ok ⟨pageSize, 0, [], .empty, 0, 0⟩ := by
    rw [MemoryStore.create, valid]
    rfl
  have alike : (Engine.start (.memory ⟨pageSize, 0, [], .empty, 0, 0⟩)).Alike
      (.start (.file ⟨pageSize, ⟨pageSize, []⟩, 1, .empty⟩)) := ⟨rfl, rfl, rfl⟩
  refine ⟨_, _, created, FileStore.ofFile_empty valid, Store.answers_alike alike.store, ?_, ?_⟩
  · intro table options format
    exact (Index.attach_agrees table options format _ _ alike).1
  · intro σ index nodes walk jobs
    refine Bench.Alike.run index nodes ?_ jobs
    exact ⟨rfl, alike, rfl⟩

/-- Calls with the reserved page, an image that is too short, pages that were not handed out, and
one that was but never written. -/
def oddCalls : List StoreCall :=
  [.note .reserved, .allocate, .write ⟨1⟩ #[7], .read ⟨2⟩, .note ⟨9⟩, .read ⟨1⟩, .listDirty]

/-- So it is for pages of the smallest size and those calls. -/
theorem stores_interchangeable_smallest :
    checkPageSize minPageSize = .ok () ∧ ∃ memory file,
      MemoryStore.create minPageSize = .ok memory ∧
      FileStore.ofFile minPageSize (.ofBytes []) = .ok file ∧
      (Store.memory memory).answers oddCalls = (Store.file file).answers oddCalls ∧
      (Store.memory memory).answers oddCalls =
        [.error (.invalid .reservedPage), .ok (.page ⟨1⟩), .error (.invalid .pageLength),
          .error (.invalid .readUnallocated), .ok .done, .ok (.image (.zeros minPageSize)),
          .ok (.pages [⟨9⟩])] := by
  have valid : checkPageSize minPageSize = .ok () := by decide
  obtain ⟨memory, file, created, opened, same, _⟩ := stores_interchangeable valid
  refine ⟨valid, memory, file, created, opened, same oddCalls, ?_⟩
  obtain rfl : (⟨minPageSize, 0, [], .empty, 0, 0⟩ : MemoryStore) = memory := Except.ok.inj created
  rfl

end SlottedLeaf
