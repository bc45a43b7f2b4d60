import SlottedLeaf.Proofs.Effects

/-!
# What a store keeps of each page

Two things are kept of a page: its image, and whether it is listed as changed. Handing out pages
changes neither. A note lists its page and no other. Writing a page replaces its image and takes it
off the list, and all other pages stay as they are.
-/

namespace SlottedLeaf

theorem ne_reserved_of_checkPageId {page : PageId} (checked : checkPageId page = .ok ()) :
    page ≠ .reserved := by
  intro reserved
  rw [checkPageId, if_pos reserved] at checked
  cases checked

theorem size_of_checkImageLength {pageSize : Nat} {image : Buffer}
    (checked : checkImageLength pageSize image = .ok ()) : image.size = pageSize := by
  by_cases same : image.size = pageSize
  · exact same
  · rw [checkImageLength, if_pos same] at checked
    cases checked

namespace Store

variable {store middle later : Store} {page other : PageId} {image : Buffer} {noted : List PageId}

/-- The image kept for a page, whether it was handed out yet or not; zeros if it was never
written. -/
def kept (page : PageId) : Store → Buffer
  | memory store => (store.images.lookup page).getD (.zeros store.pageSize)
  | file store => store.file.window (store.offset page) store.pageSize

/-! ## Reading -/

private theorem of_read {α : Type} {allocated : Bool} {value answer : α}
    (run : (do
      checkPageId page
      if !allocated then
        throw (.invalid .readUnallocated)
      return value : Except Fault α) = .ok answer) :
    page ≠ .reserved ∧ allocated ∧ value = answer := by
  obtain ⟨_, checked, run⟩ := except_bind_ok run
  cases allocated with
  | false => cases run
  | true =>
    cases run
    exact ⟨ne_reserved_of_checkPageId checked, rfl, rfl⟩

/-- A store reads what it keeps of a page that it handed out, and nothing else. -/
theorem read_eq_ok_iff :
    store.read page = .ok image ↔ store.Allocated page ∧ store.kept page = image := by
  constructor
  · intro run
    cases store with
    | memory store =>
      obtain ⟨unreserved, allocated, same⟩ := of_read (show store.read page = .ok image from run)
      exact ⟨⟨unreserved, Nat.lt_succ_of_le (of_decide_eq_true allocated)⟩, same⟩
    | file store =>
      obtain ⟨unreserved, allocated, same⟩ := of_read (show store.read page = .ok image from run)
      exact ⟨⟨unreserved, of_decide_eq_true allocated⟩, same⟩
  · rintro ⟨⟨unreserved, below⟩, rfl⟩
    cases store with
    | memory store =>
      exact MemoryStore.read_eq unreserved (decide_eq_true (Nat.le_of_lt_succ below))
    | file store => exact FileStore.read_eq unreserved (decide_eq_true below)

/-! ## Pages and notes -/

/-- `later` keeps the pages of `store`, and lists these besides. -/
structure Keeps (store : Store) (noted : List PageId) (later : Store) : Prop where
  kept : ∀ page, later.kept page = store.kept page
  dirty : ∀ page, page ∈ later.dirty ↔ page ∈ noted ∨ page ∈ store.dirty
  pageSize : later.pageSize = store.pageSize
  nextPage : store.nextPage ≤ later.nextPage

theorem Keeps.trans {first second : List PageId} (keeps : store.Keeps first middle)
    (more : middle.Keeps second later) : store.Keeps (second ++ first) later where
  kept page := (more.kept page).trans (keeps.kept page)
  dirty page := by
    rw [more.dirty, keeps.dirty, List.mem_append, or_assoc]
  pageSize := more.pageSize.trans keeps.pageSize
  nextPage := Nat.le_trans keeps.nextPage more.nextPage

theorem Keeps.of_eq (same : later = store) : store.Keeps [] later := by
  subst same
  exact ⟨fun _ => rfl, fun _ => by simp, rfl, Nat.le_refl _⟩

theorem keeps_of_allocate (handed : store.allocate = .ok (page, later)) : store.Keeps [] later := by
  cases store with
  | memory store =>
    simp only [allocate, MemoryStore.allocate] at handed
    by_cases room : store.allocated + 1 < pageIdLimit
    · rw [if_pos room] at handed
      cases handed
      exact ⟨fun _ => rfl, fun _ => by simp [dirty], rfl, Nat.le_succ _⟩
    · rw [if_neg room] at handed
      cases handed
  | file store =>
    simp only [allocate, FileStore.allocate] at handed
    by_cases room : store.pageCount < pageIdLimit
    · rw [if_pos room] at handed
      cases handed
      exact ⟨fun _ => rfl, fun _ => by simp [dirty], rfl, Nat.le_succ _⟩
    · rw [if_neg room] at handed
      cases handed

theorem keeps_of_note (taken : store.note page = .ok later) : store.Keeps [page] later := by
  have listed (set : PageSet) (other : PageId) :
      other ∈ set.insert page ↔ other ∈ [page] ∨ other ∈ set := by
    rw [PageSet.mem_insert, List.mem_singleton]
  cases checked : checkPageId page with
  | error fault =>
    cases store <;> simp [note, MemoryStore.note, FileStore.note, checked, bind, Except.bind,
      Functor.map, Except.map] at taken
  | ok _ =>
    cases store with
    | memory store =>
      simp only [note, MemoryStore.note, checked] at taken
      cases taken
      exact ⟨fun _ => rfl, fun _ => listed .., rfl, Nat.le_refl _⟩
    | file store =>
      simp only [note, FileStore.note, checked] at taken
      cases taken
      exact ⟨fun _ => rfl, fun _ => listed .., rfl, Nat.le_refl _⟩

theorem Works.keeps (works : store.Works noted later) : store.Keeps noted later := by
  induction works with
  | rest => exact .of_eq rfl
  | allocate _ handed ih => exact ih.trans (keeps_of_allocate handed)
  | note _ taken ih => exact ih.trans (keeps_of_note taken)

theorem Keeps.allocated (keeps : store.Keeps noted later) (here : store.Allocated page) :
    later.Allocated page :=
  ⟨here.unreserved, Nat.lt_of_lt_of_le here.below keeps.nextPage⟩

/-- What was read of a page before is still read. -/
theorem Keeps.read (keeps : store.Keeps noted later) (here : store.read page = .ok image) :
    later.read page = .ok image := by
  obtain ⟨allocated, same⟩ := read_eq_ok_iff.mp here
  exact read_eq_ok_iff.mpr ⟨keeps.allocated allocated, (keeps.kept page).trans same⟩

/-! ## Writing -/

/-- `later` is the store once it took an image of a page that it had handed out. -/
structure Stores (store : Store) (page : PageId) (image : Buffer) (later : Store) : Prop where
  allocated : store.Allocated page
  sized : image.size = store.pageSize
  here : later.kept page = image
  elsewhere : ∀ other, other ≠ page → later.kept other = store.kept other
  dirty : ∀ other, other ∈ later.dirty ↔ other ≠ page ∧ other ∈ store.dirty
  pageSize : later.pageSize = store.pageSize
  nextPage : later.nextPage = store.nextPage

theorem of_write {α : Type} {pageSize : Nat} {allocated : Bool} {value answer : α}
    (run : (do
      checkPageId page
      checkImageLength pageSize image
      if !allocated then
        throw (.invalid .writeUnallocated)
      return value : Except Fault α) = .ok answer) :
    page ≠ .reserved ∧ image.size = pageSize ∧ allocated ∧ value = answer := by
  obtain ⟨_, checked, run⟩ := except_bind_ok run
  obtain ⟨_, sized, run⟩ := except_bind_ok run
  cases allocated with
  | false => cases run
  | true =>
    cases run
    exact ⟨ne_reserved_of_checkPageId checked, size_of_checkImageLength sized, rfl, rfl⟩

private theorem lookup_filter (different : other ≠ page) (images : List (PageId × Buffer)) :
    (images.filter fun entry => entry.1 ≠ page).lookup other = images.lookup other := by
  induction images with
  | nil => rfl
  | cons entry rest ih =>
    obtain ⟨id, image⟩ := entry
    by_cases gone : id = page
    · subst gone
      rw [List.filter_cons_of_neg (by simp), ih, List.lookup_cons, beq_false_of_ne different]
    · rw [List.filter_cons_of_pos (by simpa using gone), List.lookup_cons, List.lookup_cons, ih]

theorem stores_of_write (taken : store.write page image = .ok later) :
    store.Stores page image later := by
  cases store with
  | memory store =>
    rw [write] at taken
    cases wrote : store.write page image with
    | error fault =>
      rw [wrote] at taken
      cases taken
    | ok after =>
      rw [wrote] at taken
      cases taken
      obtain ⟨unreserved, sized, allocated, rfl⟩ := of_write wrote
      refine ⟨⟨unreserved, Nat.lt_succ_of_le (of_decide_eq_true allocated)⟩, sized, ?_, ?_,
        fun other => PageSet.mem_erase .., rfl, rfl⟩
      · show ((List.lookup page ((page, image) :: _)).getD _) = image
        rw [List.lookup_cons_self]
        rfl
      · intro other different
        show ((List.lookup other ((page, image) :: _)).getD _) = (store.images.lookup other).getD _
        rw [List.lookup_cons, beq_false_of_ne different, lookup_filter different]
  | file store =>
    rw [write] at taken
    cases wrote : store.write page image with
    | error fault =>
      rw [wrote] at taken
      cases taken
    | ok after =>
      rw [wrote] at taken
      cases taken
      obtain ⟨unreserved, sized, allocated, rfl⟩ := of_write wrote
      refine ⟨⟨unreserved, of_decide_eq_true allocated⟩, sized, ?_, ?_,
        fun other => PageSet.mem_erase .., rfl, rfl⟩
      · have shown := SparseFile.window_write store.file (store.offset page) image
        rwa [sized] at shown
      · intro other different
        have numbers : other.number.toNat ≠ page.number.toNat := by
          intro same
          apply different
          cases other
          cases page
          exact congrArg PageId.mk (UInt32.toNat_inj.mp same)
        apply SparseFile.window_write_of_apart
        rw [sized]
        show page.number.toNat * store.pageSize + store.pageSize ≤
            other.number.toNat * store.pageSize ∨
          other.number.toNat * store.pageSize + store.pageSize ≤ page.number.toNat * store.pageSize
        rw [← Nat.succ_mul, ← Nat.succ_mul]
        rcases Nat.lt_or_gt_of_ne numbers with below | above
        · exact .inr (Nat.mul_le_mul_right _ below)
        · exact .inl (Nat.mul_le_mul_right _ above)

theorem Stores.read (stores : store.Stores page image later) : later.read page = .ok image := by
  refine read_eq_ok_iff.mpr ⟨⟨stores.allocated.unreserved, ?_⟩, stores.here⟩
  rw [stores.nextPage]
  exact stores.allocated.below

end Store

namespace Engine.Serves

variable {engine later : Engine} {index : Index}

theorem of_keeps {noted : List PageId} (serves : engine.Serves index)
    (keeps : engine.store.Keeps noted later.store) : later.Serves index :=
  ⟨keeps.pageSize.trans serves.pageSize, Nat.lt_of_lt_of_le serves.opened keeps.nextPage⟩

theorem of_stores {page : PageId} {image : Buffer} (serves : engine.Serves index)
    (stores : engine.store.Stores page image later.store) : later.Serves index :=
  ⟨stores.pageSize.trans serves.pageSize, Nat.lt_of_lt_of_eq serves.opened stores.nextPage.symm⟩

end Engine.Serves

/-! ## Calls that leave the images alone -/

namespace LeafCall

variable {α β : Type} {index : Index}

/-- Whatever the leaf, the store has only handed out pages and taken notes when the call ends. -/
def Works (call : LeafCall α) : Prop :=
  ∀ (leaf : Leaf) (engine : Engine), ∃ noted, engine.store.Works noted (call.on leaf engine).2.store

theorem Peeks.works {call : LeafCall α} (peeks : call.Peeks index) : call.Works := by
  intro leaf engine
  obtain ⟨_, n, _, _, run⟩ := peeks.on leaf engine
  rw [run]
  exact ⟨[], .rest⟩

theorem Works.bind {call : LeafCall α} {next : α → LeafCall β} (first : call.Works)
    (second : ∀ value, (next value).Works) : (call >>= next).Works := by
  intro leaf engine
  obtain ⟨noted, works⟩ := first leaf engine
  rw [on_bind]
  rcases run : call.on leaf engine with ⟨⟨fault | value, middle⟩, between⟩ <;> rw [run] at works
  · exact ⟨noted, works⟩
  · obtain ⟨more, later⟩ := second value middle between
    exact ⟨more ++ noted, works.trans later⟩

theorem Works.of_store {call : LeafCall α}
    (same : ∀ leaf engine, (call.on leaf engine).2.store = engine.store) : call.Works := by
  intro leaf engine
  rw [same]
  exact ⟨[], .rest⟩

theorem Works.ite {condition : Prop} [Decidable condition] {call other : LeafCall α}
    (first : call.Works) (second : other.Works) : (if condition then call else other).Works := by
  by_cases holds : condition
  · rw [if_pos holds]
    exact first
  · rw [if_neg holds]
    exact second

/-- A call that may end early works the store if the rest of it does. -/
theorem Works.unless {condition : Prop} [Decidable condition] {fault : Fault}
    {rest : PUnit → LeafCall α} (works : (rest ⟨⟩).Works) :
    (if condition then (throw fault : LeafCall PUnit) >>= rest else rest ⟨⟩).Works :=
  .ite (.of_store fun _ _ => rfl) works

theorem Works.onOther {call : LeafCall α} (works : call.Works) (other : Leaf) :
    (call.onOther other).Works := by
  intro leaf engine
  obtain ⟨noted, done⟩ := works other engine
  rw [on_onOther]
  rcases run : call.on other engine with ⟨⟨fault | value, middle⟩, between⟩ <;> rw [run] at done
  · exact ⟨noted, done⟩
  · exact ⟨noted, done⟩

section

variable (value : α) (leaf : Leaf) (fault : Fault)

theorem works_pure : (pure value : LeafCall α).Works := .of_store fun _ _ => rfl

theorem works_throw : (throw fault : LeafCall α).Works := .of_store fun _ _ => rfl

theorem works_get : (get : LeafCall Leaf).Works := .of_store fun _ _ => rfl

theorem works_set : (set leaf : LeafCall PUnit).Works := .of_store fun _ _ => rfl

theorem works_modify (change : Leaf → Leaf) : (modify change : LeafCall PUnit).Works :=
  .of_store fun _ _ => rfl

theorem works_ofExcept (outcome : Except Fault α) :
    (MonadExcept.ofExcept outcome : LeafCall α).Works :=
  .of_store fun _ _ => by rw [on_ofExcept]

theorem works_count (counter : Counter) (amount : Nat) :
    (liftM (Engine.count counter amount) : LeafCall Unit).Works :=
  .of_store fun _ _ => rfl

theorem works_report (event : Event) : (liftM (Engine.report event) : LeafCall Unit).Works :=
  .of_store fun _ _ => rfl

end

theorem works_allocatePage : (liftM Engine.allocatePage : LeafCall PageId).Works := by
  intro leaf engine
  rw [on_engine]
  rcases run : Engine.allocatePage.on engine with ⟨fault | page, after⟩
  · rw [Engine.allocatePage_error run]
    exact ⟨[], .rest⟩
  · exact ⟨[], Store.Works.rest.allocate (Engine.allocatePage_ok run)⟩

theorem works_notePage (page : PageId) : (liftM (Engine.notePage page) : LeafCall Unit).Works := by
  intro leaf engine
  rw [on_engine]
  rcases run : (Engine.notePage page).on engine with ⟨fault | _, after⟩
  · rw [Engine.notePage_error run]
    exact ⟨[], .rest⟩
  · exact ⟨[page], Store.Works.rest.note (Engine.notePage_ok run)⟩

end LeafCall

open LeafCall

namespace Leaf

theorem setParent_works (parent : Option PageId) : (setParent parent).Works :=
  works_get.bind fun _ => .ite (works_set _) (works_pure _)

theorem place_works (index : Index) (slot : Nat) (row : Row) : (place index slot row).Works := by
  refine works_get.bind fun leaf => (works_ofExcept _).bind fun slots => ?_
  refine (works_set _).bind fun _ => works_get.bind fun placed => ?_
  refine (works_ofExcept _).bind fun _ => (works_notePage leaf.id).bind fun _ => ?_
  exact (works_count _ _).bind fun _ => works_report _

theorem compact_works (index : Index) : (compact index).Works := by
  refine works_get.bind fun former => (works_modify _).bind fun _ => ?_
  refine (works_ofExcept _).bind fun slots => (works_modify _).bind fun _ => ?_
  exact .ite ((works_count _ _).bind fun _ => works_report _) (works_pure _)

theorem insert_works (index : Index) (row : Row) : (insert index row).Works := by
  refine (loadRows_peeks index).works.bind fun _ => ?_
  refine (search_peeks index .insertion row).works.bind fun slot => works_get.bind fun leaf => ?_
  apply Works.ite
  · exact (place_works _ _ _).bind fun _ => works_pure _
  apply Works.ite
  · exact (works_count _ _).bind fun _ => (works_report _).bind fun _ => works_pure _
  refine (compact_works index).bind fun _ => works_get.bind fun turned => ?_
  exact .unless ((place_works _ _ _).bind fun _ => works_pure _)

theorem removeAt_works (index : Index) (slot : Nat) : (removeAt index slot).Works := by
  refine (loadRows_peeks index).works.bind fun _ => works_get.bind fun leaf => ?_
  refine .unless (.unless ((works_ofExcept _).bind fun span => (works_set _).bind fun _ => ?_))
  refine works_get.bind fun removed => (works_ofExcept _).bind fun _ => ?_
  exact (works_count _ _).bind fun _ => works_report _

theorem remove_works (index : Index) (target : Row) : (remove index target).Works := by
  refine (search_peeks index .removal target).works.bind fun slot => ?_
  refine (holds_peeks index slot target).works.bind fun held => ?_
  apply Works.ite
  · exact works_get.bind fun leaf => .of_store fun _ _ => rfl
  refine works_get.bind fun leaf => ?_
  apply Works.ite
  · refine (row_peeks index slot).works.bind fun only => works_get.bind fun leaf => ?_
    exact (works_report _).bind fun _ => works_pure _
  refine (removeAt_works index slot).bind fun _ => works_get.bind fun leaf => ?_
  refine (works_notePage leaf.id).bind fun _ => works_get.bind fun leaf => ?_
  apply Works.ite
  · exact (row_peeks index (slot - 1)).works.bind fun last => works_pure _
  · exact works_pure _

theorem moveRows_works (index : Index) (slot n : Nat) (target : Leaf) :
    (moveRows index slot n target).Works := by
  induction n generalizing target with
  | zero => exact works_pure _
  | succ n ih =>
    refine (row_peeks index slot).works.bind fun moving => ?_
    refine ((insert_works index moving).onOther target).bind ?_
    rintro ⟨_ | point, target⟩
    · exact (removeAt_works index slot).bind fun _ => ih target
    · exact works_throw _

theorem split_works (index : Index) (point : Nat) : (split index point).Works := by
  refine works_get.bind fun leaf => .unless (works_allocatePage.bind fun id => ?_)
  refine (loadRows_peeks index).works.bind fun _ =>
    (moveRows_works index _ _ _).bind fun right => ?_
  exact (works_count _ _).bind fun _ => (works_report _).bind fun _ => works_pure _

end Leaf

end SlottedLeaf
