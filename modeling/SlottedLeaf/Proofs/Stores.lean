import SlottedLeaf.Proofs.Calls
import Mathlib.Logic.Basic

/-!
# What a store promises

A store hands out pages by number, so the number of the next page tells which were handed out. Page
numbers only grow, the length of a page never changes, and a page that was written is read back.
-/

namespace SlottedLeaf

theorem checkPageId_of_ne {page : PageId} (unreserved : page ≠ .reserved) :
    checkPageId page = .ok () := if_neg unreserved

namespace MemoryStore

variable {store : MemoryStore} {page : PageId}

theorem write_eq {image : Buffer} (unreserved : page ≠ .reserved)
    (allocated : store.isAllocated page) (sized : image.size = store.pageSize) :
    store.write page image = .ok { store with
      images := (page, image) :: store.images.filter fun entry => entry.1 ≠ page
      dirty := store.dirty.erase page
      writes := store.writes + 1 } := by
  rw [write, checkPageId_of_ne unreserved,
    show checkImageLength store.pageSize image = .ok () from if_neg (not_not_intro sized),
    allocated]
  rfl

theorem read_eq (unreserved : page ≠ .reserved) (allocated : store.isAllocated page) :
    store.read page = .ok ((store.images.lookup page).getD (.zeros store.pageSize)) := by
  rw [read, checkPageId_of_ne unreserved, allocated]
  rfl

end MemoryStore

namespace FileStore

variable {store : FileStore} {page : PageId}

theorem write_eq {image : Buffer} (unreserved : page ≠ .reserved)
    (allocated : store.isAllocated page) (sized : image.size = store.pageSize) :
    store.write page image = .ok { store with
      file := store.file.write (store.offset page) image
      dirty := store.dirty.erase page } := by
  rw [write, checkPageId_of_ne unreserved,
    show checkImageLength store.pageSize image = .ok () from if_neg (not_not_intro sized),
    allocated]
  rfl

theorem read_eq (unreserved : page ≠ .reserved) (allocated : store.isAllocated page) :
    store.read page = .ok (store.file.window (store.offset page) store.pageSize) := by
  rw [read, checkPageId_of_ne unreserved, allocated]
  rfl

/-- What a file has that is opened, and the store over it. -/
theorem ofFile_ok {pageSize : Nat} {file : SparseFile} (opens : ofFile pageSize file = .ok store) :
    checkPageSize pageSize = .ok () ∧ file.length % pageSize = 0 ∧
      file.length / pageSize < UInt32.size ∧
      store = ⟨pageSize, if file.length / pageSize = 0 then file.resize pageSize else file,
        max (file.length / pageSize) 1, .empty⟩ := by
  rw [ofFile] at opens
  obtain ⟨_, valid, opens⟩ := except_bind_ok opens
  obtain ⟨whole, opens⟩ := except_guard_ok opens
  obtain ⟨few, opens⟩ := except_guard_ok opens
  cases opens
  exact ⟨valid, not_not.mp whole, Nat.lt_of_not_le few, rfl⟩

end FileStore

namespace Store

/-- The number of the page that the store hands out next. -/
def nextPage : Store → Nat
  | memory store => store.allocated + 1
  | file store => store.pageCount

/-- The store handed the page out. -/
structure Allocated (store : Store) (page : PageId) : Prop where
  unreserved : page ≠ .reserved
  below : page.number.toNat < store.nextPage

/-- `later` is the store once it handed out `n` more pages: its pages are as long as before. -/
structure Grows (store : Store) (n : Nat) (later : Store) : Prop where
  pageSize : later.pageSize = store.pageSize
  nextPage : later.nextPage = store.nextPage + n

namespace Grows

variable {store middle later : Store} {n m : Nat}

theorem refl (store : Store) : store.Grows 0 store := ⟨rfl, rfl⟩

theorem trans (first : store.Grows n middle) (second : middle.Grows m later) :
    store.Grows (n + m) later :=
  ⟨second.pageSize.trans first.pageSize, by rw [second.nextPage, first.nextPage, Nat.add_assoc]⟩

end Grows

/-- While numbers last, a store hands out the next page. -/
theorem allocate_of_room {store : Store} (opened : 0 < store.nextPage)
    (room : store.nextPage < pageIdLimit) :
    ∃ later, store.allocate = .ok (⟨UInt32.ofNat store.nextPage⟩, later) ∧ store.Grows 1 later := by
  cases store with
  | memory store =>
    refine ⟨memory { store with allocated := store.allocated + 1 }, ?_, rfl, rfl⟩
    simp only [nextPage] at room
    simp only [allocate, MemoryStore.allocate, if_pos room]
    rfl
  | file store =>
    refine ⟨file { store with
      file := store.file.extend ((store.pageCount + 1) * store.pageSize)
      pageCount := store.pageCount + 1 }, ?_, rfl, rfl⟩
    simp only [nextPage] at room
    simp only [allocate, FileStore.allocate, if_pos room]
    rfl

/-- A page is allocated once it was handed out. -/
theorem Grows.allocated_next {store later : Store} (grows : store.Grows 1 later)
    (opened : 0 < store.nextPage) (room : store.nextPage < pageIdLimit) :
    later.Allocated ⟨UInt32.ofNat store.nextPage⟩ := by
  have small : store.nextPage < UInt32.size := Nat.lt_of_lt_of_le room (by decide)
  have number : (UInt32.ofNat store.nextPage).toNat = store.nextPage :=
    UInt32.toNat_ofNat_of_lt' small
  constructor
  · intro same
    have none := congrArg (fun page : PageId => page.number.toNat) same
    simp only [number, PageId.reserved] at none
    exact Nat.ne_of_gt opened none
  · rw [number, grows.nextPage]
    exact Nat.lt_succ_self _

theorem allocate_of_full {store : Store} (full : pageIdLimit ≤ store.nextPage) :
    store.allocate = .error (.invalid .pagesExhausted) := by
  cases store with
  | memory store =>
    simp only [nextPage] at full
    simp [allocate, MemoryStore.allocate, Nat.not_lt.mpr full, Except.map]
  | file store =>
    simp only [nextPage] at full
    simp [allocate, FileStore.allocate, Nat.not_lt.mpr full, Except.map]

/-- Noting a page fails for the reserved page alone, and hands out no page. -/
theorem note_eq (store : Store) (page : PageId) :
    ∃ later, store.note page = (checkPageId page).map (fun _ => later) ∧ store.Grows 0 later := by
  cases store with
  | memory store =>
    refine ⟨memory { store with dirty := store.dirty.insert page, updates := store.updates + 1 },
      ?_, rfl, rfl⟩
    rw [note, MemoryStore.note]
    cases checkPageId page <;> rfl
  | file store =>
    refine ⟨file { store with dirty := store.dirty.insert page }, ?_, rfl, rfl⟩
    rw [note, FileStore.note]
    cases checkPageId page <;> rfl

private theorem checked_cases {α : Type} (pageSize : Nat) (page : PageId) (image : Buffer)
    (allocated : Bool) (later : α) {checked : Except Fault α}
    (same : checked = (do
      checkPageId page
      checkImageLength pageSize image
      if !allocated then
        throw (.invalid .writeUnallocated)
      return later)) :
    checked = .ok later ∨ ∃ cause, checked = .error (.invalid cause) := by
  subst same
  unfold checkPageId checkImageLength
  split
  · exact .inr ⟨_, rfl⟩
  · split
    · exact .inr ⟨_, rfl⟩
    · cases allocated
      · exact .inr ⟨_, rfl⟩
      · exact .inl rfl

/-- A store takes an image, or finds fault with what it was called with. -/
theorem write_cases (store : Store) (page : PageId) (image : Buffer) :
    (∃ later, store.write page image = .ok later ∧ store.Grows 0 later) ∨
      ∃ cause, store.write page image = .error (.invalid cause) := by
  cases store with
  | memory store =>
    rcases checked_cases store.pageSize page image (store.isAllocated page) _
      (show store.write page image = _ from rfl) with taken | ⟨cause, refused⟩
    · exact .inl ⟨_, congrArg (memory <$> ·) taken, rfl, rfl⟩
    · exact .inr ⟨cause, congrArg (memory <$> ·) refused⟩
  | file store =>
    rcases checked_cases store.pageSize page image (store.isAllocated page) _
      (show store.write page image = _ from rfl) with taken | ⟨cause, refused⟩
    · exact .inl ⟨_, congrArg (file <$> ·) taken, rfl, rfl⟩
    · exact .inr ⟨cause, congrArg (file <$> ·) refused⟩

/-- A page that was handed out can be written, and what was written is read back. -/
theorem write_of_allocated {store : Store} {page : PageId} {image : Buffer}
    (allocated : store.Allocated page) (sized : image.size = store.pageSize) :
    ∃ later, store.write page image = .ok later ∧ store.Grows 0 later ∧
      later.read page = .ok image := by
  obtain ⟨unreserved, below⟩ := allocated
  cases store with
  | memory store =>
    have here : store.isAllocated page := decide_eq_true (Nat.le_of_lt_succ below)
    refine ⟨memory _, congrArg (memory <$> ·) (MemoryStore.write_eq unreserved here sized),
      ⟨rfl, rfl⟩, ?_⟩
    refine (MemoryStore.read_eq unreserved ?_).trans ?_
    · exact here
    · rw [List.lookup_cons_self]
      rfl
  | file store =>
    have here : store.isAllocated page := decide_eq_true below
    refine ⟨file _, congrArg (file <$> ·) (FileStore.write_eq unreserved here sized),
      ⟨rfl, rfl⟩, ?_⟩
    refine (FileStore.read_eq unreserved ?_).trans ?_
    · exact here
    · have shown := SparseFile.window_write store.file (store.offset page) image
      rw [show image.size = store.pageSize from sized] at shown
      exact congrArg Except.ok shown

end Store

namespace Engine

def stored (engine : Engine) (store : Store) : Engine := { engine with store }

@[simp]
theorem store_stored (engine : Engine) (store : Store) : (engine.stored store).store = store := rfl

/-- The engine's store keeps pages of the index's size, page 0 taken out. -/
structure Serves (engine : Engine) (index : Index) : Prop where
  pageSize : engine.store.pageSize = index.pageSize
  opened : 0 < engine.store.nextPage

theorem Serves.grow {engine later : Engine} {index : Index} {n : Nat}
    (serves : engine.Serves index) (grows : engine.store.Grows n later.store) :
    later.Serves index := by
  refine ⟨grows.pageSize.trans serves.pageSize, ?_⟩
  rw [grows.nextPage]
  exact Nat.add_pos_left serves.opened n

/-- The engine over a store in memory that has handed out some pages. -/
def inMemory (pageSize allocated : Nat) : Engine :=
  .start (.memory ⟨pageSize, allocated, [], .empty, 0, 0⟩)

theorem inMemory_serves (index : Index) (allocated : Nat) :
    (inMemory index.pageSize allocated).Serves index :=
  ⟨rfl, Nat.succ_pos allocated⟩

theorem allocatePage_of_room {engine : Engine} (opened : 0 < engine.store.nextPage)
    (room : engine.store.nextPage < pageIdLimit) :
    ∃ later event, allocatePage.on engine =
        (.ok ⟨UInt32.ofNat engine.store.nextPage⟩, (engine.stored later).reported event) ∧
      engine.store.Grows 1 later := by
  obtain ⟨later, allocated, grows⟩ := Store.allocate_of_room opened room
  cases later with
  | memory store =>
    refine ⟨.memory store, .memoryPageAllocated ⟨UInt32.ofNat engine.store.nextPage⟩, ?_, grows⟩
    simp only [allocatePage, EngineCall.on_bind, EngineCall.on_get, allocated,
      EngineCall.on_ofExcept, EngineCall.on_modify, EngineCall.on_report, EngineCall.on_pure]
    rfl
  | file store =>
    refine ⟨.file store, .filePageAllocated ⟨UInt32.ofNat engine.store.nextPage⟩, ?_, grows⟩
    simp only [allocatePage, EngineCall.on_bind, EngineCall.on_get, allocated,
      EngineCall.on_ofExcept, EngineCall.on_modify, EngineCall.on_report, EngineCall.on_pure]
    rfl

theorem allocatePage_of_full {engine : Engine} (full : pageIdLimit ≤ engine.store.nextPage) :
    allocatePage.on engine = (.error (.invalid .pagesExhausted), engine) := by
  simp only [allocatePage, EngineCall.on_bind, EngineCall.on_get, Store.allocate_of_full full,
    EngineCall.on_ofExcept]

theorem notePage_on (engine : Engine) (page : PageId) :
    ∃ later, (notePage page).on engine = (checkPageId page, engine.stored later) ∧
      engine.store.Grows 0 later := by
  obtain ⟨later, noted, grows⟩ := engine.store.note_eq page
  cases checked : checkPageId page with
  | error fault =>
    refine ⟨engine.store, ?_, .refl _⟩
    simp only [notePage, EngineCall.on_bind, EngineCall.on_get, noted, checked, Except.map,
      EngineCall.on_ofExcept]
    rfl
  | ok _ =>
    refine ⟨later, ?_, grows⟩
    simp only [notePage, EngineCall.on_bind, EngineCall.on_get, noted, checked, Except.map,
      EngineCall.on_ofExcept, EngineCall.on_modify]
    rfl

end Engine

end SlottedLeaf
