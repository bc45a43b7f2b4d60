import SlottedLeaf.Proofs.Pages

/-!
# What a file keeps

A file store counts its pages in memory, and the length of its file counts them once more: that
length is all that a store opened over the file later has to go by. The two counts agree after every
call. So a page shows what was written to it last and no page is handed out twice, whether the store
was reopened in between or not.
-/

namespace SlottedLeaf

/-- What a store is asked for. -/
inductive StoreCall where
  | allocate
  | note (page : PageId)
  | write (page : PageId) (image : Buffer)
  | read (page : PageId)
  | listDirty
deriving DecidableEq, Repr

/-- What a store answers. -/
inductive StoreAnswer where
  | done
  | page (page : PageId)
  | image (image : Buffer)
  | pages (pages : List PageId)
deriving DecidableEq, Repr

namespace FileStore

/-- What is done with a file store. Reopening forgets all that is not in the file. -/
inductive Step where
  | call (call : StoreCall)
  | reopen
deriving DecidableEq, Repr

def answer (store : FileStore) : StoreCall → Except Fault (StoreAnswer × FileStore)
  | .allocate => store.allocate.map fun (page, later) => (.page page, later)
  | .note page => (store.note page).map fun later => (.done, later)
  | .write page image => (store.write page image).map fun later => (.done, later)
  | .read page => (store.read page).map fun image => (.image image, store)
  | .listDirty => .ok (.pages store.dirty.pages, store)

def take (store : FileStore) : Step → Except Fault (StoreAnswer × FileStore)
  | .call call => store.answer call
  | .reopen => (ofFile store.pageSize store.file).map fun later => (.done, later)

/-- A step, with what it answers; a step that fails leaves the store as it is. -/
def perform (store : FileStore) (step : Step) : Except Fault StoreAnswer × FileStore :=
  match store.take step with
  | .ok (answer, later) => (.ok answer, later)
  | .error fault => (.error fault, store)

/-- Steps with what they answered, the earliest first. -/
abbrev History := List (Step × Except Fault StoreAnswer)

def run (store : FileStore) : List Step → History × FileStore
  | [] => ([], store)
  | step :: rest =>
    let (answer, later) := store.perform step
    let (history, last) := later.run rest
    ((step, answer) :: history, last)

namespace History

/-- What a step has written to a page. -/
def written (page : PageId) : Step × Except Fault StoreAnswer → Option Buffer
  | (.call (.write other image), .ok _) => if other = page then some image else none
  | _ => none

/-- What was written to a page last. -/
def lastWritten (page : PageId) (history : History) : Option Buffer :=
  history.reverse.findSome? (written page)

def handedOut : Step × Except Fault StoreAnswer → Option PageId
  | (.call .allocate, .ok (.page page)) => some page
  | _ => none

/-- The pages that were handed out, the earliest first. -/
def handed (history : History) : List PageId := history.filterMap handedOut

theorem lastWritten_append (page : PageId) (first second : History) :
    lastWritten page (first ++ second) =
      (lastWritten page second).or (lastWritten page first) := by
  rw [lastWritten, List.reverse_append, List.findSome?_append]
  rfl

theorem handed_append (first second : History) :
    handed (first ++ second) = handed first ++ handed second :=
  List.filterMap_append

end History

open History

/-! ## A file as long as its pages -/

/-- The length of the file and the page count in memory agree, so the store can be opened again. -/
structure Sound (store : FileStore) : Prop where
  pageSize : checkPageSize store.pageSize = .ok ()
  length : store.file.length = store.pageCount * store.pageSize
  opened : 1 ≤ store.pageCount
  numbered : store.pageCount ≤ pageIdLimit

namespace Sound

variable {store : FileStore}

theorem pageSize_pos (sound : store.Sound) : 0 < store.pageSize :=
  Nat.lt_of_lt_of_le (by decide) ((checkPageSize_eq_ok_iff _).mp sound.pageSize).1

/-- Reopening finds the same pages, and no page noted. -/
theorem reopen (sound : store.Sound) :
    ofFile store.pageSize store.file = .ok { store with dirty := .empty } := by
  have whole : store.file.length % store.pageSize = 0 := by
    rw [sound.length, Nat.mul_mod_left]
  have count : store.file.length / store.pageSize = store.pageCount := by
    rw [sound.length, Nat.mul_div_cancel _ sound.pageSize_pos]
  have few : ¬ UInt32.size ≤ store.pageCount :=
    Nat.not_le.mpr (Nat.lt_of_le_of_lt sound.numbered (by decide))
  have some : store.pageCount ≠ 0 := Nat.ne_of_gt sound.opened
  rw [ofFile, sound.pageSize]
  simp only [bind, Except.bind, whole, count, few, some, ne_eq, not_true_eq_false, if_false,
    Nat.max_eq_left sound.opened]
  rfl

end Sound

/-- What a file of these bytes has of a page; past its end there are zeros. -/
def contents (bytes : Bytes) (pageSize : Nat) (page : PageId) : Buffer :=
  ((bytes.slice (page.number.toNat * pageSize) pageSize).resize pageSize).toArray

/-- An empty file is given page 0. -/
theorem ofFile_empty {pageSize : Nat} (valid : checkPageSize pageSize = .ok ()) :
    ofFile pageSize (.ofBytes []) = .ok ⟨pageSize, ⟨pageSize, []⟩, 1, .empty⟩ := by
  have few : ¬ UInt32.size ≤ 0 := by decide
  have blank : (SparseFile.ofBytes []).resize pageSize = ⟨pageSize, []⟩ := by
    simp [SparseFile.resize, SparseFile.cut, SparseFile.ofBytes]
  have none : (SparseFile.ofBytes []).length = 0 := rfl
  simp only [ofFile, valid, bind, Except.bind, blank, none, Nat.zero_mod, Nat.zero_div, ne_eq,
    not_true_eq_false, few, if_false, if_true]
  rfl

/-- A file of whole pages can be opened. The store shows the pages of the file, with page 0 there
in any case. -/
theorem ofFile_ofBytes {bytes : Bytes} {pageSize : Nat} (valid : checkPageSize pageSize = .ok ())
    (whole : bytes.length % pageSize = 0) (few : bytes.length / pageSize < pageIdLimit) :
    ∃ store, ofFile pageSize (.ofBytes bytes) = .ok store ∧ store.Sound ∧
      store.pageSize = pageSize ∧ store.pageCount = max (bytes.length / pageSize) 1 ∧
      ∀ page, Store.kept page (.file store) = contents bytes pageSize page := by
  have length : bytes.length = bytes.length / pageSize * pageSize :=
    (Nat.div_mul_cancel (Nat.dvd_of_mod_eq_zero whole)).symm
  by_cases none : bytes.length / pageSize = 0
  · have empty : bytes = [] := by
      rw [none, Nat.zero_mul] at length
      exact List.eq_nil_of_length_eq_zero length
    subst empty
    refine ⟨_, ofFile_empty valid, ⟨valid, (Nat.one_mul _).symm, Nat.le_refl 1,
      show 1 ≤ pageIdLimit by decide⟩, rfl, ?_, ?_⟩
    · rw [List.length_nil, Nat.zero_div]
      rfl
    · intro page
      have blank : contents [] pageSize page = .zeros pageSize := by
        simp [contents, Bytes.slice, Bytes.resize, Bytes.zeros, Buffer.zeros]
      rw [blank]
      rfl
  · have some : 1 ≤ bytes.length / pageSize := Nat.one_le_iff_ne_zero.mpr none
    have sound : Sound ⟨pageSize, .ofBytes bytes, bytes.length / pageSize, .empty⟩ :=
      ⟨valid, length, some, Nat.le_of_lt few⟩
    refine ⟨_, sound.reopen, sound, rfl, (Nat.max_eq_left some).symm, ?_⟩
    intro page
    exact SparseFile.window_ofBytes bytes _ _

/-! ## Runs -/

/-- `later` is the store after what the history tells. -/
structure Follows (store : FileStore) (history : History) (later : FileStore) : Prop where
  sound : later.Sound
  pageSize : later.pageSize = store.pageSize
  kept : ∀ page, Store.kept page (.file later) =
    (lastWritten page history).getD (Store.kept page (.file store))
  unwritten : lastWritten .reserved history = none
  count : later.pageCount = store.pageCount + (handed history).length
  numbers : (handed history).map (·.number.toNat) =
    List.range' store.pageCount (handed history).length

namespace Follows

variable {store middle later : FileStore} {first second : History} {step : Step}

theorem refl (sound : store.Sound) : store.Follows [] store :=
  ⟨sound, rfl, fun _ => rfl, rfl, rfl, rfl⟩

theorem trans (early : store.Follows first middle) (late : middle.Follows second later) :
    store.Follows (first ++ second) later where
  sound := late.sound
  pageSize := late.pageSize.trans early.pageSize
  kept page := by
    rw [late.kept, early.kept, lastWritten_append]
    cases lastWritten page second <;> rfl
  unwritten := by
    rw [lastWritten_append, late.unwritten, early.unwritten]
    rfl
  count := by
    rw [late.count, early.count, handed_append, List.length_append, Nat.add_assoc]
  numbers := by
    rw [handed_append, List.map_append, early.numbers, late.numbers, early.count,
      List.length_append, List.range'_append_1]

/-- A step that writes nothing and hands out nothing leaves the pages and their count. -/
theorem of_same {answer : Except Fault StoreAnswer} (sound : later.Sound)
    (pageSize : later.pageSize = store.pageSize) (count : later.pageCount = store.pageCount)
    (kept : ∀ page, Store.kept page (.file later) = Store.kept page (.file store))
    (unwritten : ∀ page, written page (step, answer) = none)
    (unhanded : handedOut (step, answer) = none) : store.Follows [(step, answer)] later := by
  have silent (page : PageId) : lastWritten page [(step, answer)] = none := by
    simp only [lastWritten, List.reverse_singleton, List.findSome?_cons, unwritten,
      List.findSome?_nil]
  have nothing : handed [(step, answer)] = [] := by
    simp only [handed, List.filterMap_cons, unhanded, List.filterMap_nil]
  refine ⟨sound, pageSize, ?_, silent _, ?_, ?_⟩
  · intro page
    rw [silent, kept]
    rfl
  · rw [nothing, count]
    rfl
  · rw [nothing]
    rfl

theorem of_refused (sound : store.Sound) (step : Step) (fault : Fault) :
    store.Follows [(step, .error fault)] store := by
  refine .of_same sound rfl rfl (fun _ => rfl) ?_ ?_
  · intro page
    cases step with
    | reopen => rfl
    | call call => cases call <;> rfl
  · cases step with
    | reopen => rfl
    | call call => cases call <;> rfl

end Follows

variable {store later : FileStore} {page : PageId} {image : Buffer}

theorem allocate_ok (handed : store.allocate = .ok (page, later)) :
    store.pageCount < pageIdLimit ∧ page = ⟨.ofNat store.pageCount⟩ ∧
      later = { store with
        file := store.file.extend ((store.pageCount + 1) * store.pageSize)
        pageCount := store.pageCount + 1 } := by
  rw [allocate] at handed
  by_cases room : store.pageCount < pageIdLimit
  · rw [if_pos room] at handed
    cases handed
    exact ⟨room, rfl, rfl⟩
  · rw [if_neg room] at handed
    cases handed

theorem toNat_ofNat_of_room {count : Nat} (room : count < pageIdLimit) :
    (UInt32.ofNat count).toNat = count :=
  UInt32.toNat_ofNat_of_lt' (Nat.lt_trans room (by decide))

/-- A page that is handed out is the next one after all pages of the file. -/
theorem follows_of_allocate (sound : store.Sound) (given : store.allocate = .ok (page, later)) :
    store.Follows [(.call .allocate, .ok (.page page))] later := by
  obtain ⟨room, rfl, rfl⟩ := allocate_ok given
  refine ⟨⟨sound.pageSize, rfl, Nat.le_add_left 1 _, room⟩, rfl, fun _ => rfl, rfl, rfl, ?_⟩
  show [(UInt32.ofNat store.pageCount).toNat] = [store.pageCount]
  rw [toNat_ofNat_of_room room]

/-- An image that is written lies within the file, so the file stays as long as it was. -/
theorem follows_of_write (sound : store.Sound) (wrote : store.write page image = .ok later) :
    store.Follows [(.call (.write page image), .ok .done)] later := by
  have stores : (Store.file store).Stores page image (.file later) :=
    Store.stores_of_write (congrArg (Store.file <$> ·) wrote)
  obtain ⟨unreserved, sized, allocated, rfl⟩ :=
    Store.of_write (show store.write page image = .ok later from wrote)
  have within : store.offset page + image.size ≤ store.file.length := by
    rw [sized, sound.length, offset, ← Nat.succ_mul]
    exact Nat.mul_le_mul_right _ (of_decide_eq_true allocated)
  have silent (other : PageId) (different : other ≠ page) :
      lastWritten other [(.call (.write page image), .ok .done)] = none := by
    simp only [lastWritten, List.reverse_singleton, List.findSome?_cons, written,
      if_neg (Ne.symm different), List.findSome?_nil]
  refine ⟨⟨sound.pageSize, ?_, sound.opened, sound.numbered⟩, rfl, ?_, ?_, rfl, rfl⟩
  · exact (Nat.max_eq_left within).trans sound.length
  · intro other
    by_cases here : other = page
    · subst here
      rw [stores.here]
      simp [lastWritten, written]
    · rw [stores.elsewhere other here, silent other here]
      rfl
  · exact silent _ (Ne.symm unreserved)

/-- Whatever is done with a store, and whether it fails, the store after it is what the step and its
answer tell. -/
theorem follows_of_perform (sound : store.Sound) (step : Step) :
    store.Follows [(step, (store.perform step).1)] (store.perform step).2 := by
  cases taken : store.take step with
  | error fault =>
    simp only [perform, taken]
    exact .of_refused sound step fault
  | ok result =>
    obtain ⟨answer, later⟩ := result
    simp only [perform, taken]
    cases step with
    | reopen =>
      rw [take, sound.reopen] at taken
      cases taken
      exact .of_same ⟨sound.pageSize, sound.length, sound.opened, sound.numbered⟩ rfl rfl
        (fun _ => rfl) (fun _ => rfl) rfl
    | call call =>
      cases call with
      | allocate =>
        rw [take, FileStore.answer] at taken
        cases given : store.allocate with
        | error fault => rw [given] at taken; cases taken
        | ok result =>
          rw [given] at taken
          cases taken
          exact follows_of_allocate sound given
      | note page =>
        rw [take, FileStore.answer] at taken
        cases noted : store.note page with
        | error fault => rw [noted] at taken; cases taken
        | ok after =>
          rw [noted] at taken
          cases taken
          obtain ⟨_, _, same⟩ := except_bind_ok noted
          cases same
          exact .of_same ⟨sound.pageSize, sound.length, sound.opened, sound.numbered⟩ rfl rfl
            (fun _ => rfl) (fun _ => rfl) rfl
      | write page image =>
        rw [take, FileStore.answer] at taken
        cases wrote : store.write page image with
        | error fault => rw [wrote] at taken; cases taken
        | ok after =>
          rw [wrote] at taken
          cases taken
          exact follows_of_write sound wrote
      | read page =>
        rw [take, FileStore.answer] at taken
        cases shown : store.read page with
        | error fault => rw [shown] at taken; cases taken
        | ok image =>
          rw [shown] at taken
          cases taken
          exact .of_same sound rfl rfl (fun _ => rfl) (fun _ => rfl) rfl
      | listDirty =>
        cases taken
        exact .of_same sound rfl rfl (fun _ => rfl) (fun _ => rfl) rfl

theorem follows_of_run (sound : store.Sound) (steps : List Step) :
    store.Follows (store.run steps).1 (store.run steps).2 := by
  induction steps generalizing store with
  | nil => exact .refl sound
  | cons step rest ih =>
    have first := follows_of_perform sound step
    exact first.trans (ih first.sound)

/-- What holds of a store after any run over a file of these bytes. -/
structure Persists (bytes : Bytes) (pageSize : Nat) (history : History) (store : FileStore) :
    Prop where
  length : store.file.length = store.pageCount * pageSize
  opened : 1 ≤ store.pageCount
  reads : ∀ page : PageId, 1 ≤ page.number.toNat → page.number.toNat < store.pageCount →
    store.read page =
      .ok ((lastWritten page history).getD (contents bytes pageSize page))
  reserved : Store.kept .reserved (.file store) = contents bytes pageSize .reserved
  /-- No step changes a page but one that writes to it. -/
  apart : ∀ (step : Step) (page : PageId), (∀ image, step ≠ .call (.write page image)) →
    Store.kept page (.file (store.perform step).2) = Store.kept page (.file store)
  takes : ∀ (page : PageId) (image : Buffer), 1 ≤ page.number.toNat →
    page.number.toNat < store.pageCount → image.size = pageSize →
      ∃ later, store.write page image = .ok later
  hands : store.pageCount < pageIdLimit → ∃ page later, store.allocate = .ok (page, later)
  fresh : ∀ page later, store.allocate = .ok (page, later) →
    page ≠ .reserved ∧ store.pageCount ≤ page.number.toNat ∧
      bytes.length / pageSize ≤ page.number.toNat ∧ page ∉ handed history
  reopens : ∃ later, ofFile pageSize store.file = .ok later ∧ later.pageCount = store.pageCount

theorem Follows.kept_of_unwritten {history : History} (follows : store.Follows history later)
    (unwritten : lastWritten page history = none) :
    Store.kept page (.file later) = Store.kept page (.file store) := by
  rw [follows.kept, unwritten]
  rfl

/-- Only writing to a page writes to it. -/
theorem lastWritten_of_other {step : Step} (other : ∀ image, step ≠ .call (.write page image))
    (answer : Except Fault StoreAnswer) : lastWritten page [(step, answer)] = none := by
  have none : written page (step, answer) = none := by
    cases step with
    | reopen => rfl
    | call call =>
      cases call with
      | write target image =>
        have different : target ≠ page := by
          rintro rfl
          exact other image rfl
        cases answer with
        | error fault => rfl
        | ok answer => exact if_neg different
      | allocate => rfl
      | note page => rfl
      | read page => rfl
      | listDirty => rfl
  simp only [lastWritten, List.reverse_singleton, List.findSome?_cons, none, List.findSome?_nil]

theorem ne_reserved_of_pos (positive : 1 ≤ page.number.toNat) : page ≠ .reserved := by
  rintro rfl
  exact absurd positive (by decide)

/-- The pages that were handed out are in the file. -/
theorem Follows.below_of_handed {history : History} (follows : store.Follows history later)
    (given : page ∈ handed history) : page.number.toNat < later.pageCount := by
  have listed : page.number.toNat ∈ (handed history).map (·.number.toNat) :=
    List.mem_map_of_mem given
  rw [follows.numbers, List.mem_range'_1] at listed
  rw [follows.count]
  exact listed.2

/-- Over a file of whole pages every run keeps the pages: the file is as long as its pages, each of
which shows its last write or what it had at first, nothing is handed out twice, and a store that is
opened over the file again counts the same pages. -/
theorem pages_persist {bytes : Bytes} {pageSize : Nat} (valid : checkPageSize pageSize = .ok ())
    (whole : bytes.length % pageSize = 0) (few : bytes.length / pageSize < pageIdLimit) :
    ∃ store, ofFile pageSize (.ofBytes bytes) = .ok store ∧
      ∀ steps, Persists bytes pageSize (store.run steps).1 (store.run steps).2 := by
  obtain ⟨store, opens, sound, rfl, counted, shown⟩ := ofFile_ofBytes valid whole few
  refine ⟨store, opens, ?_⟩
  intro steps
  have follows := follows_of_run sound steps
  generalize store.run steps = reached at follows ⊢
  obtain ⟨history, later⟩ := reached
  have sized : later.pageSize = store.pageSize := follows.pageSize
  refine ⟨?_, follows.sound.opened, ?_, ?_, ?_, ?_, ?_, ?_, ?_⟩
  · exact sized ▸ follows.sound.length
  · intro page positive below
    rw [FileStore.read_eq (ne_reserved_of_pos positive) (decide_eq_true below), ← shown page]
    exact congrArg Except.ok (follows.kept page)
  · rw [follows.kept_of_unwritten follows.unwritten, shown]
  · intro step page other
    exact (follows_of_perform follows.sound step).kept_of_unwritten (lastWritten_of_other other _)
  · intro page image positive below fits
    exact ⟨_, FileStore.write_eq (ne_reserved_of_pos positive) (decide_eq_true below)
      (fits.trans sized.symm)⟩
  · intro room
    exact ⟨_, _, if_pos room⟩
  · intro page after given
    obtain ⟨room, rfl, _⟩ := allocate_ok given
    have number : (UInt32.ofNat later.pageCount).toNat = later.pageCount := toNat_ofNat_of_room room
    have kept : store.pageCount ≤ later.pageCount := by
      rw [follows.count]
      exact Nat.le_add_right _ _
    refine ⟨ne_reserved_of_pos ?_, Nat.le_of_eq number.symm, ?_, ?_⟩
    · rw [number]
      exact follows.sound.opened
    · rw [number]
      exact Nat.le_trans (Nat.le_trans (Nat.le_max_left _ 1) (Nat.le_of_eq counted.symm)) kept
    · intro again
      have below := follows.below_of_handed again
      rw [number] at below
      exact Nat.lt_irrefl _ below
  · exact ⟨_, (congrArg (ofFile · later.file) sized.symm).trans follows.sound.reopen, rfl⟩

/-- A page is handed out and written, the store is opened again, a write past the last page is
refused. -/
def interrupted : List Step :=
  [.call .allocate, .call (.write ⟨2⟩ (Array.replicate 64 9)), .reopen,
    .call (.write ⟨3⟩ (Array.replicate 64 1)), .call (.read ⟨2⟩)]

/-- Over a file of two pages of bytes, what was written before the store was opened again stays. -/
theorem pages_persist_interrupted :
    checkPageSize 64 = .ok () ∧ (List.replicate 128 7 : Bytes).length % 64 = 0 ∧
      (List.replicate 128 7 : Bytes).length / 64 < pageIdLimit ∧
      ∃ store, ofFile 64 (.ofBytes (List.replicate 128 7)) = .ok store ∧
        Persists (List.replicate 128 7) 64 (store.run interrupted).1 (store.run interrupted).2 ∧
        (store.run interrupted).2.pageCount = 3 ∧
        lastWritten ⟨2⟩ (store.run interrupted).1 = some (Array.replicate 64 9) ∧
        lastWritten ⟨3⟩ (store.run interrupted).1 = none := by
  have valid : checkPageSize 64 = .ok () := by decide
  have whole : (List.replicate 128 7 : Bytes).length % 64 = 0 := by
    rw [List.length_replicate]
  have few : (List.replicate 128 7 : Bytes).length / 64 < pageIdLimit := by
    rw [List.length_replicate]
    decide
  obtain ⟨store, opens, persists⟩ := pages_persist valid whole few
  have sound : Sound ⟨64, .ofBytes (List.replicate 128 7), 2, .empty⟩ :=
    ⟨valid, List.length_replicate, show 1 ≤ 2 by decide, show 2 ≤ pageIdLimit by decide⟩
  have same : store = ⟨64, .ofBytes (List.replicate 128 7), 2, .empty⟩ :=
    Except.ok.inj (opens.symm.trans sound.reopen)
  refine ⟨valid, whole, few, store, opens, persists _, ?_⟩
  rw [same]
  decide +kernel

end FileStore

end SlottedLeaf
