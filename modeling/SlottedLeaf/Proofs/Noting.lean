import SlottedLeaf.Proofs.Shelves

/-!
# What the store is told of changed leaves

The store lists a page when it is told that the page changed, and takes it off when it gets an image
of it. It is told by every insertion and removal, and by a split of the leaf that the split makes.
Of the leaf whose rows a split takes away it is not told: that leaf counts as changed, but its page
is listed only if it was before.
-/

namespace SlottedLeaf

variable {σ α : Type} {index : Index}

/-- A task that was done, and what it gave. -/
abbrev Step := Task × Reply

namespace Step

/-- The store is told that the page has changed: a row came to its leaf or went, or a split made
it. -/
def tells (page : PageId) : Step → Bool
  | (.insert other _, .insertion .inserted) => page = other
  | (.remove other _, .removal .unchanged) => page = other
  | (.remove other _, .removal (.lastChanged _)) => page = other
  | (.split _ _, .opened right) => page = right
  | _ => false

/-- The store gets an image of the page. -/
def settles (page : PageId) : Step → Bool
  | (.write other, .written true) => page = other
  | (.createRoot, .opened root) => page = root
  | _ => false

/-- A leaf of the page is written, passed over as clean, or loaded. -/
def refreshes (page : PageId) (step : Step) : Bool :=
  step.settles page ||
    match step with
    | (.write other, .written false) => page = other
    | (.load _, .opened other) => page = other
    | _ => false

/-- A leaf of the page changes, and the store is not told: rows go to a new leaf, the leaf gets
another parent, or it is new itself. -/
def hides (page : PageId) : Step → Bool
  | (.split other _, .opened _) => page = other
  | (.setParent other _, .done) => page = other
  | (.create _ _ _, .opened other) => page = other
  | _ => false

end Step

open Step

/-- Of all steps that tell of the page or settle it, the latest tells of it; if there is none, the
page was listed to begin with. The latest step comes first. -/
def Listed (start : PageSet) (page : PageId) (history : List Step) : Prop :=
  match history.find? fun step => step.tells page || step.settles page with
  | some step => step.tells page
  | none => page ∈ start

/-- The steps since a leaf of the page was last written or loaded. -/
def sinceRefresh (page : PageId) (history : List Step) : List Step :=
  history.takeWhile fun step => !step.refreshes page

theorem listed_cons {start : PageSet} {page : PageId} {step : Step} {history : List Step} :
    Listed start page (step :: history) ↔
      step.tells page ∨ ¬ step.settles page ∧ Listed start page history := by
  unfold Listed
  rw [List.find?_cons]
  cases tells : step.tells page <;> cases settles : step.settles page <;> simp [tells]

theorem Step.refreshes_eq_false {page : PageId} {step : Step}
    (changes : step.tells page ∨ step.hides page) : step.refreshes page = false := by
  obtain ⟨task, answer⟩ := step
  cases task <;> cases answer <;> simp [tells, hides] at changes <;> simp [refreshes, settles]

theorem latest_mem_sinceRefresh {page : PageId} {step : Step} {history : List Step}
    (changes : step.tells page ∨ step.hides page) :
    step ∈ sinceRefresh page (step :: history) := by
  rw [sinceRefresh, List.takeWhile_cons_of_pos (by simp [Step.refreshes_eq_false changes])]
  exact List.mem_cons_self

/-- A page that the store was told of since its leaf was written or loaded is listed. -/
theorem listed_of_tells {start : PageSet} {page : PageId} {history : List Step} {step : Step}
    (since : step ∈ sinceRefresh page history) (tells : step.tells page) :
    Listed start page history := by
  induction history with
  | nil => cases since
  | cons latest rest ih =>
    rw [listed_cons]
    cases refreshes : latest.refreshes page with
    | true => simp [sinceRefresh, refreshes] at since
    | false =>
      have settles : latest.settles page = false := (Bool.or_eq_false_iff.mp refreshes).1
      rw [sinceRefresh, List.takeWhile_cons_of_pos (by simp [refreshes])] at since
      rcases List.mem_cons.mp since with rfl | earlier
      · exact .inl tells
      · exact .inr ⟨by simp [settles], ih earlier⟩

namespace Shelf

/-- Every leaf lies under its own page. -/
def Filed (shelf : Shelf σ) : Prop := ∀ page leaf, shelf.leaves page = some leaf → leaf.id = page

/-- What a step does to the list of changed pages and to the leaves that count as changed. -/
structure Marks (shelf : Shelf σ) (step : Step) (later : Shelf σ) : Prop where
  filed : later.Filed
  dirty : ∀ page, page ∈ later.engine.store.dirty ↔
    step.tells page ∨ ¬ step.settles page ∧ page ∈ shelf.engine.store.dirty
  leaves : ∀ page leaf, later.leaves page = some leaf → leaf.isDirty →
    step.tells page ∨ step.hides page ∨
      ¬ step.refreshes page ∧ ∃ former, shelf.leaves page = some former ∧ former.isDirty

variable {shelf : Shelf σ} {leaf later right : Leaf} {engine : Engine} {page : PageId} {step : Step}

theorem Filed.put (filed : shelf.Filed) (engine : Engine) (walk : Cursor × σ) (leaf : Leaf) :
    ({ shelf with engine, walk }.put leaf).Filed := by
  intro page other here
  rcases of_leaves_put here with ⟨same, rfl⟩ | ⟨_, before⟩
  · exact same.symm
  · exact filed page other before

/-- A step that puts one leaf on the shelf marks no other. -/
theorem Marks.put (filed : shelf.Filed) (leaf : Leaf) {engine : Engine} {walk : Cursor × σ}
    (dirty : ∀ page, page ∈ engine.store.dirty ↔
      step.tells page ∨ ¬ step.settles page ∧ page ∈ shelf.engine.store.dirty)
    (refreshes : ∀ page, step.refreshes page → page = leaf.id)
    (here : leaf.isDirty → step.tells leaf.id ∨ step.hides leaf.id ∨
      ¬ step.refreshes leaf.id ∧ ∃ former, shelf.leaves leaf.id = some former ∧ former.isDirty) :
    shelf.Marks step ({ shelf with engine, walk }.put leaf) where
  filed := filed.put engine walk leaf
  dirty := dirty
  leaves page other found changed := by
    rcases of_leaves_put found with ⟨same, rfl⟩ | ⟨elsewhere, before⟩
    · rw [same]
      exact here changed
    · exact .inr (.inr ⟨fun fresh => elsewhere (refreshes page fresh), other, before, changed⟩)

/-- A step that is of no concern to the store. -/
structure Silent (step : Step) : Prop where
  tells : ∀ page, step.tells page = false
  refreshes : ∀ page, step.refreshes page = false

theorem Silent.settles (silent : Silent step) (page : PageId) : step.settles page = false :=
  (Bool.or_eq_false_iff.mp (silent.refreshes page)).1

theorem Silent.dirty (silent : Silent step) {former latter : Store} (same : latter = former)
    (page : PageId) : page ∈ latter.dirty ↔
      step.tells page ∨ ¬ step.settles page ∧ page ∈ former.dirty := by
  rw [same, silent.tells, silent.settles]
  simp

theorem Marks.idle (filed : shelf.Filed) (silent : Silent step) : shelf.Marks step shelf where
  filed := filed
  dirty := silent.dirty rfl
  leaves page leaf here dirty :=
    .inr (.inr ⟨by simp [silent.refreshes], leaf, here, dirty⟩)

/-- A call that only looked marks no leaf. -/
theorem Marks.peek (filed : shelf.Filed) (silent : Silent step)
    (here : shelf.leaves page = some leaf) {n : Nat} (decodes : leaf.Decodes index n later)
    (engine : Engine) (same : engine.store = shelf.engine.store) (walk : Cursor × σ) :
    shelf.Marks step ({ shelf with engine, walk }.put later) := by
  refine .put filed later (silent.dirty same) (fun other fresh => ?_) (fun dirty => ?_)
  · rw [silent.refreshes] at fresh
    cases fresh
  · rw [decodes.isDirty] at dirty
    refine .inr (.inr ⟨by simp [silent.refreshes], leaf, ?_, dirty⟩)
    rw [decodes.id, filed page leaf here]
    exact here

/-- A call that changed a leaf and told the store of it. -/
theorem Marks.change (filed : shelf.Filed) (here : shelf.leaves page = some leaf)
    (changes : leaf.Changes index later)
    (noted : shelf.engine.store.note leaf.id = .ok engine.store)
    (tells : ∀ other, step.tells other = decide (other = page))
    (refreshes : ∀ other, step.refreshes other = false) :
    shelf.Marks step ({ shelf with engine }.put later) := by
  have id : later.id = page := changes.id.trans (filed page leaf here)
  have settles (other : PageId) : step.settles other = false :=
    (Bool.or_eq_false_iff.mp (refreshes other)).1
  refine .put filed later (fun other => ?_) (fun other fresh => ?_) fun _ => .inl ?_
  · rw [(Store.keeps_of_note noted).dirty, tells, settles, filed page leaf here]
    simp
  · rw [refreshes] at fresh
    cases fresh
  · rw [tells, id]
    exact decide_eq_true rfl

/-! ## Steps -/

variable {nodes : NodeLayer σ} {task : Task} {answer : Reply} {after : Shelf σ}

theorem withLeaf_ok {act : Leaf → Except Fault Reply × Shelf σ}
    (run : shelf.withLeaf page act = (.ok answer, after)) :
    answer = .closed ∧ after = shelf ∨
      ∃ leaf, shelf.leaves page = some leaf ∧ act leaf = (.ok answer, after) := by
  unfold withLeaf at run
  cases here : shelf.leaves page with
  | none =>
    rw [here] at run
    cases run
    exact .inl ⟨rfl, rfl⟩
  | some leaf =>
    rw [here] at run
    exact .inr ⟨leaf, rfl, run⟩

theorem run_ok {call : LeafCall α} {name : α → Reply}
    (run : shelf.run leaf call name = (.ok answer, after)) :
    ∃ value later engine, call.on leaf shelf.engine = ((.ok value, later), engine) ∧
      answer = name value ∧ after = { shelf with engine }.put later := by
  unfold Shelf.run at run
  rcases called : call.on leaf shelf.engine with ⟨⟨fault | value, later⟩, engine⟩
  · rw [called] at run
    cases run
  · rw [called] at run
    cases run
    exact ⟨value, later, engine, rfl, rfl, rfl⟩

theorem take_ok {call : EngineCall Leaf} (run : shelf.take call = (.ok answer, after)) :
    ∃ leaf engine, call.on shelf.engine = (.ok leaf, engine) ∧ answer = .opened leaf.id ∧
      after = { shelf with engine }.put leaf := by
  unfold take at run
  rcases called : call.on shelf.engine with ⟨fault | leaf, engine⟩
  · rw [called] at run
    cases run
  · rw [called] at run
    cases run
    exact ⟨leaf, engine, rfl, rfl, rfl⟩

theorem marks_insert (filed : shelf.Filed) {row : Row}
    (run : shelf.perform index nodes (.insert page row) = (.ok answer, after)) :
    shelf.Marks (.insert page row, answer) after := by
  rcases withLeaf_ok run with ⟨rfl, rfl⟩ | ⟨leaf, here, run⟩
  · exact .idle filed ⟨fun _ => rfl, fun _ => rfl⟩
  obtain ⟨answer, later, engine, called, rfl, rfl⟩ := run_ok run
  rcases Leaf.insert_ok called with ⟨rfl, changes, noted⟩ | ⟨⟨point, rfl⟩, ⟨n, decodes⟩, same⟩
  · exact .change filed here changes noted (fun _ => rfl) fun _ => rfl
  · exact .peek filed ⟨fun _ => rfl, fun _ => rfl⟩ here decodes engine same shelf.walk

theorem marks_remove (filed : shelf.Filed) {row : Row}
    (run : shelf.perform index nodes (.remove page row) = (.ok answer, after)) :
    shelf.Marks (.remove page row, answer) after := by
  rcases withLeaf_ok run with ⟨rfl, rfl⟩ | ⟨leaf, here, run⟩
  · exact .idle filed ⟨fun _ => rfl, fun _ => rfl⟩
  obtain ⟨answer, later, engine, called, rfl, rfl⟩ := run_ok run
  rcases Leaf.remove_ok called with ⟨only, rfl, ⟨n, decodes⟩, same⟩ |
    ⟨rfl | ⟨last, rfl⟩, changes, noted⟩
  · exact .peek filed ⟨fun _ => rfl, fun _ => rfl⟩ here decodes engine same shelf.walk
  · exact .change filed here changes noted (fun _ => rfl) fun _ => rfl
  · exact .change filed here changes noted (fun _ => rfl) fun _ => rfl

theorem marks_peek (filed : shelf.Filed) {call : LeafCall α} {name : α → Reply}
    (peeks : call.Peeks index) (here : shelf.leaves page = some leaf)
    (run : shelf.run leaf call name = (.ok answer, after)) (silent : Silent (task, answer)) :
    shelf.Marks (task, answer) after := by
  obtain ⟨value, later, engine, called, rfl, rfl⟩ := run_ok run
  obtain ⟨n, decodes, rfl⟩ := peeks.ended called
  exact .peek filed silent here decodes (shelf.engine.counted .rowsDecoded n) rfl shelf.walk

theorem marks_find (filed : shelf.Filed) {target : Row} {past : Bool}
    (run : shelf.perform index nodes (.find page target past) = (.ok answer, after)) :
    shelf.Marks (.find page target past, answer) after := by
  rcases withLeaf_ok run with ⟨rfl, rfl⟩ | ⟨leaf, here, run⟩
  · exact .idle filed ⟨fun _ => rfl, fun _ => rfl⟩
  obtain ⟨outcome, walk, found⟩ := runFind_eq index nodes shelf leaf target past
  obtain ⟨_, n, later, decodes, sought⟩ := (Leaf.seek_peeks index target past).on leaf shelf.engine
  rw [found, sought] at run
  cases run
  have silent : Silent (.find page target past, answer) := ⟨fun _ => rfl, fun _ => rfl⟩
  exact .peek filed silent here decodes (shelf.engine.counted .rowsDecoded n) rfl walk

/-- A split lists the page of the new leaf, and hides that the other has changed. -/
theorem marks_split (filed : shelf.Filed) {point : Nat}
    (run : shelf.perform index nodes (.split page point) = (.ok answer, after)) :
    shelf.Marks (.split page point, answer) after := by
  rcases withLeaf_ok run with ⟨rfl, rfl⟩ | ⟨leaf, here, run⟩
  · exact .idle filed ⟨fun _ => rfl, fun _ => rfl⟩
  unfold runSplit at run
  rcases split : (Leaf.split index point).on leaf shelf.engine with ⟨⟨fault | right, left⟩, engine⟩
  · rw [split] at run
    cases run
  rw [split] at run
  cases run
  obtain ⟨changes, _, middle, moved, some, handed, works⟩ := Leaf.split_ok split
  have id : left.id = page := changes.id.trans (filed page leaf here)
  have dirty (other : PageId) : other ∈ engine.store.dirty ↔
      other = right.id ∨ other ∈ shelf.engine.store.dirty := by
    rw [works.keeps.dirty, (Store.keeps_of_allocate handed).dirty, List.mem_replicate]
    simp [Nat.ne_of_gt some]
  constructor
  · exact (filed.put engine shelf.walk left).put engine shelf.walk right
  · intro other
    simpa [Step.tells, Step.settles] using dirty other
  · intro other leaf found changed
    rcases of_leaves_put found with ⟨new, _⟩ | ⟨_, found⟩
    · exact .inl (decide_eq_true new)
    rcases of_leaves_put found with ⟨old, _⟩ | ⟨_, before⟩
    · exact .inr (.inl (decide_eq_true (old.trans id)))
    · exact .inr (.inr ⟨by simp [Step.refreshes, Step.settles], leaf, before, changed⟩)

theorem marks_setParent (filed : shelf.Filed) {parent : Option PageId}
    (run : shelf.perform index nodes (.setParent page parent) = (.ok answer, after)) :
    shelf.Marks (.setParent page parent, answer) after := by
  rcases withLeaf_ok run with ⟨rfl, rfl⟩ | ⟨leaf, here, run⟩
  · exact .idle filed ⟨fun _ => rfl, fun _ => rfl⟩
  obtain ⟨_, later, engine, called, rfl, rfl⟩ := run_ok run
  obtain ⟨id, rfl⟩ := Leaf.setParent_ok called
  have silent : Silent (.setParent page parent, .done) := ⟨fun _ => rfl, fun _ => rfl⟩
  refine .put filed later (silent.dirty rfl) (fun other fresh => ?_) fun _ => .inr (.inl ?_)
  · rw [silent.refreshes] at fresh
    cases fresh
  · exact decide_eq_true (id.trans (filed page leaf here))

theorem marks_write (filed : shelf.Filed)
    (run : shelf.perform index nodes (.write page) = (.ok answer, after)) :
    shelf.Marks (.write page, answer) after := by
  rcases withLeaf_ok run with ⟨rfl, rfl⟩ | ⟨leaf, here, run⟩
  · exact .idle filed ⟨fun _ => rfl, fun _ => rfl⟩
  obtain ⟨_, later, engine, called, rfl, rfl⟩ := run_ok run
  have id := filed page leaf here
  rcases Leaf.write_ok called with ⟨clean, rfl, rfl⟩ | ⟨dirty, same, clean, stored⟩
  · rw [clean]
    refine .put filed later (fun other => by simp [Step.tells, Step.settles]) ?_ ?_
    · intro other fresh
      rw [id]
      simpa [Step.refreshes, Step.settles] using fresh
    · intro dirty
      rw [clean] at dirty
      cases dirty
  · rw [dirty]
    refine .put filed later (fun other => ?_) ?_ ?_
    · rw [(Store.stores_of_write stored).dirty, id]
      simp [Step.tells, Step.settles]
    · intro other fresh
      rw [same, id]
      simpa [Step.refreshes, Step.settles] using fresh
    · intro dirty
      rw [clean] at dirty
      cases dirty

theorem marks_load (filed : shelf.Filed)
    (run : shelf.perform index nodes (.load page) = (.ok answer, after)) :
    shelf.Marks (.load page, answer) after := by
  obtain ⟨leaf, engine, called, rfl, rfl⟩ := take_ok run
  obtain ⟨same, image, _, shown⟩ := Leaf.load_ok called
  obtain ⟨_, _, _, _, _, _, _, rfl⟩ := Leaf.ofImage_ok shown
  refine .put filed _ (fun other => ?_) (fun other fresh => ?_) fun dirty => by cases dirty
  · rw [same]
    simp [Step.tells, Step.settles]
  · simpa [Step.refreshes, Step.settles] using fresh

theorem marks_createRoot (filed : shelf.Filed)
    (run : shelf.perform index nodes .createRoot = (.ok answer, after)) :
    shelf.Marks (.createRoot, answer) after := by
  obtain ⟨leaf, engine, called, rfl, rfl⟩ := take_ok run
  obtain ⟨clean, middle, handed, stored⟩ := Leaf.createRoot_ok called
  refine .put filed _ (fun other => ?_) (fun other fresh => ?_) fun dirty => ?_
  · rw [(Store.stores_of_write stored).dirty, (Store.keeps_of_allocate handed).dirty]
    simp [Step.tells, Step.settles]
  · simpa [Step.refreshes, Step.settles] using fresh
  · rw [clean] at dirty
    cases dirty

/-- What every step does to the list of changed pages and to the leaves that count as changed. -/
theorem marks (filed : shelf.Filed)
    (run : shelf.perform index nodes task = (.ok answer, after)) :
    shelf.Marks (task, answer) after := by
  cases task with
  | create page parent form =>
    cases run
    refine .put filed _ (fun other => ?_) (fun other fresh => ?_) fun _ => .inr (.inl ?_)
    · simp [Step.tells, Step.settles]
    · simp [Step.refreshes, Step.settles] at fresh
    · exact decide_eq_true rfl
  | createRoot => exact marks_createRoot filed run
  | load page => exact marks_load filed run
  | close page =>
    cases run
    have dropped (other : PageId) (leaf : Leaf)
        (here : (shelf.drop page).leaves other = some leaf) :
        shelf.leaves other = some leaf := by
      by_cases same : other = page
      · simp [drop, same] at here
      · simpa only [drop, if_neg same] using here
    refine ⟨fun other leaf here => filed other leaf (dropped other leaf here), fun other => ?_, ?_⟩
    · simp [Step.tells, Step.settles, drop]
    · intro other leaf here dirty
      exact .inr (.inr
        ⟨by simp [Step.refreshes, Step.settles], leaf, dropped other leaf here, dirty⟩)
  | insert page row => exact marks_insert filed run
  | remove page row => exact marks_remove filed run
  | split page point => exact marks_split filed run
  | setParent page parent => exact marks_setParent filed run
  | row page slot =>
    rcases withLeaf_ok run with ⟨rfl, rfl⟩ | ⟨leaf, here, run⟩
    · exact .idle filed ⟨fun _ => rfl, fun _ => rfl⟩
    · exact marks_peek filed (Leaf.row_peeks index slot) here run ⟨fun _ => rfl, fun _ => rfl⟩
  | rows page =>
    rcases withLeaf_ok run with ⟨rfl, rfl⟩ | ⟨leaf, here, run⟩
    · exact .idle filed ⟨fun _ => rfl, fun _ => rfl⟩
    · exact marks_peek filed (Leaf.rows_peeks index) here run ⟨fun _ => rfl, fun _ => rfl⟩
  | find page target past => exact marks_find filed run
  | write page => exact marks_write filed run

/-! ## Runs -/

/-- The tasks of the history were done one after the other, and none failed. The latest comes
first. -/
inductive Succeeds (index : Index) (nodes : NodeLayer σ) (start : Shelf σ) :
    List Step → Shelf σ → Prop where
  | start : Succeeds index nodes start [] start
  | step {history : List Step} {shelf : Shelf σ} {task : Task} {answer : Reply}
      (run : Succeeds index nodes start history shelf)
      (gives : (shelf.perform index nodes task).1 = .ok answer) :
      Succeeds index nodes start ((task, answer) :: history) (shelf.perform index nodes task).2

/-- What is known of the list of changed pages after a run. -/
structure Tracked (start : Shelf σ) (history : List Step) (shelf : Shelf σ) : Prop where
  filed : shelf.Filed
  dirty : ∀ page, page ∈ shelf.engine.store.dirty ↔
    Listed start.engine.store.dirty page history
  leaves : ∀ page leaf, shelf.leaves page = some leaf → leaf.isDirty →
    ∃ step ∈ sinceRefresh page history, step.tells page ∨ step.hides page

theorem Tracked.next {start later : Shelf σ} {history : List Step}
    (tracked : start.Tracked history shelf) (marks : shelf.Marks step later) :
    start.Tracked (step :: history) later where
  filed := marks.filed
  dirty page := by
    rw [marks.dirty, listed_cons, tracked.dirty]
  leaves page leaf here dirty := by
    rcases marks.leaves page leaf here dirty with tells | hides | ⟨stale, former, found, changed⟩
    · exact ⟨step, latest_mem_sinceRefresh (.inl tells), .inl tells⟩
    · exact ⟨step, latest_mem_sinceRefresh (.inr hides), .inr hides⟩
    · obtain ⟨earlier, since, concerns⟩ := tracked.leaves page former found changed
      refine ⟨earlier, ?_, concerns⟩
      rw [sinceRefresh, List.takeWhile_cons_of_pos (by simpa using stale)]
      exact List.mem_cons_of_mem step since

theorem Succeeds.tracked {start : Shelf σ} {history : List Step} (filed : start.Filed)
    (clean : ∀ page leaf, start.leaves page = some leaf → leaf.isDirty = false)
    (run : start.Succeeds index nodes history shelf) : start.Tracked history shelf := by
  induction run with
  | start =>
    refine ⟨filed, fun page => Iff.rfl, ?_⟩
    intro page leaf here dirty
    rw [clean page leaf here] at dirty
    cases dirty
  | step run gives ih => exact ih.next (marks ih.filed (Prod.ext gives rfl))

/-- After a run of calls that succeed, the store lists a page just when the latest call that told of
the page or stored it told of it. A leaf that changed since it was last written or loaded has its
page listed, unless what changed it was that rows of it were split off, that it got another parent,
or that it was new. -/
theorem changes_listed {start : Shelf σ} {history : List Step} (filed : start.Filed)
    (clean : ∀ page leaf, start.leaves page = some leaf → leaf.isDirty = false)
    (run : start.Succeeds index nodes history shelf) :
    (∀ page, page ∈ shelf.engine.store.dirty ↔ Listed start.engine.store.dirty page history) ∧
    ∀ page leaf, shelf.leaves page = some leaf → leaf.isDirty →
      page ∈ shelf.engine.store.dirty ∨ ∃ step ∈ sinceRefresh page history, step.hides page := by
  have tracked := run.tracked filed clean
  refine ⟨tracked.dirty, ?_⟩
  intro page leaf here dirty
  obtain ⟨step, since, tells | hides⟩ := tracked.leaves page leaf here dirty
  · exact .inl ((tracked.dirty page).mpr (listed_of_tells since tells))
  · exact .inr ⟨step, since, hides⟩

/-- A root with the keys `a` and `b` that is written and then split between them. -/
def splitRun : List Task :=
  [.createRoot, .insert ⟨1⟩ ⟨some [97], ⟨1⟩⟩, .insert ⟨1⟩ ⟨some [98], ⟨2⟩⟩, .write ⟨1⟩,
    .split ⟨1⟩ 1]

/-- The same run with its answers, the latest first. -/
def splitHistory : List Step :=
  [(.split ⟨1⟩ 1, .opened ⟨2⟩), (.write ⟨1⟩, .written true),
    (.insert ⟨1⟩ ⟨some [98], ⟨2⟩⟩, .insertion .inserted),
    (.insert ⟨1⟩ ⟨some [97], ⟨1⟩⟩, .insertion .inserted), (.createRoot, .opened ⟨1⟩)]

theorem splitRun_succeeds :
    (blank 0).Succeeds .plain .idle splitHistory ((blank 0).after .plain .idle splitRun) := by
  have first : ((blank 0).perform .plain .idle .createRoot).1 = .ok (.opened ⟨1⟩) := by
    decide +kernel
  have second : (((blank 0).after .plain .idle [.createRoot]).perform .plain .idle
      (.insert ⟨1⟩ ⟨some [97], ⟨1⟩⟩)).1 = .ok (.insertion .inserted) := by decide +kernel
  have third : (((blank 0).after .plain .idle (splitRun.take 2)).perform .plain .idle
      (.insert ⟨1⟩ ⟨some [98], ⟨2⟩⟩)).1 = .ok (.insertion .inserted) := by decide +kernel
  have fourth : (((blank 0).after .plain .idle (splitRun.take 3)).perform .plain .idle
      (.write ⟨1⟩)).1 = .ok (.written true) := by decide +kernel
  have fifth : (((blank 0).after .plain .idle (splitRun.take 4)).perform .plain .idle
      (.split ⟨1⟩ 1)).1 = .ok (.opened ⟨2⟩) := by decide +kernel
  exact ((((Succeeds.start.step first).step second).step third).step fourth).step fifth

/-- So it is on a run that ends with a split: the page of the new leaf is listed, and for the other
leaf, which counts as changed, nothing is said but that its rows were split off. -/
theorem changes_listed_split :
    let shelf := (blank 0).after .plain .idle splitRun
    (⟨2⟩ ∈ shelf.engine.store.dirty ↔ Listed .empty ⟨2⟩ splitHistory) ∧
      ((shelf.leaves ⟨1⟩).map Leaf.isDirty = some true →
        ⟨1⟩ ∈ shelf.engine.store.dirty ∨
          ∃ step ∈ sinceRefresh ⟨1⟩ splitHistory, step.hides ⟨1⟩) := by
  have listed := changes_listed (by simp [Filed, blank, empty]) (by simp [blank, empty])
    splitRun_succeeds
  refine ⟨listed.1 ⟨2⟩, ?_⟩
  intro changed
  obtain ⟨leaf, here, dirty⟩ := Option.map_eq_some_iff.mp changed
  exact listed.2 ⟨1⟩ leaf here dirty

/-- The leaf whose rows are split off has changed since it was written, and its page is not
listed. -/
theorem split_unlisted :
    let former := (blank 0).after .plain .idle (splitRun.take 4)
    let later := (blank 0).after .plain .idle splitRun
    (former.perform .plain .idle (.split ⟨1⟩ 1)).1 = .ok (.opened ⟨2⟩) ∧
      (former.leaves ⟨1⟩).map (fun leaf => (leaf.isDirty, leaf.count)) = some (false, 2) ∧
      (later.leaves ⟨1⟩).map (fun leaf => (leaf.isDirty, leaf.count)) = some (true, 1) ∧
      later.engine.store.dirty = ⟨[⟨2⟩]⟩ := by
  refine ⟨?_, ?_, ?_, ?_⟩ <;> decide +kernel

end Shelf

end SlottedLeaf
