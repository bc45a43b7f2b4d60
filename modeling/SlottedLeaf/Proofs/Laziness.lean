import SlottedLeaf.Proofs.Pacing
import SlottedLeaf.Proofs.Shelves

/-!
# Decoding early is not noticed

Two shelves are run side by side, one with a leaf as it was read, one with the same leaf with every
row decoded. Until a call has decoded every row there is that one leaf only, and the relation of
`Leaf.Ahead` is kept. A split is such a call, so by the time there is another leaf the two shelves
are the same.
-/

namespace SlottedLeaf

variable {σ α : Type} {index : Index}

/-- The task is a call on a leaf that is open. -/
def Task.isCall : Task → Bool
  | .create .. | .createRoot | .load _ | .close _ => false
  | _ => true

namespace Shelf

variable {original leaf ahead : Leaf} {n total : Nat} {engine : Engine} {walk : Cursor × σ}
  {lazy early shelf : Shelf σ} {page : PageId}

/-- A shelf with one leaf. -/
def single (leaf : Leaf) (engine : Engine) (walk : Cursor × σ) : Shelf σ :=
  (empty engine walk).put leaf

theorem leaves_single : (single leaf engine walk).leaves page =
    if page = leaf.id then some leaf else none := rfl

/-- A call on the only leaf leaves the only leaf. -/
theorem put_single {later : Leaf} (same : later.id = leaf.id) (after : Engine)
    (onward : Cursor × σ) :
    ({ single leaf engine walk with engine := after, walk := onward }).put later =
      single later after onward := by
  have leaves :
      (({ single leaf engine walk with engine := after, walk := onward }).put later).leaves =
        (single later after onward).leaves := by
    funext page
    rw [leaves_put, leaves_single]
    by_cases here : page = later.id
    · rw [if_pos here]
      exact (if_pos here).symm
    · rw [if_neg here]
      exact (if_neg (same ▸ here)).trans (if_neg here).symm
  exact congrArg (Shelf.mk · after onward) leaves

/-- Every row of every open leaf is decoded, and so many were counted. -/
structure Level (total : Nat) (shelf : Shelf σ) : Prop where
  loaded : ∀ page leaf, shelf.leaves page = some leaf → leaf.Loaded page
  count : shelf.engine.stats.rowsDecoded = total

/-- The one shelf is the other with every row decoded. Either there is only the original leaf yet,
or nothing is left to decode and the shelves are the same. -/
inductive Trails (index : Index) (original : Leaf) (total : Nat) : Shelf σ → Shelf σ → Prop where
  | behind {leaf ahead : Leaf} {n : Nat} {engine : Engine} {walk : Cursor × σ} :
      Leaf.Ahead index original leaf n ahead → engine.stats.rowsDecoded + n = total →
        Trails index original total (single leaf engine walk)
          (single ahead (engine.counted .rowsDecoded n) walk)
  | level {shelf : Shelf σ} : shelf.Level total → Trails index original total shelf shelf

theorem Level.put {after : Engine} {onward : Cursor × σ} (level : shelf.Level total)
    (loaded : leaf.Loaded leaf.id) (count : after.stats.rowsDecoded = total) :
    (({ shelf with engine := after, walk := onward }).put leaf).Level total := by
  refine ⟨?_, count⟩
  intro page other here
  rcases of_leaves_put here with ⟨rfl, rfl⟩ | ⟨_, there⟩
  · exact loaded
  · exact level.loaded page other there

/-- Something done with a leaf of a shelf keeps the relation, from the one leaf and from the same
leaf with every row decoded. -/
structure Keeps (index : Index) (original : Leaf) (total : Nat)
    (act : Shelf σ → Leaf → Except Fault Reply × Shelf σ) : Prop where
  behind : ∀ (leaf ahead : Leaf) (n : Nat) (engine : Engine) (walk : Cursor × σ),
    Leaf.Ahead index original leaf n ahead → engine.stats.rowsDecoded + n = total →
      (act (single leaf engine walk) leaf).1 =
          (act (single ahead (engine.counted .rowsDecoded n) walk) ahead).1 ∧
        Trails index original total (act (single leaf engine walk) leaf).2
          (act (single ahead (engine.counted .rowsDecoded n) walk) ahead).2
  level : ∀ (shelf : Shelf σ) (page : PageId) (leaf : Leaf), shelf.Level total →
    shelf.leaves page = some leaf → (act shelf leaf).2.Level total

theorem Keeps.withLeaf {act : Shelf σ → Leaf → Except Fault Reply × Shelf σ}
    (keeps : Keeps index original total act) (trails : Trails index original total lazy early)
    (page : PageId) :
    (lazy.withLeaf page (act lazy)).1 = (early.withLeaf page (act early)).1 ∧
      Trails index original total (lazy.withLeaf page (act lazy)).2
        (early.withLeaf page (act early)).2 := by
  cases trails with
  | @behind leaf ahead n engine walk between count =>
    unfold Shelf.withLeaf
    by_cases here : page = original.id
    · rw [leaves_single, leaves_single, between.id, between.loaded.id, if_pos here, if_pos here]
      exact keeps.behind leaf ahead n engine walk between count
    · rw [leaves_single, leaves_single, between.id, between.loaded.id, if_neg here, if_neg here]
      exact ⟨rfl, .behind between count⟩
  | level level =>
    refine ⟨rfl, .level ?_⟩
    exact withLeaf_of level fun leaf here => keeps.level lazy page leaf level here

/-- On a leaf with every row decoded a call decodes none. -/
theorem paces_loaded {call : LeafCall α} {good : α → Leaf → Prop} (paces : call.Paces index good)
    (loaded : leaf.Loaded page) (engine : Engine) :
    ∃ outcome later after, call.on leaf engine = ((outcome, later), after) ∧
      later.Loaded page ∧ after.stats.rowsDecoded = engine.stats.rowsDecoded ∧
      ∀ value, outcome = .ok value → good value later := by
  obtain rfl := loaded.id
  obtain ⟨outcome, later, m, earlier, after, run, rerun, stays, count, given⟩ :=
    paces leaf leaf leaf 0 loaded.ahead engine
  rw [Engine.counted_zero, run] at rerun
  have same : later = earlier := congrArg (·.1.2) rerun
  subst same
  obtain ⟨rfl, _⟩ := stays.loaded.of_decodes stays.decodes
  exact ⟨outcome, later, after, run, stays.loaded, count, given⟩

theorem keeps_run {call : LeafCall α} {good : α → Leaf → Prop} (paces : call.Paces index good)
    {answer : Leaf → α → Reply}
    (same : ∀ {leaf later : Leaf} {n : Nat}, leaf.Decodes index n later →
      answer later = answer leaf) :
    Keeps index original total fun (shelf : Shelf σ) leaf => shelf.run leaf call (answer leaf) where
  behind leaf ahead n engine walk between count := by
    obtain ⟨outcome, later, m, earlier, after, run, rerun, stays, sum, _⟩ :=
      paces original leaf ahead n between engine
    have lazily : (single leaf engine walk).run leaf call (answer leaf) =
        (outcome.map (answer leaf), single later after walk) := by
      rw [Shelf.run, show (single leaf engine walk).engine = engine from rfl, run]
      exact congrArg (Prod.mk _) (put_single (stays.id.trans between.id.symm) after walk)
    have early : (single ahead (engine.counted .rowsDecoded n) walk).run ahead call (answer ahead) =
        (outcome.map (answer leaf), single earlier (after.counted .rowsDecoded m) walk) := by
      rw [Shelf.run, show (single ahead (engine.counted .rowsDecoded n) walk).engine =
        engine.counted .rowsDecoded n from rfl, rerun, same between.decodes]
      exact congrArg (Prod.mk _)
        (put_single (stays.loaded.id.trans between.loaded.id.symm) _ walk)
    rw [lazily, early]
    exact ⟨rfl, .behind stays (sum.trans count)⟩
  level shelf page leaf level here := by
    obtain ⟨outcome, later, after, run, loaded, count, _⟩ :=
      paces_loaded paces (level.loaded page leaf here) shelf.engine
    rw [Shelf.run, run]
    exact level.put (loaded.id.symm ▸ loaded) (count.trans level.count)

theorem runSplit_of_ok {point : Nat} {left right : Leaf} {after : Engine}
    (run : (Leaf.split index point).on leaf shelf.engine = ((.ok right, left), after)) :
    shelf.runSplit index leaf point =
      (.ok (.opened right.id), ({ shelf with engine := after }.put left).put right) := by
  rw [runSplit, run]

theorem runSplit_of_error {point : Nat} {left : Leaf} {fault : Fault} {after : Engine}
    (run : (Leaf.split index point).on leaf shelf.engine = ((.error fault, left), after)) :
    shelf.runSplit index leaf point = (.error fault, { shelf with engine := after }.put left) := by
  rw [runSplit, run]

theorem keeps_runSplit (index : Index) (point : Nat) :
    Keeps index original total fun (shelf : Shelf σ) leaf => shelf.runSplit index leaf point where
  behind leaf ahead n engine walk between count := by
    obtain ⟨outcome, later, m, earlier, after, run, rerun, stays, sum, given⟩ :=
      Leaf.split_paces index point original leaf ahead n between engine
    have lazily : ({ single leaf engine walk with engine := after }).put later =
        single later after walk := put_single (stays.id.trans between.id.symm) after walk
    have early : ({ single ahead (engine.counted .rowsDecoded n) walk with
        engine := after.counted .rowsDecoded m }).put earlier =
          single earlier (after.counted .rowsDecoded m) walk :=
      put_single (stays.loaded.id.trans between.loaded.id.symm) _ walk
    cases outcome with
    | error fault =>
      have first : (single leaf engine walk).runSplit index leaf point =
        (.error fault, single later after walk) := lazily ▸ runSplit_of_error run
      have second : (single ahead (engine.counted .rowsDecoded n) walk).runSplit index ahead point =
        (.error fault, single earlier (after.counted .rowsDecoded m) walk) :=
          early ▸ runSplit_of_error rerun
      rw [first, second]
      exact ⟨rfl, .behind stays (sum.trans count)⟩
    | ok right =>
      have first : (single leaf engine walk).runSplit index leaf point =
        (.ok (.opened right.id), (single later after walk).put right) := lazily ▸ runSplit_of_ok run
      have second : (single ahead (engine.counted .rowsDecoded n) walk).runSplit index ahead point =
        (.ok (.opened right.id), (single earlier (after.counted .rowsDecoded m) walk).put right) :=
          early ▸ runSplit_of_ok rerun
      -- A split that succeeds has decoded every row, so the leaves are the same by now.
      obtain ⟨loaded, finished⟩ := given right rfl
      obtain ⟨rfl, rfl⟩ := finished.of_decodes stays.decodes
      rw [first, second, Engine.counted_zero]
      have alone : (single earlier after walk).Level total := by
        refine ⟨?_, sum.trans count⟩
        intro page other here
        rcases of_leaves_put here with ⟨rfl, rfl⟩ | ⟨_, none⟩
        · exact finished
        · cases none
      exact ⟨rfl, .level (alone.put loaded alone.count)⟩
  level shelf page leaf level here := by
    obtain ⟨outcome, later, after, run, loaded, count, given⟩ :=
      paces_loaded (Leaf.split_paces index point) (level.loaded page leaf here) shelf.engine
    have left : ({ shelf with engine := after }.put later).Level total :=
      level.put (loaded.id.symm ▸ loaded) (count.trans level.count)
    cases outcome with
    | error fault =>
      rw [runSplit_of_error run]
      exact left
    | ok right =>
      rw [runSplit_of_ok run]
      exact left.put (given right rfl).1 left.count

section

variable {nodes : NodeLayer σ} {target : Row} {past : Bool} {later : Leaf} {after : Engine}

/-- A find moves the cursor by where the search for the row ended. -/
theorem runFind_of_ok {landing : Leaf.Landing} {outcome : Except Fault Unit} {onward : Cursor × σ}
    (run : (Leaf.seek index target past).on leaf shelf.engine = ((.ok landing, later), after))
    (moves : (landing.follow nodes later.id target past).run.run shelf.walk = (outcome, onward)) :
    shelf.runFind index nodes leaf target past =
      (outcome.map fun _ => .done, { shelf with engine := after, walk := onward }.put later) := by
  rw [runFind, Leaf.find_run, run]
  simp only [moves]

theorem runFind_of_error {fault : Fault}
    (run : (Leaf.seek index target past).on leaf shelf.engine = ((.error fault, later), after)) :
    shelf.runFind index nodes leaf target past =
      (.error fault, { shelf with engine := after }.put later) := by
  rw [runFind, Leaf.find_run, run]
  rfl

end

theorem keeps_runFind (index : Index) (nodes : NodeLayer σ) (target : Row) (past : Bool) :
    Keeps index original total fun (shelf : Shelf σ) leaf =>
      shelf.runFind index nodes leaf target past where
  behind leaf ahead n engine walk between count := by
    obtain ⟨outcome, later, m, earlier, after, run, rerun, stays, sum, given⟩ :=
      Leaf.seek_paces index target past original leaf ahead n between engine
    have lazily (onward : Cursor × σ) :
        ({ single leaf engine walk with engine := after, walk := onward }).put later =
          single later after onward := put_single (stays.id.trans between.id.symm) after onward
    have early (onward : Cursor × σ) :
        ({ single ahead (engine.counted .rowsDecoded n) walk with
            engine := after.counted .rowsDecoded m, walk := onward }).put earlier =
          single earlier (after.counted .rowsDecoded m) onward :=
      put_single (stays.loaded.id.trans between.loaded.id.symm) _ onward
    cases outcome with
    | error fault =>
      have first : (single leaf engine walk).runFind index nodes leaf target past =
        (.error fault, single later after walk) := lazily walk ▸ runFind_of_error run
      have second : (single ahead (engine.counted .rowsDecoded n) walk).runFind index nodes ahead
          target past = (.error fault, single earlier (after.counted .rowsDecoded m) walk) :=
        early walk ▸ runFind_of_error rerun
      rw [first, second]
      exact ⟨rfl, .behind stays (sum.trans count)⟩
    | ok landing =>
      rcases moves : (landing.follow nodes later.id target past).run.run walk with ⟨moved, onward⟩
      have again :
          (landing.follow nodes earlier.id target past).run.run walk = (moved, onward) := by
        rw [stays.loaded.id, ← stays.id]
        exact moves
      have first : (single leaf engine walk).runFind index nodes leaf target past =
          (moved.map fun _ => .done, single later after onward) :=
        lazily onward ▸ runFind_of_ok run moves
      have second : (single ahead (engine.counted .rowsDecoded n) walk).runFind index nodes ahead
          target past = (moved.map fun _ => .done,
            single earlier (after.counted .rowsDecoded m) onward) :=
        early onward ▸ runFind_of_ok rerun again
      rw [first, second]
      exact ⟨rfl, .behind stays (sum.trans count)⟩
  level shelf page leaf level here := by
    obtain ⟨outcome, later, after, run, loaded, count, _⟩ :=
      paces_loaded (Leaf.seek_paces index target past) (level.loaded page leaf here) shelf.engine
    have there : later.Loaded later.id := loaded.id.symm ▸ loaded
    cases outcome with
    | error fault =>
      rw [runFind_of_error run]
      exact level.put there (count.trans level.count)
    | ok landing =>
      rw [runFind_of_ok run rfl]
      exact level.put there (count.trans level.count)

/-- One task on both shelves. -/
theorem Trails.perform (trails : Trails index original total lazy early) (nodes : NodeLayer σ)
    {task : Task} (call : task.isCall) :
    (lazy.perform index nodes task).1 = (early.perform index nodes task).1 ∧
      Trails index original total (lazy.perform index nodes task).2
        (early.perform index nodes task).2 := by
  cases task with
  | create page parent form => cases call
  | createRoot => cases call
  | load page => cases call
  | close page => cases call
  | insert page row =>
    exact (keeps_run (Leaf.insert_loads index row).paces fun _ => rfl).withLeaf trails page
  | remove page row =>
    exact (keeps_run (Leaf.remove_paces index row) fun _ => rfl).withLeaf trails page
  | split page point => exact (keeps_runSplit index point).withLeaf trails page
  | setParent page parent =>
    exact (keeps_run (Leaf.setParent_paces index parent) fun _ => rfl).withLeaf trails page
  | row page slot =>
    exact (keeps_run (Leaf.row_paces index slot) fun _ => rfl).withLeaf trails page
  | rows page => exact (keeps_run (Leaf.rows_loads index).paces fun _ => rfl).withLeaf trails page
  | find page target past => exact (keeps_runFind index nodes target past).withLeaf trails page
  | write page =>
    refine (keeps_run (Leaf.write_paces index) ?_).withLeaf trails page
    intro leaf later n decodes
    rw [decodes.isDirty]

theorem Trails.after (trails : Trails index original total lazy early) (nodes : NodeLayer σ)
    {tasks : List Task} (calls : ∀ task ∈ tasks, task.isCall) :
    Trails index original total (lazy.after index nodes tasks) (early.after index nodes tasks) := by
  induction tasks generalizing lazy early with
  | nil => exact trails
  | cons task rest ih =>
    have next := (trails.perform nodes (calls task List.mem_cons_self)).2
    exact ih next fun other member => calls other (List.mem_cons_of_mem task member)

/-- What is seen of a shelf with a leaf of which rows are decoded when they are first looked at, and
of one on which every row was decoded to begin with. -/
structure Unnoticed (index : Index) (original : Leaf) (start : Engine) (lazy early : Shelf σ) :
    Prop where
  walk : early.walk = lazy.walk
  store : early.engine.store = lazy.engine.store
  events : early.engine.events = lazy.engine.events
  counts : ∀ counter, counter ≠ .rowsDecoded →
    early.engine.stats.get counter = lazy.engine.stats.get counter
  /-- The same pages are open. A leaf has more rows decoded at most, where it has not changed. -/
  leaves : ∀ page, lazy.leaves page = none ∧ early.leaves page = none ∨
    ∃ leaf n later, lazy.leaves page = some leaf ∧ early.leaves page = some later ∧
      leaf.Decodes index n later ∧ later.offsets = leaf.offsets
  /-- What is not decoded is where it was, in the image that was read. -/
  undecoded : ∀ page leaf, lazy.leaves page = some leaf → ∀ (slot offset : Nat),
    leaf.slots[slot]? = some ⟨offset, none⟩ → page = original.id ∧
      original.offsets[slot]? = some offset ∧ leaf.image = original.image
  /-- No row is decoded twice. -/
  decoded : lazy.engine.stats.rowsDecoded ≤ start.stats.rowsDecoded + original.count

theorem get_counted_of_ne {counter : Counter} (other : counter ≠ .rowsDecoded) (n : Nat) :
    (engine.counted .rowsDecoded n).stats.get counter = engine.stats.get counter := by
  have same := Stats.get_add engine.stats .rowsDecoded counter n
  rwa [if_neg other, Nat.add_zero] at same

theorem Trails.unnoticed {start : Engine} (trails : Trails index original total lazy early)
    (few : total ≤ start.stats.rowsDecoded + original.count) :
    Unnoticed index original start lazy early := by
  cases trails with
  | @behind leaf ahead n engine walk between count =>
    refine ⟨rfl, rfl, rfl, fun counter other => get_counted_of_ne other n, ?_, ?_, ?_⟩
    · intro page
      by_cases here : page = original.id
      · refine .inr ⟨leaf, n, ahead, ?_, ?_, between.decodes, between.decodes.slots.offsets⟩
        · rw [leaves_single, between.id, if_pos here]
        · rw [leaves_single, between.loaded.id, if_pos here]
      · refine .inl ⟨?_, ?_⟩
        · rw [leaves_single, between.id, if_neg here]
        · rw [leaves_single, between.loaded.id, if_neg here]
    · intro page other there slot offset unknown
      rcases of_leaves_put there with ⟨same, rfl⟩ | ⟨_, none⟩
      · exact ⟨same.trans between.id, between.untouched slot offset unknown⟩
      · cases none
    · exact Nat.le_trans (Nat.le_of_add_right_le (Nat.le_of_eq count)) few
  | level level =>
    refine ⟨rfl, rfl, rfl, fun _ _ => rfl, ?_, ?_, Nat.le_trans (Nat.le_of_eq level.count) few⟩
    · intro page
      cases here : lazy.leaves page with
      | none => exact .inl ⟨rfl, rfl⟩
      | some leaf => exact .inr ⟨leaf, 0, leaf, rfl, rfl, .refl leaf, rfl⟩
    · intro page leaf here slot offset unknown
      exact absurd unknown ((level.loaded page leaf here).known slot offset)

end Shelf

namespace Leaf

theorem le_of_slotDecodes {decode : Nat → Except Fault Row} {slots later : List Slot} {n : Nat}
    (decodes : Slot.Decodes decode slots n later) : n ≤ slots.length := by
  induction decodes with
  | nil => exact Nat.le_refl 0
  | keep _ _ ih => exact Nat.le_succ_of_le ih
  | decode _ _ ih => exact Nat.succ_le_succ ih

/-- A leaf whose rows all decode, and the same leaf once they are decoded. -/
theorem ahead_of_loadRows {leaf early : Leaf} {engine ready : Engine}
    (run : (loadRows index).on leaf engine = ((.ok (), early), ready)) :
    ∃ n, Ahead index leaf leaf n early ∧ ready = engine.counted .rowsDecoded n ∧
      n ≤ leaf.count := by
  obtain ⟨n, decodes, counted⟩ := (loadRows_peeks index).ended run
  obtain ⟨entries, _, rfl⟩ := shows_of_loadRows run
  have known : ∀ slot ∈ entries.map RowEntry.slot, slot.row.isSome := by
    intro slot member
    obtain ⟨entry, _, rfl⟩ := List.mem_map.mp member
    rfl
  refine ⟨n, ⟨decodes, ⟨rfl, known⟩, ?_⟩, counted, le_of_slotDecodes decodes.slots⟩
  intro slot offset unknown
  refine ⟨?_, rfl⟩
  rw [offsets, List.getElem?_map, unknown]
  rfl

end Leaf

namespace Shelf

/-- Let all rows of an image decode. Whatever calls are made on the leaf that was read, and on those
split off it, nobody can tell whether every row was decoded at once: each call gives the same, and
leaves the same behind in the leaves, the store, the events and the other counts. A row that is not
decoded yet has not moved, and no row is decoded twice. -/
theorem early_decoding_unnoticed (nodes : NodeLayer σ) {id : PageId} {image : Buffer}
    {leaf early : Leaf} {engine ready : Engine} (shown : Leaf.ofImage index id image = .ok leaf)
    (decodes : (Leaf.loadRows index).on leaf engine = ((.ok (), early), ready))
    (walk : Cursor × σ) {tasks : List Task} (calls : ∀ task ∈ tasks, task.isCall) :
    let lazily := (single leaf engine walk).after index nodes tasks
    let eagerly := (single early ready walk).after index nodes tasks
    leaf.image = image ∧ Unnoticed index leaf engine lazily eagerly ∧
      ∀ task, task.isCall →
        (lazily.perform index nodes task).1 = (eagerly.perform index nodes task).1 := by
  intro lazily eagerly
  obtain ⟨n, ahead, rfl, few⟩ := Leaf.ahead_of_loadRows decodes
  have start : Trails index leaf (engine.stats.rowsDecoded + n) (single leaf engine walk)
      (single early (engine.counted .rowsDecoded n) walk) := .behind ahead rfl
  have trails := start.after nodes calls
  refine ⟨?_, trails.unnoticed (Nat.add_le_add_left few _), ?_⟩
  · obtain ⟨_, _, _, _, _, _, _, rfl⟩ := Leaf.ofImage_ok shown
    rfl
  · intro task call
    exact (trails.perform nodes call).1

/-- A page of the smallest size with the rows a, b and c. -/
def threeRows : Buffer :=
  #[0, 0, 0, 0, 0x84, 0, 0, 0, 1, 0, 3, 0, 54, 0, 44, 0, 34, 0, 0, 0, 0, 0, 0, 0, 0, 0, 0, 0,
    0, 0, 0, 0, 0, 0, 0, 0, 0, 0, 0, 0, 0, 3, 2, 99, 0, 0, 0, 0, 0, 0, 0, 2, 2, 98,
    0, 0, 0, 0, 0, 0, 0, 1, 2, 97]

/-- Tasks of which the first two leave rows as they were read. -/
def looksAndChanges : List Task :=
  [.row ⟨1⟩ 1, .setParent ⟨1⟩ (some ⟨9⟩), .remove ⟨1⟩ ⟨some [98], ⟨2⟩⟩, .split ⟨1⟩ 1, .write ⟨1⟩]

/-- So it is when one row of three is looked at and the parent changes, and then a row is removed,
the leaf split and its part written. -/
theorem early_decoding_unnoticed_threeRows :
    ∃ leaf early ready, Leaf.ofImage .plain ⟨1⟩ threeRows = .ok leaf ∧
      (Leaf.loadRows .plain).on leaf (.inMemory 64 1) = ((.ok (), early), ready) ∧
      ready.stats.rowsDecoded = 3 ∧
      ((single leaf (.inMemory 64 1) (.off, ())).after .plain .idle
        (looksAndChanges.take 2)).engine.stats.rowsDecoded = 1 ∧
      Unnoticed .plain leaf (.inMemory 64 1)
        ((single leaf (.inMemory 64 1) (.off, ())).after .plain .idle looksAndChanges)
        ((single early ready (.off, ())).after .plain .idle looksAndChanges) := by
  have shown : Leaf.ofImage .plain ⟨1⟩ threeRows =
      .ok ⟨⟨1⟩, none, .full, [⟨54, none⟩, ⟨44, none⟩, ⟨34, none⟩], true, threeRows⟩ := by rfl
  refine ⟨_, _, _, shown, rfl, rfl, by decide +kernel, ?_⟩
  have calls : ∀ task ∈ looksAndChanges, task.isCall := by decide
  exact (early_decoding_unnoticed .idle shown rfl (.off, ()) calls).2.1

end Shelf

end SlottedLeaf
