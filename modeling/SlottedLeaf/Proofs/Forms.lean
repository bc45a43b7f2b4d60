import SlottedLeaf.Proofs.Benches
import SlottedLeaf.Proofs.Moving
import SlottedLeaf.Row.Table

/-!
# Leaves go over to position-only rows once

A leaf goes over to position-only rows where a row is put on it that it has no room for, and it has
no two rows to be split. Nothing else that is done at a bench changes the form of a leaf. Nothing
brings full rows back, not even that the leaf is written and loaded. Rows that leaves keep by their
positions may be looked up to anything meanwhile, now to this and then to that.
-/

namespace SlottedLeaf

open LeafCall

variable {σ : Type} {index : Index} {leaf later : Leaf} {engine after : Engine} {row : Row}

/-! ## Benches -/

/-- The attempts that a deed makes. -/
def Deed.attempts (index : Index) (leaf : Leaf) (engine : Engine) : Deed → List Attempt
  | insert row => [⟨leaf, row, ((Leaf.insert index row).on leaf engine).1.2⟩]
  | split point => leaf.splitAttempts index point engine
  | _ => []

/-- Whatever is done with a leaf, its form stays unless one of the attempts turns the leaf itself;
every attempt is an insertion, and each that turns is counted. -/
structure Deed.Forms (index : Index) (leaf : Leaf) (engine : Engine) (attempts : List Attempt)
    (outcome : Except Fault Yield) (later : Leaf) (after : Engine) : Prop where
  form : later.form = leaf.form ∨
    ∃ row, ⟨leaf, row, later⟩ ∈ attempts ∧ Attempt.turns ⟨leaf, row, later⟩
  tidy : leaf.Tidy index → later.Tidy index
  opened : ∀ right ∈ Bench.opened outcome, right.Tidy index
  made : ∀ attempt ∈ attempts, attempt.Made index
  compactions : after.stats.compactions =
    engine.stats.compactions + attempts.countP Attempt.turns

theorem Deed.forms_of_keepsForm {deed : Deed} (whole : ∀ point, deed ≠ .split point)
    (keeps : (deed.call index).KeepsForm index) {outcome : Except Fault Yield}
    (run : (deed.call index).on leaf engine = ((outcome, later), after)) :
    Forms index leaf engine [] outcome later after := by
  have kept := keeps.ended run
  refine ⟨.inl kept.form, kept.tidy, ?_, nofun, kept.compactions⟩
  rw [Bench.opened_eq_nil whole run]
  exact nofun

theorem Deed.forms_of_insert (standard : index.Standard) {outcome : Except Fault Yield}
    (run : ((Deed.insert row).call index).on leaf engine = ((outcome, later), after)) :
    Forms index leaf engine ((Deed.insert row).attempts index leaf engine) outcome later after := by
  have plain : Bench.opened outcome = [] := Bench.opened_eq_nil (by simp) run
  rw [call, on_bind] at run
  rcases inserts : (Leaf.insert index row).on leaf engine with ⟨⟨answer, filled⟩, between⟩
  rw [inserts] at run
  rw [attempts, inserts]
  have made : Attempt.Made index ⟨leaf, row, filled⟩ := ⟨engine, answer, between, inserts⟩
  have counted := (Leaf.Retains.insert standard leaf inserts).compactions
  obtain ⟨rfl, rfl⟩ : later = filled ∧ after = between := by
    cases answer <;> cases run <;> exact ⟨rfl, rfl⟩
  refine ⟨?_, made.tidy standard, ?_, ?_, counted⟩
  · rcases made.form standard with same | turns
    · exact .inl same
    · exact .inr ⟨row, List.mem_singleton_self _, turns⟩
  · rw [plain]
    exact nofun
  · exact List.forall_mem_singleton.mpr made

theorem Deed.forms_of_split (standard : index.Standard) {point : Nat}
    {outcome : Except Fault Yield}
    (run : ((Deed.split point).call index).on leaf engine = ((outcome, later), after)) :
    Forms index leaf engine (leaf.splitAttempts index point engine) outcome later after := by
  rw [call, on_bind] at run
  rcases splits : (Leaf.split index point).on leaf engine with ⟨⟨answer, left⟩, between⟩
  rw [splits] at run
  obtain ⟨kept, made, fills⟩ := Leaf.split_forms standard splits
  obtain ⟨rfl, rfl⟩ : later = left ∧ after = between := by
    cases answer <;> cases run <;> exact ⟨rfl, rfl⟩
  refine ⟨.inl kept.form, kept.tidy, ?_, made, kept.compactions⟩
  cases answer with
  | error fault =>
    cases run
    exact nofun
  | ok right =>
    cases run
    exact List.forall_mem_singleton.mpr ((fills right rfl).tidy standard (.create standard ..))

theorem Deed.forms (standard : index.Standard) {deed : Deed} {outcome : Except Fault Yield}
    (run : (deed.call index).on leaf engine = ((outcome, later), after)) :
    Forms index leaf engine (deed.attempts index leaf engine) outcome later after := by
  cases deed with
  | insert row => exact forms_of_insert standard run
  | remove row =>
    exact forms_of_keepsForm (by simp)
      ((Leaf.remove_keepsForm index row).bind fun _ => keepsForm_pure _) run
  | setParent parent =>
    exact forms_of_keepsForm (by simp)
      ((Leaf.setParent_keepsForm index parent).bind fun _ => keepsForm_pure _) run
  | row slot =>
    exact forms_of_keepsForm (by simp)
      ((Leaf.row_peeks index slot).keepsForm.bind fun _ => keepsForm_pure _) run
  | rows =>
    exact forms_of_keepsForm (by simp)
      ((Leaf.rows_peeks index).keepsForm.bind fun _ => keepsForm_pure _) run
  | write =>
    exact forms_of_keepsForm (by simp)
      ((Leaf.write_keepsForm standard).bind fun _ => keepsForm_pure _) run
  | split point => exact forms_of_split standard run

namespace Bench

/-- The attempts that a chore makes. -/
def attempts (index : Index) (bench : Bench σ) : Chore → List Attempt
  | .handle number deed =>
    match bench.leaves[number]? with
    | none => []
    | some leaf => deed.attempts index leaf bench.engine
  | _ => []

/-- The attempts that jobs make, one after the other. -/
def allAttempts (index : Index) (nodes : NodeLayer σ) (bench : Bench σ) : List Job → List Attempt
  | [] => []
  | job :: rest =>
    bench.attempts (index.lookingUp job.resolve) job.chore ++
      (bench.work index nodes job).2.allAttempts index nodes rest

/-- The leaves of a bench are tidy still, and each of them has its form still unless one of the
attempts turned it. -/
structure Turned (index : Index) (bench : Bench σ) (attempts : List Attempt) (later : Bench σ) :
    Prop where
  tidy : (∀ leaf ∈ bench.leaves, leaf.Tidy index) → ∀ leaf ∈ later.leaves, leaf.Tidy index
  form : ∀ (number : Nat) (leaf : Leaf), bench.leaves[number]? = some leaf →
    ∃ next, later.leaves[number]? = some next ∧ (next.form = leaf.form ∨
      ∃ row, ⟨leaf, row, next⟩ ∈ attempts ∧ Attempt.turns ⟨leaf, row, next⟩)
  made : ∀ attempt ∈ attempts, attempt.Made index
  compactions : later.engine.stats.compactions =
    bench.engine.stats.compactions + attempts.countP Attempt.turns

variable {bench later : Bench σ}

/-- Nothing is attempted while the leaves of a bench stay what they are. -/
theorem Turned.of_same (leaves : later.leaves = bench.leaves)
    (compactions : later.engine.stats.compactions = bench.engine.stats.compactions) :
    bench.Turned index [] later := by
  refine ⟨?_, ?_, nofun, compactions⟩
  · rw [leaves]
    exact fun tidy => tidy
  · rw [leaves]
    exact fun number leaf here => ⟨leaf, here, .inl rfl⟩

/-- A leaf that is put on a bench is tidy, and the others stay what they are. -/
theorem Turned.of_take {call : EngineCall Leaf}
    (opens : ∀ leaf after, call.on bench.engine = (.ok leaf, after) → leaf.Tidy index)
    (same : (call.on bench.engine).2.stats.compactions = bench.engine.stats.compactions) :
    bench.Turned index [] (bench.take call).2 := by
  rw [take]
  rcases run : call.on bench.engine with ⟨fault | leaf, after⟩ <;> rw [run] at same
  · exact .of_same rfl same
  refine ⟨?_, ?_, nofun, same⟩
  · intro tidy
    exact List.forall_mem_append.mpr ⟨tidy, List.forall_mem_singleton.mpr (opens leaf after run)⟩
  · intro number other here
    exact ⟨other, (List.getElem?_append_left (List.getElem?_eq_some_iff.mp here).1).trans here,
      .inl rfl⟩

/-- What becomes of one leaf becomes of the bench. -/
theorem Turned.of_set {number : Nat} {leaf next : Leaf} {attempts : List Attempt}
    (here : bench.leaves[number]? = some leaf) {fresh : List Leaf}
    (tidy : leaf.Tidy index → next.Tidy index) (opened : ∀ right ∈ fresh, right.Tidy index)
    (form : next.form = leaf.form ∨
      ∃ row, ⟨leaf, row, next⟩ ∈ attempts ∧ Attempt.turns ⟨leaf, row, next⟩)
    (made : ∀ attempt ∈ attempts, attempt.Made index)
    (compactions : after.stats.compactions =
      bench.engine.stats.compactions + attempts.countP Attempt.turns) (walk : Cursor × σ) :
    bench.Turned index attempts ⟨bench.leaves.set number next ++ fresh, after, walk⟩ := by
  refine ⟨?_, ?_, made, compactions⟩
  · intro all
    refine List.forall_mem_append.mpr ⟨?_, opened⟩
    intro other member
    rcases List.mem_or_eq_of_mem_set member with known | rfl
    · exact all other known
    · exact tidy (all leaf (List.mem_of_getElem? here))
  · intro other held there
    have inside : other < (bench.leaves.set number next).length := by
      rw [List.length_set]
      exact (List.getElem?_eq_some_iff.mp there).1
    by_cases same : number = other
    · subst same
      obtain rfl := Option.some.inj (here.symm.trans there)
      refine ⟨next, ?_, form⟩
      rw [List.getElem?_append_left inside, List.getElem?_set_self (by simpa using inside)]
    · refine ⟨held, ?_, .inl rfl⟩
      rw [List.getElem?_append_left inside, List.getElem?_set_ne same, there]

theorem createRoot_turned (standard : index.Standard) (bench : Bench σ) :
    bench.Turned index [] (bench.take (Leaf.createRoot index)).2 := by
  have allocates := congrArg Stats.compactions bench.engine.allocatePage_stats
  rcases allocated : Engine.allocatePage.on bench.engine with ⟨fault | id, middle⟩ <;>
    rw [allocated] at allocates
  · refine .of_take ?_ ?_ <;> rw [Leaf.createRoot_on, allocated]
    · rintro _ _ ⟨⟩
    · exact allocates
  rcases writes : (Leaf.write index).on (.create index id none .full) middle with
    ⟨⟨outcome, leaf⟩, after⟩
  have kept := (Leaf.write_keepsForm standard).ended writes
  refine .of_take ?_ ?_ <;> rw [Leaf.createRoot_on, allocated] <;> simp only [writes]
  · intro other finish run
    cases outcome with
    | error fault => cases run
    | ok _ =>
      cases run
      exact kept.tidy (.create standard id none .full)
  · exact kept.compactions.trans allocates

theorem find_turned (nodes : NodeLayer σ) (bench : Bench σ) (number : Nat) (target : Row)
    (past : Bool) :
    bench.Turned index [] (bench.perform index nodes (.find number target past)).2 := by
  rw [perform]
  refine withLeaf_of (fun made => bench.Turned index [] made.2) (.of_same rfl rfl) ?_
  intro leaf here
  rw [find_eq]
  rcases run : (Leaf.seek index target past).on leaf bench.engine with ⟨⟨outcome, later⟩, after⟩
  have kept := (Leaf.seek_peeks index target past).keepsForm.ended run
  have set (walk : Cursor × σ) :
      bench.Turned index [] ⟨bench.leaves.set number later, after, walk⟩ := by
    have whole : bench.Turned index [] ⟨bench.leaves.set number later ++ [], after, walk⟩ :=
      .of_set here kept.tidy (List.forall_mem_nil _) (.inl kept.form) (List.forall_mem_nil _)
        kept.compactions walk
    rwa [List.append_nil] at whole
  cases outcome with
  | error fault => exact set bench.walk
  | ok landing => exact set _

/-- What a chore does to the leaves of a bench. -/
theorem perform_turned (standard : index.Standard) (nodes : NodeLayer σ) (bench : Bench σ)
    (chore : Chore) :
    bench.Turned index (bench.attempts index chore) (bench.perform index nodes chore).2 := by
  cases chore with
  | ask call =>
    have same := congrArg Stats.compactions (Engine.ask_stats call bench.engine)
    rw [perform]
    rcases run : (Engine.ask call).on bench.engine with ⟨outcome, engine⟩
    rw [run] at same
    exact .of_same rfl same
  | create page parent form =>
    refine .of_take ?_ rfl
    rintro _ _ ⟨⟩
    exact .create standard page parent form
  | createRoot => exact createRoot_turned standard bench
  | read page image =>
    obtain ⟨n, stats⟩ := Leaf.read_stats index page image bench.engine
    refine .of_take ?_ (by rw [stats]; rfl)
    intro leaf after run
    rw [Leaf.read_on] at run
    cases shown : Leaf.ofImage index page image with
    | error fault =>
      rw [shown] at run
      cases run
    | ok other =>
      rw [shown] at run
      cases run
      exact Leaf.tidy_of_ofImage standard shown
  | load page =>
    obtain ⟨n, stats⟩ := Leaf.load_stats index page bench.engine
    refine .of_take ?_ (by rw [stats]; rfl)
    intro leaf after run
    obtain ⟨_, image, _, shown⟩ := Leaf.load_ok run
    exact Leaf.tidy_of_ofImage standard shown
  | handle number deed =>
    rw [perform, withLeaf, attempts]
    cases here : bench.leaves[number]? with
    | none => exact .of_same rfl rfl
    | some leaf =>
      simp only [handle]
      rcases run : (deed.call index).on leaf bench.engine with ⟨⟨outcome, next⟩, after⟩
      have forms := deed.forms standard run
      exact .of_set here forms.tidy forms.opened forms.form forms.made forms.compactions bench.walk
  | find number target past => exact find_turned nodes bench number target past
  | turn number course =>
    show bench.Turned index [] _
    rw [perform, withLeaf]
    cases bench.leaves[number]? with
    | none => exact .of_same rfl rfl
    | some leaf => exact .of_same rfl rfl

/-! ## Every run -/

variable (standard : index.Standard) (nodes : NodeLayer σ)

include standard

theorem work_turned (bench : Bench σ) (job : Job) :
    bench.Turned (index.lookingUp job.resolve)
      (bench.attempts (index.lookingUp job.resolve) job.chore) (bench.work index nodes job).2 :=
  perform_turned (Index.standard_lookingUp.mpr standard) nodes bench job.chore

theorem after_tidy (tidy : ∀ leaf ∈ bench.leaves, leaf.Tidy index) (jobs : List Job) :
    ∀ leaf ∈ (bench.after index nodes jobs).leaves, leaf.Tidy index := by
  induction jobs generalizing bench with
  | nil => exact tidy
  | cons job rest ih =>
    have kept := (work_turned standard nodes bench job).tidy fun leaf member =>
      Leaf.tidy_lookingUp.mpr (tidy leaf member)
    exact ih fun leaf member => Leaf.tidy_lookingUp.mp (kept leaf member)

theorem after_compactions (bench : Bench σ) (jobs : List Job) :
    (bench.after index nodes jobs).engine.stats.compactions =
      bench.engine.stats.compactions +
        (bench.allAttempts index nodes jobs).countP Attempt.turns := by
  induction jobs generalizing bench with
  | nil => rfl
  | cons job rest ih =>
    have turned := work_turned standard nodes bench job
    rw [after, ih, turned.compactions, allAttempts, List.countP_append, Nat.add_assoc]

/-- A leaf of position-only rows stays one. -/
theorem after_positionOnly {number : Nat} {leaf : Leaf}
    (here : bench.leaves[number]? = some leaf) (form : leaf.form = .positionOnly)
    (jobs : List Job) :
    ∃ later, (bench.after index nodes jobs).leaves[number]? = some later ∧
      later.form = .positionOnly := by
  induction jobs generalizing bench leaf with
  | nil => exact ⟨leaf, here, form⟩
  | cons job rest ih =>
    obtain ⟨next, there, same | ⟨row, _, turns⟩⟩ :=
      (work_turned standard nodes bench job).form number leaf here
    · exact ih there (same.trans form)
    · have full := (Attempt.turns_eq_true.mp turns).1
      rw [show leaf.form = .full from full] at form
      cases form

omit standard in
/-- What is loaded for the page of a leaf has the form of the leaf, whatever rows are looked up
to. -/
def Reopens (index : Index) (nodes : NodeLayer σ) (bench : Bench σ) (leaf : Leaf) : Prop :=
  ∃ loaded, (∀ resolve, (bench.work index nodes ⟨resolve, .load leaf.id⟩).1 =
    .ok (.opened loaded)) ∧ loaded.form = leaf.form

omit standard in
theorem reopens_of_clean {leaf : Leaf} (tidy : leaf.Tidy index) (clean : leaf.isDirty = false)
    (kept : bench.engine.store.read leaf.id = .ok leaf.image) : bench.Reopens index nodes leaf := by
  obtain ⟨loaded, shown, form⟩ := tidy.shown clean
  refine ⟨loaded, ?_, form⟩
  intro resolve
  have shown : Leaf.ofImage (index.lookingUp resolve) leaf.id leaf.image = .ok loaded := shown
  have loads := Leaf.load_of_read kept shown
  rw [work, perform, take]
  rcases run : (Leaf.load (index.lookingUp resolve) leaf.id).on bench.engine with ⟨outcome, engine⟩
  rw [run] at loads
  obtain rfl : outcome = .ok loaded := loads
  rfl

theorem reopens_of_write {number : Nat} {leaf : Leaf} (here : bench.leaves[number]? = some leaf)
    (tidy : leaf.Tidy index) (dirty : leaf.isDirty) {resolve : RowPos → Except Fault Row}
    {answer : Upshot} {written : Bench σ}
    (wrote : bench.work index nodes ⟨resolve, .handle number .write⟩ = (.ok answer, written)) :
    written.Reopens index nodes leaf := by
  rcases run : (Leaf.write (index.lookingUp resolve)).on leaf bench.engine with
    ⟨⟨outcome, later⟩, after⟩
  have saves := Leaf.write_saves run
  have settled := saves.tidy (Index.standard_lookingUp.mpr standard) (Leaf.tidy_lookingUp.mpr tidy)
  rw [work, perform_handle here rfl run] at wrote
  cases saves with
  | clean clean =>
    rw [dirty] at clean
    cases clean
  | undrawn _ _ => cases wrote
  | refused _ _ => cases wrote
  | @taken n entries store _ _ _ _ takes =>
    cases wrote
    show Reopens index nodes _ { leaf.drawn (index.lookingUp resolve) entries with written := true }
    exact reopens_of_clean nodes (Leaf.tidy_lookingUp.mp settled) rfl
      (Store.stores_of_write takes).read

omit standard in
/-- How the leaves of a bench go over to position-only rows, if these are all the attempts that were
made so far. -/
structure OneWay (index : Index) (nodes : NodeLayer σ) (bench : Bench σ) (attempts : List Attempt) :
    Prop where
  /-- A leaf of position-only rows stays one, whatever is done from here on. -/
  stays : ∀ (jobs : List Job) (number : Nat) (leaf : Leaf),
    bench.leaves[number]? = some leaf → leaf.form = .positionOnly →
      ∃ later, (bench.after index nodes jobs).leaves[number]? = some later ∧
        later.form = .positionOnly
  /-- If the store has the image of a leaf that has not changed, a leaf of the same form is
  loaded. -/
  reopens : ∀ leaf ∈ bench.leaves, leaf.isDirty = false →
    bench.engine.store.read leaf.id = .ok leaf.image → bench.Reopens index nodes leaf
  /-- So it is once a leaf that has changed is written. -/
  writes : ∀ (resolve : RowPos → Except Fault Row) (number : Nat) (leaf : Leaf) (answer : Upshot)
    (written : Bench σ), bench.leaves[number]? = some leaf → leaf.isDirty →
      bench.work index nodes ⟨resolve, .handle number .write⟩ = (.ok answer, written) →
        written.Reopens index nodes leaf
  /-- A job leaves every leaf its form, unless it attempts to put a row on that leaf. -/
  form : ∀ (job : Job) (number : Nat) (leaf : Leaf), bench.leaves[number]? = some leaf →
    ∃ later, (bench.work index nodes job).2.leaves[number]? = some later ∧
      (later.form = leaf.form ∨
        ∃ row, ⟨leaf, row, later⟩ ∈ bench.attempts (index.lookingUp job.resolve) job.chore ∧
          Attempt.turns ⟨leaf, row, later⟩)
  /-- Attempts are insertions, and no leaf is turned by one that has a second row, or room. -/
  cornered : ∀ job : Job, ∀ attempt ∈ bench.attempts (index.lookingUp job.resolve) job.chore,
    attempt.Made (index.lookingUp job.resolve) ∧ (attempt.turns → attempt.Cornered index)
  /-- Every turn of a leaf was counted, once. -/
  counted : bench.engine.stats.compactions = attempts.countP Attempt.turns

/-- Leaves go over to position-only rows once, and only to put a row on a leaf that has at most one
and no room for it, whatever rows are looked up to on the way. A split leaves the form of the leaf
that is split alone; the new leaf starts with that form, and keeps it if the layout of the other is
in order. -/
theorem forms_turn_once (store : Store) (walk : Cursor × σ) (jobs : List Job) :
    let start : Bench σ := empty (.start store) walk
    OneWay index nodes (start.after index nodes jobs) (start.allAttempts index nodes jobs) ∧
      ∀ (point : Nat) (leaf right later : Leaf) (engine after : Engine),
        (Leaf.split index point).on leaf engine = ((.ok right, later), after) →
          later.form = leaf.form ∧
            Attempt.Fills index (.create index right.id leaf.parent leaf.form)
              (leaf.splitAttempts index point engine) right ∧
            ∀ entries, leaf.Shows index entries →
              (leaf.holding entries).checkLayout index = .ok () →
                right.form = leaf.form ∧
                  after.stats.compactions = engine.stats.compactions := by
  intro start
  have tidy : ∀ leaf ∈ (start.after index nodes jobs).leaves, leaf.Tidy index :=
    after_tidy standard nodes (List.forall_mem_nil _) jobs
  refine ⟨⟨?_, ?_, ?_, ?_, ?_, ?_⟩, ?_⟩
  · intro more number leaf here form
    exact after_positionOnly standard nodes here form more
  · intro leaf member clean kept
    exact reopens_of_clean nodes (tidy leaf member) clean kept
  · intro resolve number leaf answer written here dirty wrote
    exact reopens_of_write standard nodes here (tidy leaf (List.mem_of_getElem? here)) dirty wrote
  · intro job
    exact (work_turned standard nodes _ job).form
  · intro job attempt member
    have made := (work_turned standard nodes _ job).made attempt member
    have cornered := made.cornered (Index.standard_lookingUp.mpr standard)
    exact ⟨made, fun turns => ⟨(cornered turns).few, (cornered turns).short⟩⟩
  · exact (after_compactions standard nodes start jobs).trans (Nat.zero_add _)
  · intro point leaf right later engine after run
    obtain ⟨kept, _, fills⟩ := Leaf.split_forms standard run
    have filled := fills right rfl
    refine ⟨kept.form, filled, ?_⟩
    intro entries shows checked
    have none := Leaf.splitAttempts_fit standard shows checked point engine
    refine ⟨filled.form standard none, ?_⟩
    rw [kept.compactions, List.countP_eq_zero.mpr fun attempt member => by
      rw [none attempt member]
      exact Bool.false_ne_true]
    rfl

/-- A page of the smallest size has room for either of these rows, but not for both. Each is put in
the table before it is put on the leaf. -/
def cornering : List Job :=
  let first : Row := ⟨some (List.replicate 24 97), ⟨1⟩⟩
  let second : Row := ⟨some (List.replicate 24 98), ⟨2⟩⟩
  [⟨RowTable.empty.resolve, .createRoot⟩,
    ⟨(RowTable.ofList [first]).resolve, .handle 0 (.insert first)⟩,
    ⟨(RowTable.ofList [first, second]).resolve, .handle 0 (.insert second)⟩]

omit standard in
/-- The second row is put on the leaf once both are position-only, and so they are when the leaf is
written and loaded. Of three rows that have room in full, two are split off without that. -/
theorem forms_turn_once_cornered :
    let start : Bench Unit := empty (.start (.memory ⟨64, 0, [], .empty, 0, 0⟩)) (.off, ())
    let bench := start.after .plain .idle cornering
    let tripled := Leaf.ofRows .plain ⟨1⟩ none .full
      [⟨some [97], ⟨1⟩⟩, ⟨some [98], ⟨2⟩⟩, ⟨some [99], ⟨3⟩⟩]
    bench.engine.stats.compactions = 1 ∧
      (∃ leaf, bench.leaves[0]? = some leaf ∧ leaf.form = .positionOnly ∧
        (bench.work .plain .idle ⟨RowTable.empty.resolve, .handle 0 .write⟩).2.Reopens .plain .idle
          leaf) ∧
      ∃ right, ((Leaf.split .plain 1).on tripled (.inMemory 64 1)).1.1 = .ok right ∧
        right.form = .full := by
  dsimp only
  have standard : Index.plain.Standard := Index.smallest_standard _ _
  have seen : ((empty (.start (.memory ⟨64, 0, [], .empty, 0, 0⟩)) (.off, ()) : Bench Unit).after
      .plain .idle cornering).leaves[0]?.map (fun leaf => (leaf.form, leaf.isDirty)) =
        some (.positionOnly, true) := by
    decide +kernel
  have wrote : (((empty (.start (.memory ⟨64, 0, [], .empty, 0, 0⟩)) (.off, ()) : Bench Unit).after
      .plain .idle cornering).work .plain .idle
        ⟨RowTable.empty.resolve, .handle 0 .write⟩).1 = .ok (.gives .done) := by
    decide +kernel
  obtain ⟨way, splits⟩ := forms_turn_once standard .idle
    (.memory ⟨64, 0, [], .empty, 0, 0⟩) (.off, ()) cornering
  have once := way.counted.trans (by decide +kernel : _ = 1)
  generalize (empty (.start (.memory ⟨64, 0, [], .empty, 0, 0⟩)) (.off, ()) : Bench Unit).after
    .plain .idle cornering = bench at seen wrote way once ⊢
  refine ⟨once, ?_, ?_⟩
  · cases here : bench.leaves[0]? with
    | none =>
      rw [here] at seen
      cases seen
    | some leaf =>
      rw [here] at seen
      obtain ⟨form, dirty⟩ := Prod.mk.inj (Option.some.inj seen)
      exact ⟨leaf, rfl, form, way.writes _ 0 leaf _ _ here dirty (Prod.ext wrote rfl)⟩
  · have outcome : ((Leaf.split .plain 1).on (Leaf.ofRows .plain ⟨1⟩ none .full
        [⟨some [97], ⟨1⟩⟩, ⟨some [98], ⟨2⟩⟩, ⟨some [99], ⟨3⟩⟩]) (.inMemory 64 1)).1.1.isOk =
          true := by
      decide +kernel
    rcases run : (Leaf.split .plain 1).on (Leaf.ofRows .plain ⟨1⟩ none .full
        [⟨some [97], ⟨1⟩⟩, ⟨some [98], ⟨2⟩⟩, ⟨some [99], ⟨3⟩⟩]) (.inMemory 64 1) with
      ⟨⟨fault | right, later⟩, after⟩ <;> rw [run] at outcome
    · cases outcome
    obtain ⟨-, -, keeps⟩ := splits _ _ _ _ _ _ run
    exact ⟨right, rfl, (keeps _ (.of_changed _ _) (by decide +kernel)).1⟩

end Bench

end SlottedLeaf
