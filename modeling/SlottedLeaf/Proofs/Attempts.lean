import SlottedLeaf.Proofs.Tidy

/-!
# Rows put on leaves

An attempt is a row that is put on a leaf, whether that fails or not. The leaf goes over to
position-only rows then if it has no room for the row, and no two rows to be split. It keeps its
form otherwise, and every call that makes no attempt leaves the form of its leaf alone. What an
attempt turns is counted as a compaction, and nothing else is.
-/

namespace SlottedLeaf

open LeafCall RowEntry

variable {α β : Type} {index : Index} {leaf later : Leaf} {engine after : Engine} {row : Row}

/-! ## Rows put on leaves -/

/-- A row that is put on a leaf, and the leaf afterwards. -/
structure Attempt where
  leaf : Leaf
  row : Row
  later : Leaf

namespace Attempt

/-- The leaf goes over from full rows to position-only ones. -/
def turns (attempt : Attempt) : Bool :=
  attempt.leaf.form = .full ∧ attempt.later.form = .positionOnly

/-- The attempt is an insertion, whether it fails or not. -/
def Made (index : Index) (attempt : Attempt) : Prop :=
  ∃ engine outcome after, (Leaf.insert index attempt.row).on attempt.leaf engine =
    ((outcome, attempt.later), after)

/-- The leaf has one row at most, and the free space is too small for the row in full and its entry
in the offset table. -/
structure Cornered (index : Index) (attempt : Attempt) : Prop where
  few : attempt.leaf.count ≤ 1
  short : attempt.leaf.freeSpace index < entryLength + index.format.size .full attempt.row

/-- Rows are put on a leaf one after the other, and these are the leaf before the first and the one
after the last. -/
inductive Fills (index : Index) : Leaf → List Attempt → Leaf → Prop where
  | none (leaf : Leaf) : Fills index leaf [] leaf
  | put {attempt : Attempt} {rest : List Attempt} {last : Leaf} (made : attempt.Made index)
      (fills : Fills index attempt.later rest last) :
      Fills index attempt.leaf (attempt :: rest) last

end Attempt

namespace Leaf

theorem Placing.form {before behind : List RowEntry} {outcome : Except Fault Unit}
    (places : Placing index leaf before behind row engine outcome later after) :
    later.form = leaf.form ∧ after.stats.compactions = engine.stats.compactions := by
  cases places <;> exact ⟨rfl, rfl⟩

theorem Tries.id {outcome : Except Fault Insertion}
    (tries : leaf.Tries index row engine outcome later after) : later.id = leaf.id := by
  have placed {target : Leaf} {before behind : List RowEntry} {start finish : Engine}
      {outcome : Except Fault Unit} (places : Placing index target before behind row start outcome
        later finish) : later.id = target.id := by
    cases places <;> rfl
  cases tries with
  | undecoded decodes _ => exact decodes.id
  | refused _ => rfl
  | signalled _ _ _ => rfl
  | fitted _ _ places => exact placed places
  | stuck _ _ _ _ => rfl
  | crowded _ _ _ => rfl
  | compacted _ _ _ _ _ places => exact (placed places).trans leaf.id_compacted

theorem compactions_turned (index : Index) (leaf : Leaf) (count : Nat) (engine : Engine) :
    (engine.turned index leaf count).stats.compactions =
      engine.stats.compactions + (decide (leaf.form = .full)).toNat := by
  rw [Engine.turned]
  by_cases full : leaf.form = .full
  · rw [if_pos full, decide_eq_true full]
    rfl
  · rw [if_neg full, decide_eq_false full]
    rfl

/-- What fits is said by the free space. -/
theorem Tries.turns {outcome : Except Fault Insertion}
    (tries : leaf.Tries index row engine outcome later after) (standard : index.Standard) :
    later.form = leaf.form ∧ after.stats.compactions = engine.stats.compactions ∨
      leaf.form = .full ∧ later.form = .positionOnly ∧
        after.stats.compactions = engine.stats.compactions + 1 ∧
        leaf.count ≤ 1 ∧ ¬ leaf.fits index (index.format.size leaf.form row) := by
  -- Going over counts as a compaction if the rows were full before.
  have turned {n : Nat} {entries : List RowEntry} {last : Leaf} {finish : Engine}
      (decodes : leaf.Decodes index n (leaf.holding entries))
      (short : ¬ leaf.fits index (index.format.size leaf.form row)) (few : entries.length ≤ 1)
      (form : last.form = .positionOnly)
      (same : finish.stats.compactions =
        ((engine.counted .rowsDecoded n).turned index leaf entries.length).stats.compactions) :
      last.form = leaf.form ∧ finish.stats.compactions = engine.stats.compactions ∨
        leaf.form = .full ∧ last.form = .positionOnly ∧
          finish.stats.compactions = engine.stats.compactions + 1 ∧
          leaf.count ≤ 1 ∧ ¬ leaf.fits index (index.format.size leaf.form row) := by
    have count := decodes.count
    rw [count_holding] at count
    rw [compactions_turned] at same
    cases before : leaf.form with
    | positionOnly =>
      rw [before] at same
      exact .inl ⟨form, same⟩
    | full =>
      rw [before] at same short
      exact .inr ⟨rfl, form, same, count ▸ few, short⟩
  cases tries with
  | undecoded decodes _ => exact .inl ⟨decodes.form, rfl⟩
  | refused decodes => exact .inl ⟨decodes.form, rfl⟩
  | signalled decodes _ _ => exact .inl ⟨decodes.form, rfl⟩
  | fitted _ _ places => exact .inl places.form
  | @stuck n entries _ _ few large =>
    have few_rows : (entries.map RowEntry.row).length ≤ 1 := by rwa [List.length_map]
    have room := room_of_few standard few_rows
    rw [packSlots_eq (by omega)] at large
    cases large
  | crowded decodes short few => exact turned decodes short few rfl rfl
  | compacted decodes short few _ _ places =>
    exact turned decodes short few places.form.1 places.form.2

end Leaf

namespace Attempt

variable {attempt : Attempt}

theorem turns_eq_true : attempt.turns = true ↔
    attempt.leaf.form = .full ∧ attempt.later.form = .positionOnly := decide_eq_true_iff

theorem not_turns_of_form (same : attempt.later.form = attempt.leaf.form) :
    attempt.turns = false := by
  rw [← Bool.not_eq_true, turns_eq_true, same]
  rintro ⟨full, turned⟩
  rw [full] at turned
  cases turned

/-- An insertion that the engine counts as a compaction is one that turns. -/
theorem compactions_of_insert (standard : index.Standard) {outcome : Except Fault Insertion}
    (run : (Leaf.insert index row).on leaf engine = ((outcome, later), after)) :
    after.stats.compactions =
      engine.stats.compactions + (turns ⟨leaf, row, later⟩).toNat := by
  rcases (Leaf.insert_tries run).turns standard with ⟨same, compactions⟩ |
    ⟨full, turned, compactions, _⟩
  · rw [compactions, not_turns_of_form same]
    rfl
  · rw [compactions, turns_eq_true.mpr ⟨full, turned⟩]
    rfl

namespace Made

variable (made : attempt.Made index) (standard : index.Standard)

include made standard

theorem form : attempt.later.form = attempt.leaf.form ∨ attempt.turns := by
  obtain ⟨engine, outcome, after, run⟩ := made
  rcases (Leaf.insert_tries run).turns standard with ⟨same, _⟩ | ⟨full, turned, _⟩
  · exact .inl same
  · exact .inr (turns_eq_true.mpr ⟨full, turned⟩)

theorem cornered (turns : attempt.turns) : attempt.Cornered index := by
  obtain ⟨full, turned⟩ := turns_eq_true.mp turns
  obtain ⟨engine, outcome, after, run⟩ := made
  rcases (Leaf.insert_tries run).turns standard with ⟨same, _⟩ | ⟨_, _, _, few, short⟩
  · rw [full, turned] at same
    cases same
  · rw [full] at short
    rw [Leaf.fits_iff_le_freeSpace] at short
    exact ⟨few, by omega⟩

theorem tidy (tidy : attempt.leaf.Tidy index) : attempt.later.Tidy index := by
  obtain ⟨engine, outcome, after, run⟩ := made
  exact (Leaf.insert_tries run).tidy standard tidy

omit standard in
theorem id : attempt.later.id = attempt.leaf.id := by
  obtain ⟨engine, outcome, after, run⟩ := made
  exact (Leaf.insert_tries run).id

end Made

namespace Fills

variable {attempts : List Attempt} {last : Leaf} (fills : Fills index leaf attempts last)

include fills

theorem made : ∀ attempt ∈ attempts, attempt.Made index := by
  induction fills with
  | none leaf => exact nofun
  | put made _ ih => exact List.forall_mem_cons.mpr ⟨made, ih⟩

theorem id : last.id = leaf.id := by
  induction fills with
  | none leaf => rfl
  | put made _ ih => exact ih.trans made.id

theorem tidy (standard : index.Standard) (tidy : leaf.Tidy index) : last.Tidy index := by
  induction fills with
  | none leaf => exact tidy
  | put made _ ih => exact ih (made.tidy standard tidy)

/-- A leaf that no attempt turns keeps its form. -/
theorem form (standard : index.Standard) (none : ∀ attempt ∈ attempts, attempt.turns = false) :
    last.form = leaf.form := by
  induction fills with
  | none leaf => rfl
  | put made _ ih =>
    rw [List.forall_mem_cons] at none
    rcases made.form standard with same | turns
    · exact (ih none.2).trans same
    · rw [none.1] at turns
      cases turns

end Fills

end Attempt

/-! ## Calls that keep the form -/

namespace Leaf

/-- The leaf keeps its form while these attempts are made, on whatever leaves, and every one of them
that turns is counted as a compaction. -/
structure Retains (index : Index) (leaf : Leaf) (engine : Engine) (attempts : List Attempt)
    (later : Leaf) (after : Engine) : Prop where
  form : later.form = leaf.form
  tidy : leaf.Tidy index → later.Tidy index
  compactions : after.stats.compactions =
    engine.stats.compactions + attempts.countP Attempt.turns

theorem Retains.refl (leaf : Leaf) (engine : Engine) : leaf.Retains index engine [] leaf engine :=
  ⟨rfl, fun tidy => tidy, rfl⟩

theorem Retains.trans {middle : Leaf} {between : Engine} {first second : List Attempt}
    (keeps : leaf.Retains index engine first middle between)
    (more : middle.Retains index between second later after) :
    leaf.Retains index engine (first ++ second) later after where
  form := more.form.trans keeps.form
  tidy := fun tidy => more.tidy (keeps.tidy tidy)
  compactions := by
    rw [more.compactions, keeps.compactions, List.countP_append, Nat.add_assoc]

end Leaf

namespace LeafCall

/-- The call makes no attempt to put a row on a leaf. -/
def KeepsForm (index : Index) (call : LeafCall α) : Prop :=
  ∀ (leaf : Leaf) (engine : Engine),
    leaf.Retains index engine [] (call.on leaf engine).1.2 (call.on leaf engine).2

variable {call other : LeafCall α} {next : α → LeafCall β}

theorem KeepsForm.ended (keeps : call.KeepsForm index) {outcome : Except Fault α}
    (run : call.on leaf engine = ((outcome, later), after)) :
    leaf.Retains index engine [] later after := by
  have kept := keeps leaf engine
  rwa [run] at kept

theorem KeepsForm.bind (first : call.KeepsForm index)
    (second : ∀ value, (next value).KeepsForm index) : (call >>= next).KeepsForm index := by
  intro leaf engine
  have kept := first leaf engine
  rw [on_bind]
  rcases ended : call.on leaf engine with ⟨⟨fault | value, middle⟩, between⟩ <;> rw [ended] at kept
  · exact kept
  · exact kept.trans (second value middle between)

theorem KeepsForm.ite {condition : Prop} [Decidable condition] (first : call.KeepsForm index)
    (second : other.KeepsForm index) : (if condition then call else other).KeepsForm index := by
  by_cases holds : condition
  · rwa [if_pos holds]
  · rwa [if_neg holds]

theorem Peeks.keepsForm (peeks : call.Peeks index) : call.KeepsForm index := by
  intro leaf engine
  obtain ⟨outcome, n, later, decodes, run⟩ := peeks.on leaf engine
  rw [run]
  exact ⟨decodes.form, decodes.tidy, rfl⟩

theorem keepsForm_pure (value : α) : (pure value : LeafCall α).KeepsForm index :=
  fun _ _ => .refl ..

theorem keepsForm_throw (fault : Fault) : (throw fault : LeafCall α).KeepsForm index :=
  fun _ _ => .refl ..

theorem keepsForm_report (event : Event) :
    (liftM (Engine.report event) : LeafCall Unit).KeepsForm index :=
  fun _ _ => ⟨rfl, fun tidy => tidy, rfl⟩

theorem keepsForm_note (page : PageId) :
    (liftM (Engine.notePage page) : LeafCall Unit).KeepsForm index := by
  intro leaf engine
  obtain ⟨store, noted, _⟩ := engine.notePage_on page
  rw [on_engine, noted]
  exact ⟨rfl, id, rfl⟩

end LeafCall

namespace Leaf

theorem removeAt_keepsForm (index : Index) (slot : Nat) :
    (removeAt index slot).KeepsForm index := by
  intro leaf engine
  rcases run : (removeAt index slot).on leaf engine with ⟨⟨outcome, later⟩, after⟩
  have takes := removeAt_takes run
  refine ⟨?_, takes.tidy, ?_⟩
  · cases takes with
    | undecoded decodes _ => exact decodes.form
    | kept _ _ => rfl
    | unsound _ _ _ _ _ => rfl
    | taken _ _ _ _ => rfl
  · cases takes <;> rfl

theorem remove_keepsForm (index : Index) (target : Row) :
    (remove index target).KeepsForm index := by
  refine (search_peeks index .removal target).keepsForm.bind fun slot => ?_
  refine (holds_peeks index slot target).keepsForm.bind fun held => ?_
  apply KeepsForm.ite
  · exact get_peeks.keepsForm.bind fun leaf => keepsForm_throw _
  refine get_peeks.keepsForm.bind fun leaf => ?_
  apply KeepsForm.ite
  · refine (row_peeks index slot).keepsForm.bind fun only => get_peeks.keepsForm.bind fun leaf => ?_
    exact (keepsForm_report _).bind fun _ => keepsForm_pure _
  refine (removeAt_keepsForm index slot).bind fun _ => get_peeks.keepsForm.bind fun leaf => ?_
  refine (keepsForm_note leaf.id).bind fun _ => get_peeks.keepsForm.bind fun leaf => ?_
  apply KeepsForm.ite
  · exact (row_peeks index (slot - 1)).keepsForm.bind fun last => keepsForm_pure _
  · exact keepsForm_pure _

theorem setParent_keepsForm (index : Index) (parent : Option PageId) :
    (setParent parent).KeepsForm index := by
  intro leaf engine
  rw [setParent_on]
  by_cases same : leaf.parent = parent
  · rw [if_pos same]
    exact .refl leaf engine
  · rw [if_neg same]
    exact ⟨rfl, fun tidy => ⟨tidy.image, tidy.falls, tidy.clear, nofun⟩, rfl⟩

theorem write_keepsForm (standard : index.Standard) : (write index).KeepsForm index := by
  intro leaf engine
  rcases run : (write index).on leaf engine with ⟨⟨outcome, later⟩, after⟩
  have saves := write_saves run
  refine ⟨?_, saves.tidy standard, ?_⟩
  · cases saves with
    | clean _ => rfl
    | undrawn _ decodes => exact decodes.form
    | refused _ _ => rfl
    | taken _ _ _ _ _ => rfl
  · cases saves <;> rfl

end Leaf

end SlottedLeaf
