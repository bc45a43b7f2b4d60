import SlottedLeaf.Proofs.Insertion
import SlottedLeaf.Proofs.Removal

/-!
# A leaf as an ordered set

To those who insert and remove rows a leaf is a set of rows in the order of the index. The set says
which changes are refused and what it holds after the others; only when to split is up to the leaf.
-/

namespace SlottedLeaf

open RowEntry

/-! ## Sets of rows -/

/-- A row that a set may not take in: it is there, or the index is unique and its key is there and
not NULL. -/
def Conflicts (index : Index) (rows : List Row) (row : Row) : Prop :=
  row ∈ rows ∨ index.options.unique ∧ row.key ≠ none ∧ ∃ other ∈ rows, other.key = row.key

/-- What inserting a row into a set answers, and the set afterwards. -/
structure SetInserts (index : Index) (id : PageId) (rows : List Row) (row : Row)
    (outcome : Except Fault Insertion) (later : List Row) : Prop where
  refused_iff : outcome = .error (.duplicateKey id row) ↔ Conflicts index rows row
  refused : Conflicts index rows row → later = rows
  accepted : ¬ Conflicts index rows row →
    outcome = .ok .inserted ∧ later = Row.insertInOrder row rows ∨
      ∃ slot, outcome = .ok (.splitAt slot) ∧ (0 < slot ∧ slot < rows.length) ∧ later = rows

/-- What removing a row from a set answers, and the set afterwards. -/
structure SetRemoves (id : PageId) (rows : List Row) (row : Row) (outcome : Except Fault Removal)
    (later : List Row) : Prop where
  absent_iff : outcome = .error (.rowNotFound id row) ↔ row ∉ rows
  absent : row ∉ rows → later = rows
  only : row ∈ rows → rows.length = 1 → outcome = .ok (.emptied row) ∧ later = rows
  last : row ∈ rows → rows.length ≠ 1 → rows.getLast? = some row → later = rows.erase row ∧
    ∃ greatest, Row.Greatest greatest later ∧ outcome = .ok (.lastChanged greatest)
  inner : row ∈ rows → rows.length ≠ 1 → rows.getLast? ≠ some row → later = rows.erase row ∧
    outcome = .ok .unchanged

/-- A change of a set of rows. -/
inductive Change where
  | insert (row : Row)
  | remove (row : Row)
deriving DecidableEq, Repr

inductive Answer where
  | inserted (outcome : Except Fault Insertion)
  | removed (outcome : Except Fault Removal)

/-- What a change of a set answers, and the set afterwards. -/
inductive SetStep (index : Index) (id : PageId) (rows : List Row) :
    Change → Answer → List Row → Prop where
  | insert {row : Row} {outcome : Except Fault Insertion} {later : List Row}
      (inserts : SetInserts index id rows row outcome later) :
      SetStep index id rows (.insert row) (.inserted outcome) later
  | remove {row : Row} {outcome : Except Fault Removal} {later : List Row}
      (removes : SetRemoves id rows row outcome later) :
      SetStep index id rows (.remove row) (.removed outcome) later

/-- What changes of a set answer one after the other, and the set afterwards. -/
inductive SetRun (index : Index) (id : PageId) :
    List Row → List Change → List Answer → List Row → Prop where
  | done (rows : List Row) : SetRun index id rows [] [] rows
  | step {rows middle later : List Row} {change : Change} {changes : List Change} {answer : Answer}
      {answers : List Answer} (first : SetStep index id rows change answer middle)
      (rest : SetRun index id middle changes answers later) :
      SetRun index id rows (change :: changes) (answer :: answers) later

/-! ## The leaf -/

namespace Leaf

variable {index : Index} {leaf : Leaf} {entries : List RowEntry} {row : Row}

theorem conflicts_iff (standard : index.Standard) (rows : List Row) (row : Row) :
    Conflicts index rows row ↔ ∃ other ∈ rows, index.Refuses row other := by
  constructor
  · rintro (member | ⟨unique, known, other, member, same⟩)
    · exact ⟨row, member, standard.refuses_iff.mpr (.inl rfl)⟩
    · exact ⟨other, member, standard.refuses_iff.mpr (.inr ⟨unique, known, same⟩)⟩
  · rintro ⟨other, member, refuses⟩
    rcases standard.refuses_iff.mp refuses with rfl | ⟨unique, known, same⟩
    · exact .inl member
    · exact .inr ⟨unique, known, other, member, same⟩

theorem Holds.holding (holds : leaf.Holds index entries) :
    (leaf.holding entries).Holds index entries := by
  obtain ⟨n, decodes, _⟩ := holds.shows.loadRows
  exact holds.decodes decodes

/-- An insertion into a leaf is one into the set of its rows. -/
theorem Inserts.setInserts {outcome : Except Fault Insertion} {later : Leaf}
    (inserts : leaf.Inserts index entries row outcome later) (standard : index.Standard)
    (holds : leaf.Holds index entries) (unreserved : leaf.id ≠ .reserved) :
    ∃ changed, later.Holds index changed ∧ later.id = leaf.id ∧
      SetInserts index leaf.id (entries.map RowEntry.row) row outcome
        (changed.map RowEntry.row) := by
  cases inserts with
  | refused member refuses =>
    have conflicts := (conflicts_iff standard _ row).mpr ⟨_, member, refuses⟩
    refine ⟨entries, holds.holding, rfl, iff_of_true rfl conflicts, fun _ => rfl, ?_⟩
    intro free
    exact absurd conflicts free
  | full accepted short several =>
    have free : ¬ Conflicts index (entries.map RowEntry.row) row := by
      simpa [conflicts_iff standard] using accepted
    have inside : 0 < entries.length / 2 ∧ entries.length / 2 < entries.length := by omega
    refine ⟨entries, holds.holding, rfl, iff_of_false (by simp) free, fun _ => rfl, ?_⟩
    intro _
    exact .inr ⟨_, rfl, by simpa using inside, rfl⟩
  | placed accepted places =>
    have free : ¬ Conflicts index (entries.map RowEntry.row) row := by
      simpa [conflicts_iff standard] using accepted
    have gains := places.gains standard holds accepted
    rw [checkPageId_of_ne unreserved]
    refine ⟨_, gains.holds, gains.id, iff_of_false (by simp [Except.map]) free, ?_, ?_⟩
    · intro conflicts
      exact absurd conflicts free
    · intro _
      exact .inl ⟨rfl, gains.rows⟩

/-- A removal from a leaf is one from the set of its rows. -/
theorem Removes.setRemoves {outcome : Except Fault Removal} {later : Leaf}
    (removes : leaf.Removes index entries row outcome later) (holds : leaf.Holds index entries)
    (unreserved : leaf.id ≠ .reserved) :
    ∃ changed, later.Holds index changed ∧ later.id = leaf.id ∧
      SetRemoves leaf.id (entries.map RowEntry.row) row outcome (changed.map RowEntry.row) := by
  cases removes with
  | absent decodes absent =>
    refine ⟨entries, holds.decodes decodes, decodes.id, iff_of_true rfl absent, fun _ => rfl,
      ?_, ?_, ?_⟩
    · intro member
      exact absurd member absent
    · intro member
      exact absurd member absent
    · intro member
      exact absurd member absent
  | only decodes single =>
    subst single
    refine ⟨_, holds.decodes decodes, decodes.id, iff_of_false (by simp) (by simp), fun _ => rfl,
      fun _ _ => ⟨rfl, rfl⟩, ?_, ?_⟩
    · intro _ others
      exact absurd rfl others
    · intro _ others
      exact absurd rfl others
  | @taken before after entry split same several =>
    subst split
    subst same
    have loses := holds.loses
    have ascending := holds.ascending
    rw [List.map_append, List.map_cons] at ascending
    rw [checkPageId_of_ne unreserved]
    have member : entry.row ∈ (before ++ entry :: after).map RowEntry.row := by simp
    refine ⟨_, loses.holds, loses.id, iff_of_false (by simp [Except.map]) (not_not_intro member),
      fun absent => absurd member absent, ?_, ?_, ?_⟩
    · intro _ single
      rw [List.length_map] at single
      omega
    · intro _ _ last
      refine ⟨loses.rows, ?_⟩
      rw [List.map_append, List.map_cons] at last
      obtain rfl := List.map_eq_nil_iff.mp ((Row.getLast?_eq_iff ascending).mp last)
      rcases List.eq_nil_or_concat before with rfl | ⟨before, greatest, rfl⟩
      · simp at several
      · refine ⟨greatest.row, ?_, by simp [Removal.between, Except.map]⟩
        have sorted := Row.ascending_remove ascending
        rw [rows_removeBetween]
        simpa using Row.greatest_append (by simpa using sorted)
    · intro _ _ inner
      refine ⟨loses.rows, ?_⟩
      rw [List.map_append, List.map_cons] at inner
      rcases after with _ | ⟨next, after⟩
      · exact absurd ((Row.getLast?_eq_iff ascending).mpr rfl) inner
      · rfl

/-! ## Runs -/

/-- Makes a change. A refused change is an answer too. -/
def change (index : Index) (change : Change) (leaf : Leaf) (engine : Engine) :
    (Answer × Leaf) × Engine :=
  match change with
  | .insert row =>
    let ((outcome, leaf), engine) := (insert index row).on leaf engine
    ((.inserted outcome, leaf), engine)
  | .remove row =>
    let ((outcome, leaf), engine) := (remove index row).on leaf engine
    ((.removed outcome, leaf), engine)

/-- Makes changes one after the other. -/
def changes (index : Index) : List Change → Leaf → Engine → (List Answer × Leaf) × Engine
  | [], leaf, engine => (([], leaf), engine)
  | first :: rest, leaf, engine =>
    let ((answer, leaf), engine) := change index first leaf engine
    let ((answers, leaf), engine) := changes index rest leaf engine
    ((answer :: answers, leaf), engine)

theorem change_setStep (standard : index.Standard) (holds : leaf.Holds index entries)
    (unreserved : leaf.id ≠ .reserved) (first : Change) (engine : Engine) :
    ∃ answer later after changed, change index first leaf engine = ((answer, later), after) ∧
      later.Holds index changed ∧ later.id = leaf.id ∧
      SetStep index leaf.id (entries.map RowEntry.row) first answer (changed.map RowEntry.row) := by
  cases first with
  | insert row =>
    obtain ⟨outcome, later, after, run, _, inserts⟩ := insert_on standard holds row engine
    obtain ⟨changed, holds, id, inserts⟩ := inserts.setInserts standard holds unreserved
    exact ⟨_, later, after, changed, by rw [change, run], holds, id, .insert inserts⟩
  | remove row =>
    obtain ⟨outcome, later, after, run, _, removes⟩ := remove_on holds row engine
    obtain ⟨changed, holds, id, removes⟩ := removes.setRemoves holds unreserved
    exact ⟨_, later, after, changed, by rw [change, run], holds, id, .remove removes⟩

private theorem changes_setRun (standard : index.Standard) (holds : leaf.Holds index entries)
    (unreserved : leaf.id ≠ .reserved) (all : List Change) (engine : Engine) :
    ∃ answers later after changed, changes index all leaf engine = ((answers, later), after) ∧
      later.Holds index changed ∧ later.id = leaf.id ∧
      SetRun index leaf.id (entries.map RowEntry.row) all answers (changed.map RowEntry.row) := by
  -- The leaf after the first change is in order too, and it is on the same page.
  induction all generalizing leaf entries engine with
  | nil => exact ⟨[], leaf, engine, entries, rfl, holds, rfl, .done _⟩
  | cons first rest ih =>
    obtain ⟨answer, middle, between, changed, run, holds, same, step⟩ :=
      change_setStep standard holds unreserved first engine
    rw [← same] at unreserved
    obtain ⟨answers, later, after, changed, rerun, holds, id, steps⟩ :=
      ih holds unreserved between
    rw [same] at id steps
    exact ⟨_, later, after, changed, by rw [changes, run]; simp only [rerun], holds, id,
      .step step steps⟩

/-- Along every run of insertions and removals a leaf in order answers as the ordered set of its
rows does, and collecting its rows gives that set. -/
theorem changes_simulate_set (standard : index.Standard) (wellFormed : leaf.WellFormed index)
    (unreserved : leaf.id ≠ .reserved) :
    ∃ collected, leaf.Collects index collected ∧ ∀ (all : List Change) (engine : Engine),
      ∃ later, SetRun index leaf.id collected all (changes index all leaf engine).1.1 later ∧
        (changes index all leaf engine).1.2.Collects index later := by
  obtain ⟨entries, holds⟩ := wellFormed
  refine ⟨_, holds.shows.collects, ?_⟩
  intro all engine
  obtain ⟨answers, later, after, changed, run, holds, _, steps⟩ :=
    changes_setRun standard holds unreserved all engine
  rw [run]
  exact ⟨_, steps, holds.shows.collects⟩

/-- So does a leaf of a unique index with two rows. -/
theorem changes_simulate_set_unique :
    let index := Index.smallest ⟨true, true⟩ (fun _ => .error (.corruption .rowNotInTable))
    let leaf := ofRows index ⟨1⟩ none .full [⟨none, ⟨7⟩⟩, ⟨some [97], ⟨3⟩⟩]
    leaf.WellFormed index ∧
      ∃ collected, leaf.Collects index collected ∧ ∀ (all : List Change) (engine : Engine),
        ∃ later, SetRun index ⟨1⟩ collected all (changes index all leaf engine).1.1 later ∧
          (changes index all leaf engine).1.2.Collects index later := by
  intro index leaf
  have wellFormed : leaf.WellFormed index :=
    ⟨_, .ofRows ⟨1⟩ none .full (by cbv) (by decide) (by decide)⟩
  exact ⟨wellFormed, changes_simulate_set (Index.smallest_standard _ _) wellFormed (by decide)⟩

end Leaf

end SlottedLeaf
