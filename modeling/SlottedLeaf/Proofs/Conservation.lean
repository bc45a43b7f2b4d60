import SlottedLeaf.Proofs.Ledger
import SlottedLeaf.Proofs.Refusals
import SlottedLeaf.Proofs.Tallies
import SlottedLeaf.Row.Table

/-!
# What counts add up to

Over every run at a bench the counts agree with the events, and rows inserted less rows removed with
what the leaves have gained. A call that declines, for a duplicate, a row that is not there, a leaf
with one row left or a leaf that has not changed, counts nothing but the rows that it decodes.
-/

namespace SlottedLeaf

open LeafCall

variable {σ α : Type} {index : Index} {leaf later : Leaf} {engine after : Engine}

/-! ## Calls that count nothing -/

namespace Leaf

/-- A duplicate is refused before anything is counted but decoded rows. -/
theorem insert_duplicate {row : Row} {page : PageId} {other : Row}
    (run : (insert index row).on leaf engine =
      ((.error (.duplicateKey page other), later), after)) :
    ∃ n, after.stats = engine.stats.add .rowsDecoded n := by
  have tries := insert_tries run
  generalize same : (Except.error (.duplicateKey page other) : Except Fault Insertion) = outcome
    at tries
  cases tries with
  | undecoded decodes _ => exact ⟨_, rfl⟩
  | refused decodes => exact ⟨_, rfl⟩
  | signalled _ _ _ => cases same
  | fitted _ _ places => exact absurd (same ▸ .duplicate page other) places.not_refused
  | stuck _ _ _ _ => cases same
  | crowded _ _ _ => cases same
  | compacted _ _ _ _ _ places => exact absurd (same ▸ .duplicate page other) places.not_refused

/-- The removals that change nothing: the row is the only one, or is not there. -/
inductive Removal.Declined : Except Fault Removal → Prop where
  | emptied (only : Row) : Declined (.ok (.emptied only))
  | notFound (page : PageId) (row : Row) : Declined (.error (.rowNotFound page row))

theorem remove_declined {target : Row} {outcome : Except Fault Removal}
    (run : (remove index target).on leaf engine = ((outcome, later), after))
    (declined : Removal.Declined outcome) : ∃ n, after.stats = engine.stats.add .rowsDecoded n := by
  have refused : Removal.Refused outcome := by
    cases declined with
    | emptied only => exact .only only
    | notFound page row => exact .absent page row
  obtain ⟨n, _, _, stats⟩ := (remove_drops run).of_refused refused
  exact ⟨n, stats⟩

end Leaf

namespace Bench

/-- What is done at a bench to no effect: a duplicate is inserted, the only row of a leaf or a row
that is not there is removed, or a leaf that has not changed is written. -/
inductive Declines (bench : Bench σ) : Chore → Except Fault Upshot → Prop where
  | duplicate (number : Nat) (row : Row) (page : PageId) (other : Row) :
      Declines bench (.handle number (.insert row)) (.error (.duplicateKey page other))
  | emptied (number : Nat) (target only : Row) :
      Declines bench (.handle number (.remove target)) (.ok (.gives (.removal (.emptied only))))
  | notFound (number : Nat) (target : Row) (page : PageId) (row : Row) :
      Declines bench (.handle number (.remove target)) (.error (.rowNotFound page row))
  | clean {number : Nat} {leaf : Leaf} (here : bench.leaves[number]? = some leaf)
      (clean : leaf.isDirty = false) (answer : Except Fault Upshot) :
      Declines bench (.handle number .write) answer

/-- What a call counts is what the bench counts, if the call is made. -/
theorem stats_of_handle {bench : Bench σ} {nodes : NodeLayer σ} {number : Nat} {deed : Deed}
    (call : LeafCall α) (wrap : α → Yield)
    (calls : deed.call index = call >>= fun value => pure (wrap value))
    {answer : Except Fault Upshot}
    (given : (bench.perform index nodes (.handle number deed)).1 = answer)
    (made : answer ≠ .ok .absent)
    (counts : ∀ leaf outcome later after,
      call.on leaf bench.engine = ((outcome, later), after) →
        (outcome.map wrap).map .gives = answer →
          ∃ n, after.stats = bench.engine.stats.add .rowsDecoded n) :
    ∃ n, (bench.perform index nodes (.handle number deed)).2.engine.stats =
      bench.engine.stats.add .rowsDecoded n := by
  cases here : bench.leaves[number]? with
  | none =>
    rw [perform, withLeaf, here] at given
    exact absurd given.symm made
  | some leaf =>
    rcases run : call.on leaf bench.engine with ⟨⟨outcome, later⟩, after⟩
    rw [perform_handle here calls run] at given ⊢
    exact counts leaf outcome later after run given

/-- Nothing is counted then but decoded rows. -/
theorem Declines.stats {bench : Bench σ} {nodes : NodeLayer σ} {chore : Chore}
    (declines : bench.Declines chore (bench.perform index nodes chore).1) :
    ∃ n, (bench.perform index nodes chore).2.engine.stats =
      bench.engine.stats.add .rowsDecoded n := by
  generalize given : (bench.perform index nodes chore).1 = answer at declines
  cases declines with
  | duplicate number row page other =>
    refine stats_of_handle (Leaf.insert index row) .insertion rfl given nofun ?_
    rintro leaf (fault | result) later after run ⟨⟩
    exact Leaf.insert_duplicate run
  | emptied number target only =>
    refine stats_of_handle (Leaf.remove index target) .removal rfl given nofun ?_
    rintro leaf (fault | result) later after run ⟨⟩
    exact Leaf.remove_declined run (.emptied only)
  | notFound number target page row =>
    refine stats_of_handle (Leaf.remove index target) .removal rfl given nofun ?_
    rintro leaf (fault | result) later after run ⟨⟩
    exact Leaf.remove_declined run (.notFound page row)
  | @clean number leaf here clean answer =>
    have run : (Leaf.write index).on leaf bench.engine = ((.ok (), leaf), bench.engine) := by
      rw [Leaf.write, on_get_bind, if_neg (by simp [clean])]
      rfl
    rw [perform_handle here rfl run]
    exact ⟨0, (congrArg Engine.stats (Engine.counted_zero bench.engine .rowsDecoded)).symm⟩

/-! ## Every run -/

/-- Over whatever leaves, whatever is done with them and whatever rows are looked up to meanwhile,
every count is the number of events of its message. As long as nothing breaks down and a split fails
for its split point alone, rows inserted less rows removed are what the leaves have gained since
they were opened. Duplicates, removals that change nothing and writes of leaves that have not
changed are not counted. -/
theorem counts_conserved (index : Index) (nodes : NodeLayer σ) (store : Store) (walk : Cursor × σ)
    (jobs : List Job) :
    let bench := empty (.start store) walk
    let later := bench.after index nodes jobs
    (∀ counter name, counter.message? = some name →
        later.engine.stats.get counter =
          later.engine.events.countP fun event => event.message = name) ∧
      ((∀ step ∈ bench.history index nodes jobs, step.1.isSound step.2) →
        later.leaves.length = (bench.openings index nodes jobs).length ∧
          (later.engine.stats.rowsInserted : Int) - later.engine.stats.rowsRemoved =
            (List.zipWith (fun (leaf : Leaf) (count : Nat) => (leaf.count : Int) - count)
              later.leaves (bench.openings index nodes jobs)).sum) ∧
      ∀ job : Job, later.Declines job.chore (later.work index nodes job).1 →
        ∀ counter name, counter.message? = some name →
          (later.work index nodes job).2.engine.stats.get counter =
            later.engine.stats.get counter := by
  intro bench later
  refine ⟨after_tallies index nodes jobs (Engine.tallies_start store), ?_, ?_⟩
  · intro sound
    have start : bench.Accounts [] := ⟨rfl, rfl⟩
    have accounts := start.run nodes sound
    rw [List.nil_append] at accounts
    exact ⟨accounts.length, accounts.sum_gained⟩
  · intro job declines counter name named
    obtain ⟨n, stats⟩ := Declines.stats declines
    have other : counter ≠ .rowsDecoded := by
      rintro rfl
      cases named
    rw [work, stats, Stats.get_add, if_neg other, Nat.add_zero]

/-- A chore, done while the table has these rows. -/
def listing (rows : List Row) (chore : Chore) : Job := ⟨(RowTable.ofList rows).resolve, chore⟩

/-- A leaf gets three rows, each once the table has it. It is split where it may not be and where it
may, and loses a row, which leaves the table then. One image is no page of the index; another is
read, and a row that the leaf has is not put on it again. -/
def tallied : List Job :=
  let first : Row := ⟨some [97], ⟨1⟩⟩
  let second : Row := ⟨some [98], ⟨2⟩⟩
  let third : Row := ⟨some [99], ⟨3⟩⟩
  [listing [] .createRoot, listing [first] (.handle 0 (.insert first)),
    listing [first, second] (.handle 0 (.insert second))] ++
  [.handle 0 (.insert third), .handle 0 (.split 3), .handle 0 (.split 2),
    .handle 0 (.remove first)].map (listing [first, second, third]) ++
  [.handle 1 (.insert third), .handle 0 .write, .read ⟨9⟩ #[], .load ⟨1⟩].map
    (listing [second, third])

/-- Two rows are left of the three: two are on the first leaf once it is split, and one of these is
removed; the leaf that was split off has the third; and the leaf that is loaded brings its row. -/
theorem counts_conserved_tallied :
    let bench : Bench Unit := empty (.start (.memory ⟨64, 0, [], .empty, 0, 0⟩)) (.off, ())
    let later := bench.after .plain .idle tallied
    let again : Job := listing [] (.handle 1 (.insert ⟨some [99], ⟨3⟩⟩))
    (∀ step ∈ bench.history .plain .idle tallied, step.1.isSound step.2) ∧
      bench.openings .plain .idle tallied = [0, 0, 1] ∧ later.leaves.map Leaf.count = [1, 1, 1] ∧
      (later.engine.stats.rowsInserted : Int) - later.engine.stats.rowsRemoved = 2 ∧
      later.engine.stats.rowsInserted =
        later.engine.events.countP (fun event => event.message = "btree.leaf.insert") ∧
      later.Declines again.chore (later.work .plain .idle again).1 ∧
      (later.work .plain .idle again).2.engine.stats.rowsInserted =
        later.engine.stats.rowsInserted := by
  dsimp only
  have sound : ∀ step ∈ (empty (.start (.memory ⟨64, 0, [], .empty, 0, 0⟩)) (.off, ()) :
      Bench Unit).history .plain .idle tallied, step.1.isSound step.2 = true := by
    decide +kernel
  have refused : (((empty (.start (.memory ⟨64, 0, [], .empty, 0, 0⟩)) (.off, ()) :
      Bench Unit).after .plain .idle tallied).work .plain .idle
        (listing [] (.handle 1 (.insert ⟨some [99], ⟨3⟩⟩)))).1 =
          .error (.duplicateKey ⟨2⟩ ⟨some [99], ⟨3⟩⟩) := by
    decide +kernel
  obtain ⟨agree, conserve, still⟩ :=
    counts_conserved .plain .idle (.memory ⟨64, 0, [], .empty, 0, 0⟩) (.off, ()) tallied
  obtain ⟨-, net⟩ := conserve sound
  have inserts := agree .rowsInserted _ rfl
  refine ⟨sound, by decide +kernel, by decide +kernel, ?net, inserts, ?declines,
    still _ ?declines .rowsInserted _ rfl⟩
  case net =>
    rw [net]
    decide +kernel
  case declines =>
    rw [refused]
    exact .duplicate 1 _ _ _

end Bench

end SlottedLeaf
