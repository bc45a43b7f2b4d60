import SlottedLeaf.Proofs.Balances
import SlottedLeaf.Proofs.Benches
import Mathlib.Algebra.Ring.Int.Defs

/-!
# The ledger of a bench

A leaf brings the slots that it is opened with, and those are not counted. What is counted since,
rows inserted less rows removed, is what the leaves of the bench have gained beyond them, as long as
nothing breaks down and a split fails for its split point alone.
-/

namespace SlottedLeaf

open LeafCall

variable {σ α : Type} {index : Index} {leaf later : Leaf} {engine after : Engine}

/-! ## What is opened, and what breaks down -/

/-- What a deed gives does not break the balance: it did not break down, and a split was done or its
split point was refused. -/
def Deed.isSound (deed : Deed) : Except Fault α → Bool
  | .ok _ => true
  | .error fault =>
    match deed with
    | .split _ => fault = .invalid .splitPoint
    | _ => !fault.isGrave

def Chore.isSound (chore : Chore) (answer : Except Fault Upshot) : Bool :=
  match chore with
  | .handle _ deed => deed.isSound answer
  | _ => true

/-- The numbers of slots that leaves have when a chore opens them. A leaf that is split off is
opened without rows, and then rows are moved to it. -/
def Upshot.openings : Except Fault Upshot → List Nat
  | .ok (.opened leaf) => [leaf.count]
  | .ok (.gives (.right _)) => [0]
  | _ => []

/-- The slots on some leaves. -/
def Leaf.total (leaves : List Leaf) : Int := (leaves.map fun leaf => (leaf.count : Int)).sum

theorem Leaf.total_append (first second : List Leaf) :
    total (first ++ second) = total first + total second := by
  simp [total]

theorem Leaf.total_set {leaves : List Leaf} {number : Nat} (here : leaves[number]? = some leaf)
    (later : Leaf) : total (leaves.set number later) = total leaves - leaf.count + later.count := by
  induction leaves generalizing number with
  | nil => simp at here
  | cons first rest ih =>
    cases number with
    | zero =>
      simp only [List.getElem?_cons_zero, Option.some.injEq] at here
      simp only [total, List.set_cons_zero, List.map_cons, List.sum_cons, here]
      omega
    | succ number =>
      have more := ih (by simpa using here)
      simp only [total, List.set_cons_succ, List.map_cons, List.sum_cons] at more ⊢
      omega

theorem Deed.call_balanced {deed : Deed} (whole : ∀ point, deed ≠ .split point) :
    (deed.call index).Balanced := by
  cases deed with
  | insert row => exact (Leaf.insert_balanced index row).bind fun _ => balanced_pure _
  | remove row => exact (Leaf.remove_balanced index row).bind fun _ => balanced_pure _
  | split point => exact absurd rfl (whole point)
  | setParent parent => exact (Leaf.setParent_balanced parent).bind fun _ => balanced_pure _
  | row slot => exact (Leaf.row_peeks index slot).balanced.bind fun _ => balanced_pure _
  | rows => exact (Leaf.rows_peeks index).balanced.bind fun _ => balanced_pure _
  | write => exact (Leaf.write_balanced index).bind fun _ => balanced_pure _

theorem Deed.net {deed : Deed} {outcome : Except Fault Yield}
    (run : (deed.call index).on leaf engine = ((outcome, later), after))
    (sound : deed.isSound outcome) :
    after.net - engine.net = later.count - leaf.count + Leaf.total (Bench.opened outcome) := by
  by_cases whole : ∀ point, deed ≠ .split point
  · have mild : ∀ fault, outcome = .error fault → fault.isGrave = false := by
      rintro fault rfl
      cases deed with
      | split point => exact absurd rfl (whole point)
      | _ => simpa [isSound] using sound
    rw [(deed.call_balanced whole).ended run mild, Bench.opened_eq_nil whole run]
    exact (Int.add_zero _).symm
  obtain ⟨point, rfl⟩ := Classical.not_forall_not.mp whole
  rw [call, on_bind] at run
  rcases splits : (Leaf.split index point).on leaf engine with ⟨⟨fault | right, left⟩, between⟩ <;>
    rw [splits] at run
  · cases run
    obtain rfl : fault = .invalid .splitPoint := of_decide_eq_true sound
    obtain ⟨net, count⟩ := (Leaf.split_divides splits).net.2 rfl
    rw [net, count]
    simp [Bench.opened, Leaf.total]
  · cases run
    rw [(Leaf.split_divides splits).net.1 right rfl]
    simp [Bench.opened, Leaf.total]

namespace Bench

theorem createRoot_net (index : Index) (engine : Engine) :
    ((Leaf.createRoot index).on engine).2.net = engine.net := by
  have allocates := Engine.net_of_stats engine.allocatePage_stats
  rw [Leaf.createRoot_on]
  rcases run : Engine.allocatePage.on engine with ⟨fault | page, middle⟩ <;> rw [run] at allocates
  · exact allocates
  · rcases writes : (Leaf.write index).on (.create index page none .full) middle with
      ⟨⟨outcome, leaf⟩, after⟩
    simp only [writes]
    exact (Leaf.write_still writes).2.trans allocates

/-- What is counted is what the leaves have gained since they were opened with these numbers of
slots. -/
structure Accounts (bench : Bench σ) (counts : List Nat) : Prop where
  length : bench.leaves.length = counts.length
  net : bench.engine.net = Leaf.total bench.leaves - (counts.map Int.ofNat).sum

variable {bench : Bench σ} {counts : List Nat}

/-- Where nothing is opened and no slot comes or goes, nothing is to be counted. -/
theorem Accounts.still (accounts : bench.Accounts counts) {later : Bench σ}
    (length : later.leaves.length = bench.leaves.length)
    (total : Leaf.total later.leaves = Leaf.total bench.leaves)
    (net : later.engine.net = bench.engine.net) : later.Accounts (counts ++ []) := by
  rw [List.append_nil]
  refine ⟨length.trans accounts.length, ?_⟩
  rw [net, total]
  exact accounts.net

/-- A leaf that is put on the bench brings the slots that it is opened with. -/
theorem Accounts.take (accounts : bench.Accounts counts) {call : EngineCall Leaf}
    (still : (call.on bench.engine).2.net = bench.engine.net) :
    (bench.take call).2.Accounts (counts ++ Upshot.openings (bench.take call).1) := by
  rw [Bench.take]
  rcases run : call.on bench.engine with ⟨fault | leaf, engine⟩ <;> rw [run] at still
  · exact accounts.still rfl rfl still
  · have net : engine.net = bench.engine.net := still
    refine ⟨?_, ?_⟩
    · show (bench.leaves ++ [leaf]).length = (counts ++ [leaf.count]).length
      rw [List.length_append, List.length_append, accounts.length]
      rfl
    · show engine.net = Leaf.total (bench.leaves ++ [leaf]) -
        ((counts ++ [leaf.count]).map Int.ofNat).sum
      have one : Leaf.total [leaf] = ([leaf.count].map Int.ofNat).sum := rfl
      rw [net, accounts.net, Leaf.total_append, List.map_append, List.sum_append, one]
      omega

/-- A leaf that a deed opens is one that was split off, and it is opened without rows. -/
theorem openings_gives (outcome : Except Fault Yield) :
    Upshot.openings (outcome.map .gives) = (opened outcome).map fun _ => 0 := by
  rcases outcome with fault | (_ | _ | _ | _ | _ | right) <;> rfl

theorem Accounts.handle (accounts : bench.Accounts counts) {number : Nat} {leaf : Leaf}
    (here : bench.leaves[number]? = some leaf) {deed : Deed}
    (sound : deed.isSound (bench.handle index number leaf deed).1) :
    (bench.handle index number leaf deed).2.Accounts
      (counts ++ Upshot.openings (bench.handle index number leaf deed).1) := by
  unfold Bench.handle at sound ⊢
  rcases run : (deed.call index).on leaf bench.engine with ⟨⟨outcome, later⟩, after⟩
  rw [run] at sound
  have net := deed.net run (by cases outcome <;> exact sound)
  show Accounts ⟨bench.leaves.set number later ++ opened outcome, after, bench.walk⟩
    (counts ++ Upshot.openings (outcome.map .gives))
  rw [openings_gives]
  have none : (((opened outcome).map fun _ => 0).map Int.ofNat).sum = 0 := by
    simp
  refine ⟨?_, ?_⟩
  · simp [accounts.length]
  · have before := accounts.net
    rw [Leaf.total_append, Leaf.total_set here, List.map_append, List.sum_append, none]
    show after.net = _
    omega

/-- Rows that are looked at stay on their leaf. -/
theorem Accounts.find (accounts : bench.Accounts counts) (nodes : NodeLayer σ) {number : Nat}
    {leaf : Leaf} (here : bench.leaves[number]? = some leaf) (target : Row) (past : Bool) :
    (bench.find index nodes number leaf target past).2.Accounts (counts ++
      Upshot.openings (bench.find index nodes number leaf target past).1) := by
  have looks := Leaf.seek_peeks index target past
  rw [find_eq]
  rcases run : (Leaf.seek index target past).on leaf bench.engine with
    ⟨⟨fault | landing, later⟩, after⟩
  · obtain ⟨n, decodes, rfl⟩ := looks.ended run
    refine accounts.still (List.length_set ..) ?_ rfl
    rw [Leaf.total_set here, decodes.count]
    omega
  · obtain ⟨n, decodes, rfl⟩ := looks.ended run
    have total : Leaf.total (bench.leaves.set number later) = Leaf.total bench.leaves := by
      rw [Leaf.total_set here, decodes.count]
      omega
    simp only
    rcases (landing.follow nodes later.id target past).run.run bench.walk with ⟨_ | _, walk⟩
    · exact accounts.still (List.length_set ..) total rfl
    · exact accounts.still (List.length_set ..) total rfl

theorem Accounts.perform (accounts : bench.Accounts counts) (nodes : NodeLayer σ) (chore : Chore)
    (sound : chore.isSound (bench.perform index nodes chore).1) :
    (bench.perform index nodes chore).2.Accounts
      (counts ++ Upshot.openings (bench.perform index nodes chore).1) := by
  cases chore with
  | ask call =>
    have net := Engine.net_of_stats (Engine.ask_stats call bench.engine)
    rw [Bench.perform]
    rcases run : (Engine.ask call).on bench.engine with ⟨_ | _, engine⟩ <;> rw [run] at net
    · exact accounts.still rfl rfl net
    · exact accounts.still rfl rfl net
  | create page parent form => exact accounts.take rfl
  | createRoot => exact accounts.take (createRoot_net index _)
  | read page image =>
    obtain ⟨n, stats⟩ := Leaf.read_stats index page image bench.engine
    exact accounts.take (Engine.net_of_read stats)
  | load page =>
    obtain ⟨n, stats⟩ := Leaf.load_stats index page bench.engine
    exact accounts.take (Engine.net_of_read stats)
  | handle number deed =>
    rw [Bench.perform, withLeaf] at sound ⊢
    cases here : bench.leaves[number]? with
    | none => exact accounts.still rfl rfl rfl
    | some leaf =>
      rw [here] at sound
      exact accounts.handle here sound
  | find number target past =>
    rw [Bench.perform, withLeaf]
    cases here : bench.leaves[number]? with
    | none => exact accounts.still rfl rfl rfl
    | some leaf => exact accounts.find nodes here target past
  | turn number course =>
    rw [Bench.perform, withLeaf]
    cases here : bench.leaves[number]? with
    | none => exact accounts.still rfl rfl rfl
    | some leaf =>
      simp only [turn]
      rcases (course.follow nodes leaf).run.run bench.walk with ⟨_ | _, walk⟩
      · exact accounts.still rfl rfl rfl
      · exact accounts.still rfl rfl rfl

/-- The numbers of slots that leaves are opened with while jobs are done. -/
def openings (index : Index) (nodes : NodeLayer σ) (bench : Bench σ) (jobs : List Job) :
    List Nat :=
  (bench.history index nodes jobs).flatMap fun step => Upshot.openings step.2

theorem Accounts.run (accounts : bench.Accounts counts) (nodes : NodeLayer σ) {jobs : List Job}
    (sound : ∀ step ∈ bench.history index nodes jobs, step.1.isSound step.2) :
    (bench.after index nodes jobs).Accounts (counts ++ bench.openings index nodes jobs) := by
  induction jobs generalizing bench counts with
  | nil => exact accounts.still rfl rfl rfl
  | cons job rest ih =>
    rw [history_cons, List.forall_mem_cons] at sound
    have first : (bench.work index nodes job).2.Accounts
        (counts ++ Upshot.openings (bench.work index nodes job).1) :=
      accounts.perform nodes job.chore sound.1
    have others := ih first sound.2
    rw [List.append_assoc] at others
    exact others

/-- The slots that each leaf has gained since it was opened, summed up. -/
theorem Accounts.sum_gained (accounts : bench.Accounts counts) :
    bench.engine.net = (List.zipWith (fun (leaf : Leaf) (count : Nat) => (leaf.count : Int) - count)
      bench.leaves counts).sum := by
  have split : ∀ {leaves : List Leaf} {counts : List Nat}, leaves.length = counts.length →
      Leaf.total leaves - (counts.map Int.ofNat).sum =
        (List.zipWith (fun (leaf : Leaf) (count : Nat) => (leaf.count : Int) - count)
          leaves counts).sum := by
    intro leaves counts same
    induction leaves generalizing counts with
    | nil =>
      obtain rfl := List.eq_nil_of_length_eq_zero same.symm
      rfl
    | cons leaf rest ih =>
      cases counts with
      | nil => cases same
      | cons count others =>
        have more := ih (Nat.succ.inj same)
        simp only [Leaf.total, List.map_cons, List.sum_cons, List.zipWith_cons_cons,
          Int.ofNat_eq_natCast] at more ⊢
        omega
  rw [accounts.net, split accounts.length]

end Bench

end SlottedLeaf
