import SlottedLeaf.Proofs.OrderedSet
import SlottedLeaf.Proofs.Splitting
import Mathlib.Data.Nat.Log
import Mathlib.Algebra.Ring.Nat

/-!
# Inserting with splits

Who inserts into a full leaf splits it where it says, and tries again with the half where the row
belongs. Every split halves the number of rows, and a leaf with one row takes any other. So the row
is in after as many splits as the number of rows can be halved.
-/

namespace SlottedLeaf

open RowEntry

namespace LeafCall

/-- A call on a leaf, as a call that gives the leaf back. -/
def within {α : Type} (call : LeafCall α) (leaf : Leaf) : EngineCall (α × Leaf) :=
  ExceptT.mk do
    let (outcome, leaf) ← call.run.run leaf
    return outcome.map (·, leaf)

theorem within_on {α : Type} (call : LeafCall α) (leaf : Leaf) (engine : Engine) :
    (call.within leaf).on engine =
      match call.on leaf engine with
      | ((.ok value, leaf), engine) => (.ok (value, leaf), engine)
      | ((.error fault, _), engine) => (.error fault, engine) := by
  show (match (call.run.run leaf).run engine with
    | (pair, engine) => (pair.1.map (·, pair.2), engine)) = _
  simp only [on]
  rcases (call.run.run leaf).run engine with ⟨⟨outcome, leaf⟩, engine⟩
  cases outcome <;> rfl

end LeafCall

/-- The leaves among which an insertion with splits spreads the rows of a leaf, in order. -/
structure Spread where
  /-- The leaves with lower rows. -/
  before : List Leaf
  /-- The leaf that took the row. -/
  taker : Leaf
  /-- The leaves with higher rows. -/
  after : List Leaf

namespace Spread

def leaves (spread : Spread) : List Leaf := spread.before ++ spread.taker :: spread.after

/-- The leaves hold these rows and the new one, none of them is empty, all are in order and under
the same node, and but for the one that took the row they keep rows of the same form. -/
structure Completes (index : Index) (parent : Option PageId) (form : RowForm) (row : Row)
    (rows : List Row) (splits : Nat) (spread : Spread) : Prop where
  rows : ∃ parts, List.Forall₂ (Leaf.Collects index) spread.leaves parts ∧
    parts.flatten = Row.insertInOrder row rows ∧ [] ∉ parts
  takes : ∃ part, spread.taker.Collects index part ∧ row ∈ part
  wellFormed : ∀ each ∈ spread.leaves, each.WellFormed index
  parent : ∀ each ∈ spread.leaves, each.parent = parent
  form : ∀ each ∈ spread.before ++ spread.after, each.form = form
  few : spread.before.length + spread.after.length ≤ splits

namespace Completes

variable {index : Index} {other : Leaf} {parent : Option PageId} {form : RowForm} {row : Row}
  {rows others : List Row} {splits : Nat} {spread : Spread}

theorem append (completes : spread.Completes index parent form row rows splits)
    (same_parent : other.parent = parent) (same_form : other.form = form)
    (wellFormed : other.WellFormed index) (collects : other.Collects index others)
    (filled : others ≠ []) (high : ∀ each ∈ others, row.Below each) :
    Completes index parent form row (rows ++ others) (splits + 1)
      { spread with after := spread.after ++ [other] } := by
  obtain ⟨parts, shows, whole, others_filled⟩ := completes.rows
  have leaves : leaves { spread with after := spread.after ++ [other] } =
      spread.leaves ++ [other] := by simp [Spread.leaves]
  have few := completes.few
  refine ⟨⟨parts ++ [others], ?_, ?_, ?_⟩, completes.takes, ?_, ?_, ?_, ?_⟩
  · rw [leaves]
    exact List.rel_append shows (.cons collects .nil)
  · rw [Row.insertInOrder_append_right high, ← whole]
    simp
  · simpa [others_filled] using filled.symm
  · rw [leaves, List.forall_mem_append]
    exact ⟨completes.wellFormed, by simpa using wellFormed⟩
  · rw [leaves, List.forall_mem_append]
    exact ⟨completes.parent, by simpa using same_parent⟩
  · rw [← List.append_assoc, List.forall_mem_append]
    exact ⟨completes.form, by simpa using same_form⟩
  · show spread.before.length + (spread.after ++ [other]).length ≤ splits + 1
    rw [List.length_append, List.length_singleton]
    omega

theorem prepend (completes : spread.Completes index parent form row rows splits)
    (same_parent : other.parent = parent) (same_form : other.form = form)
    (wellFormed : other.WellFormed index) (collects : other.Collects index others)
    (filled : others ≠ []) (low : ∀ each ∈ others, each.Below row) :
    Completes index parent form row (others ++ rows) (splits + 1)
      { spread with before := other :: spread.before } := by
  obtain ⟨parts, shows, whole, others_filled⟩ := completes.rows
  have leaves : leaves { spread with before := other :: spread.before } =
      other :: spread.leaves := by simp [Spread.leaves]
  have few := completes.few
  refine ⟨⟨others :: parts, ?_, ?_, ?_⟩, completes.takes, ?_, ?_, ?_, ?_⟩
  · rw [leaves]
    exact .cons collects shows
  · rw [Row.insertInOrder_append_left low, ← whole, List.flatten_cons]
  · simpa [others_filled] using filled.symm
  · rw [leaves, List.forall_mem_cons]
    exact ⟨wellFormed, completes.wellFormed⟩
  · rw [leaves, List.forall_mem_cons]
    exact ⟨same_parent, completes.parent⟩
  · rw [List.cons_append, List.forall_mem_cons]
    exact ⟨same_form, completes.form⟩
  · show (other :: spread.before).length + spread.after.length ≤ splits + 1
    rw [List.length_cons]
    omega

end Completes

end Spread

namespace Leaf

/-- Inserts a row. Where the leaf asks for a split, splits it and goes on with the new leaf if the
row is not below its first row, else with the old one. Gives up after so many splits. -/
def insertSplitting (index : Index) (row : Row) : Nat → Leaf → EngineCall (Option Spread)
  | 0, leaf => do
    match ← (insert index row).within leaf with
    | (.inserted, leaf) => return some ⟨[], leaf, []⟩
    | (.splitAt _, _) => return none
  | splits + 1, leaf => do
    match ← (insert index row).within leaf with
    | (.inserted, leaf) => return some ⟨[], leaf, []⟩
    | (.splitAt point, leaf) =>
      let (right, leaf) ← (split index point).within leaf
      let (first, right) ← (Leaf.row index 0).within right
      if row.Below first then
        let spread ← insertSplitting index row splits leaf
        return spread.map fun spread => { spread with after := spread.after ++ [right] }
      else
        let spread ← insertSplitting index row splits right
        return spread.map fun spread => { spread with before := leaf :: spread.before }

variable {index : Index} {leaf : Leaf} {entries : List RowEntry} {row : Row}

/-- A leaf with a row more completes an insertion on its own. -/
private theorem Gains.completes {later : Leaf} {grown : List RowEntry}
    (gains : leaf.Gains index entries row later grown) (splits : Nat) :
    Spread.Completes index leaf.parent leaf.form row (entries.map RowEntry.row) splits
      ⟨[], later, []⟩ := by
  have member : row ∈ Row.insertInOrder row (entries.map RowEntry.row) := by
    simp [Row.insertInOrder]
  have collects := gains.holds.shows.collects
  rw [gains.rows] at collects
  refine ⟨⟨[_], .cons collects .nil, by simp, ?_⟩, ⟨_, collects, member⟩, ?_, ?_, by simp, by simp⟩
  · simp [Row.insertInOrder]
  · simpa [Spread.leaves] using ⟨_, gains.holds⟩
  · simpa [Spread.leaves] using gains.parent

/-- What a split in the middle makes of a leaf. The rows of the right leaf begin with `first`. -/
private structure Halves (index : Index) (leaf : Leaf) (entries lower : List RowEntry)
    (first : RowEntry) (upper : List RowEntry) (left right : Leaf) : Prop where
  stays : left.Holds index lower
  moves : right.Holds index (first :: upper)
  rows : entries.map RowEntry.row = lower.map RowEntry.row ++ (first :: upper).map RowEntry.row
  middle : lower.length = entries.length / 2
  kept : lower.map RowEntry.row ≠ []
  left_id : left.id = leaf.id
  right_id : right.id ≠ .reserved
  left_parent : left.parent = leaf.parent
  right_parent : right.parent = leaf.parent
  left_form : left.form = leaf.form
  right_form : right.form = leaf.form

namespace Halves

variable {lower upper : List RowEntry} {first : RowEntry} {left right : Leaf}

private theorem lengths (halves : Halves index leaf entries lower first upper left right) :
    lower.length + (first :: upper).length = entries.length := by
  simpa using (congrArg List.length halves.rows).symm

/-- A row below the first one of the right leaf is below all of them. -/
private theorem high (halves : Halves index leaf entries lower first upper left right)
    (below : row.Below first.row) :
    ∀ each ∈ (first :: upper).map RowEntry.row, row.Below each := by
  have ascending := halves.moves.ascending
  rw [List.map_cons] at ascending ⊢
  rw [List.forall_mem_cons]
  refine ⟨below, ?_⟩
  intro each member
  exact below.trans ((List.pairwise_cons.mp ascending).1 each member)

/-- A row above the first one of the right leaf is above those of the left leaf. -/
private theorem low (halves : Halves index leaf entries lower first upper left right)
    (holds : leaf.Holds index entries) (above : first.row.Below row) :
    ∀ each ∈ lower.map RowEntry.row, each.Below row := by
  have ascending := holds.ascending
  rw [halves.rows] at ascending
  obtain ⟨_, _, across⟩ := List.pairwise_append.mp ascending
  intro each member
  exact (across each member first.row List.mem_cons_self).trans above

end Halves

/-- A leaf with several rows is split in the middle, if the store has a page for the new leaf. -/
private theorem split_middle (standard : index.Standard) (holds : leaf.Holds index entries)
    (several : 1 < entries.length) {engine : Engine} (serves : engine.Serves index) :
    (pageIdLimit ≤ engine.store.nextPage ∧ ∃ later,
      (split index (entries.length / 2)).on leaf engine =
        ((.error (.invalid .pagesExhausted), leaf), later)) ∨
      ∃ lower first upper left right seen between later,
        (split index (entries.length / 2)).on leaf engine = ((.ok right, left), between) ∧
          (Leaf.row index 0).on right between = ((.ok first.row, seen), later) ∧
          engine.store.Grows 1 later.store ∧
          Halves index leaf entries lower first upper left seen := by
  obtain ⟨outcome, left, between, n, run, grows, splits⟩ :=
    split_on standard holds (entries.length / 2) serves
  cases splits with
  | refused outside => omega
  | exhausted _ full => exact .inl ⟨full, between, run⟩
  | @parted keep rest moved right whole cut kept filled _ parts =>
    refine .inr ?_
    rcases moved with _ | ⟨first, moved⟩
    · exact absurd (List.map_eq_nil_iff.mp parts.rows.symm) filled
    obtain ⟨n, seen, decodes, look⟩ :=
      parts.moves.shows.row (show (first :: moved)[0]? = some first from rfl)
    refine ⟨keep, first, moved, leaf.changed keep, right, seen, between,
      between.counted .rowsDecoded n, run, look between, grows, ?_⟩
    exact {
      stays := parts.stays
      moves := parts.moves.decodes decodes
      rows := by rw [parts.rows, ← whole, List.map_append]
      middle := cut
      kept := by simpa using kept
      left_id := rfl
      right_id := by
        rw [decodes.id]
        exact parts.unreserved
      left_parent := rfl
      right_parent := by
        rw [decodes.parent, parts.fresh]
        rfl
      left_form := rfl
      right_form := by
        rw [decodes.form, parts.fresh]
        rfl }

private theorem insertSplitting_of_inserted {later : Leaf} {engine after : Engine}
    (run : (insert index row).on leaf engine = ((.ok .inserted, later), after)) (splits : Nat) :
    (insertSplitting index row splits leaf).on engine = (.ok (some ⟨[], later, []⟩), after) := by
  cases splits with
  | zero =>
    rw [insertSplitting, EngineCall.on_bind, LeafCall.within_on, run]
    rfl
  | succ splits =>
    rw [insertSplitting, EngineCall.on_bind, LeafCall.within_on, run]
    rfl

/-- How the insertion of a row with at most so many splits ends on a leaf with these rows, over a
store that hands out `next` next. -/
inductive InsertsSplitting (index : Index) (parent : Option PageId) (form : RowForm) (row : Row)
    (rows : List Row) (splits next : Nat) : Except Fault (Option Spread) → Prop where
  | completed {spread : Spread}
      (completes : spread.Completes index parent form row rows splits) :
      InsertsSplitting index parent form row rows splits next (.ok (some spread))
  /-- There are fewer pages left than splits allowed. -/
  | exhausted (short : pageIdLimit < next + splits) :
      InsertsSplitting index parent form row rows splits next
        (.error (.invalid .pagesExhausted))

namespace InsertsSplitting

variable {other : Leaf} {parent : Option PageId} {form : RowForm} {rows others : List Row}
  {splits next : Nat} {outcome : Except Fault (Option Spread)}

/-- What an insertion into the left leaf of a split is for the leaf that was split. -/
private theorem append
    (inserts : InsertsSplitting index parent form row rows splits (next + 1) outcome)
    (same_parent : other.parent = parent) (same_form : other.form = form)
    (wellFormed : other.WellFormed index) (collects : other.Collects index others)
    (filled : others ≠ []) (high : ∀ each ∈ others, row.Below each) :
    InsertsSplitting index parent form row (rows ++ others) (splits + 1) next (outcome.map
      (Option.map fun spread => { spread with after := spread.after ++ [other] })) := by
  cases inserts with
  | completed completes =>
    exact .completed (completes.append same_parent same_form wellFormed collects filled high)
  | exhausted short => exact .exhausted (by omega)

/-- What an insertion into the right leaf of a split is for the leaf that was split. -/
private theorem prepend
    (inserts : InsertsSplitting index parent form row rows splits (next + 1) outcome)
    (same_parent : other.parent = parent) (same_form : other.form = form)
    (wellFormed : other.WellFormed index) (collects : other.Collects index others)
    (filled : others ≠ []) (low : ∀ each ∈ others, each.Below row) :
    InsertsSplitting index parent form row (others ++ rows) (splits + 1) next (outcome.map
      (Option.map fun spread => { spread with before := other :: spread.before })) := by
  cases inserts with
  | completed completes =>
    exact .completed (completes.prepend same_parent same_form wellFormed collects filled low)
  | exhausted short => exact .exhausted (by omega)

end InsertsSplitting

/-- With splits enough to halve the rows down to one, the insertion of a row that nothing refuses
completes, unless the store runs out of pages. -/
private theorem insertSplitting_on (standard : index.Standard) {splits : Nat}
    (holds : leaf.Holds index entries) (unreserved : leaf.id ≠ .reserved)
    (accepted : ∀ other ∈ entries.map RowEntry.row, ¬ index.Refuses row other)
    (small : entries.length ≤ 2 ^ splits) {engine : Engine} (serves : engine.Serves index) :
    InsertsSplitting index leaf.parent leaf.form row (entries.map RowEntry.row) splits
      engine.store.nextPage ((insertSplitting index row splits leaf).on engine).1 := by
  -- Each half has half the rows, and one split less is left for it.
  induction splits generalizing leaf entries engine with
  | zero =>
    obtain ⟨outcome, later, after, run, _, inserts⟩ := insert_on standard holds row engine
    cases inserts with
    | refused member refuses => exact absurd refuses (accepted _ member)
    | full _ _ several => omega
    | placed _ places =>
      rw [checkPageId_of_ne unreserved] at run
      rw [insertSplitting_of_inserted run 0]
      exact .completed ((places.gains standard holds accepted).completes 0)
  | succ splits ih =>
    obtain ⟨outcome, later, after, run, grows, inserts⟩ := insert_on standard holds row engine
    cases inserts with
    | refused member refuses => exact absurd refuses (accepted _ member)
    | placed _ places =>
      rw [checkPageId_of_ne unreserved] at run
      rw [insertSplitting_of_inserted run]
      exact .completed ((places.gains standard holds accepted).completes _)
    | full _ _ several =>
      have next : after.store.nextPage = engine.store.nextPage := grows.nextPage
      rw [insertSplitting, EngineCall.on_bind, LeafCall.within_on, run]
      simp only [EngineCall.on_bind, LeafCall.within_on]
      rcases split_middle standard holds.holding several (serves.grow grows) with
        ⟨full, _, failed⟩ | ⟨lower, first, upper, left, right, seen, between, last, parted, look,
          grown, halves⟩
      · rw [failed]
        exact .exhausted (by omega)
      have more : last.store.nextPage = engine.store.nextPage + 1 := by
        rw [grown.nextPage, next]
      have serves : last.Serves index := (serves.grow grows).grow grown
      have lengths := halves.lengths
      have middle := halves.middle
      rw [halves.rows] at accepted ⊢
      have accepted := List.forall_mem_append.mp accepted
      simp only [parted, look]
      by_cases below : row.Below first.row
      · have elsewhere : left.id ≠ .reserved := by
          rw [halves.left_id]
          exact unreserved
        have inserts := ih halves.stays elsewhere accepted.1 (by omega) serves
        rw [more, halves.left_parent, halves.left_form] at inserts
        rw [if_pos below, EngineCall.on_bind_pure]
        exact inserts.append halves.right_parent halves.right_form ⟨_, halves.moves⟩
          halves.moves.shows.collects (by simp) (halves.high below)
      · have above : first.row.Below row := by
          rcases Row.below_or_eq_or_below row first.row with lower | same | higher
          · exact absurd lower below
          · exact absurd (standard.refuses_iff.mpr (.inl same.symm))
              (accepted.2 _ List.mem_cons_self)
          · exact higher
        have inserts := ih halves.moves halves.right_id accepted.2 (by omega) serves
        rw [more, halves.right_parent, halves.right_form] at inserts
        rw [if_neg below, EngineCall.on_bind_pure]
        exact inserts.prepend halves.left_parent halves.left_form ⟨_, halves.stays⟩
          halves.stays.shows.collects halves.kept (halves.low holds.holding above)

/-- A leaf in order that asks for a split can be split where it says. Splitting and trying again
then puts the row in after at most as many splits as the rows can be halved. Only the store can
come in between, when it has no page left. -/
theorem insertSplitting_completes (standard : index.Standard) (wellFormed : leaf.WellFormed index)
    (unreserved : leaf.id ≠ .reserved) {collected : List Row}
    (collects : leaf.Collects index collected) {engine : Engine} (serves : engine.Serves index)
    {point : Nat}
    (signalled : ((insert index row).on leaf engine).1.1 = .ok (.splitAt point)) :
    (0 < point ∧ point < leaf.count) ∧
      (engine.store.nextPage < pageIdLimit → ∃ right,
        ((split index point).on ((insert index row).on leaf engine).1.2
          ((insert index row).on leaf engine).2).1.1 = .ok right) ∧
      InsertsSplitting index leaf.parent leaf.form row collected (Nat.clog 2 leaf.count)
        engine.store.nextPage
        ((insertSplitting index row (Nat.clog 2 leaf.count) leaf).on engine).1 := by
  obtain ⟨entries, holds⟩ := wellFormed
  obtain rfl := (holds.shows.collects).unique collects engine
  obtain ⟨outcome, later, after, run, grows, inserts⟩ := insert_on standard holds row engine
  have next : after.store.nextPage = engine.store.nextPage := grows.nextPage
  rw [run] at signalled
  rw [run, holds.shows.count]
  cases inserts with
  | refused _ _ => cases signalled
  | placed _ _ =>
    rw [checkPageId_of_ne unreserved] at signalled
    cases signalled
  | full accepted _ several =>
    cases signalled
    refine ⟨by omega, ?_, ?_⟩
    · intro room
      rcases split_middle standard holds.holding several (serves.grow grows) with
        ⟨full, _⟩ | ⟨_, _, _, _, right, _, _, _, parted, _⟩
      · omega
      · exact ⟨right, by rw [parted]⟩
    · exact insertSplitting_on standard holds unreserved accepted
        (Nat.le_pow_clog Nat.one_lt_two _) serves

/-- So does the insertion of a fifth row on a page of the smallest size. -/
theorem insertSplitting_completes_smallest :
    let index := Index.smallest .default (fun _ => .error (.corruption .rowNotInTable))
    let rows : List Row := [⟨none, ⟨1⟩⟩, ⟨none, ⟨2⟩⟩, ⟨none, ⟨4⟩⟩, ⟨none, ⟨5⟩⟩]
    let leaf := ofRows index ⟨1⟩ none .full rows
    ∃ spread,
      ((insertSplitting index ⟨none, ⟨3⟩⟩ (Nat.clog 2 4) leaf).on (.inMemory 64 1)).1 =
          .ok (some spread) ∧
        spread.Completes index none .full ⟨none, ⟨3⟩⟩ rows (Nat.clog 2 4) := by
  intro index rows leaf
  have standard : index.Standard := Index.smallest_standard _ _
  have holds : leaf.Holds index (RowEntry.pack (index.format.size .full) 64 rows) :=
    .ofRows ⟨1⟩ none .full (by cbv) (by decide) (by decide)
  have collects : leaf.Collects index rows := by
    simpa using holds.shows.collects
  have signalled : ((insert index ⟨none, ⟨3⟩⟩).on leaf (.inMemory 64 1)).1.1 =
      .ok (.splitAt 2) := by
    obtain ⟨outcome, later, after, run, _, inserts⟩ :=
      insert_on standard holds ⟨none, ⟨3⟩⟩ (.inMemory 64 1)
    have four : (RowEntry.pack (index.format.size .full) 64 rows).length = 4 := length_pack
    rw [run]
    cases inserts with
    | refused member refuses =>
      rw [rows_pack] at member
      rcases standard.refuses_iff.mp refuses with rfl | ⟨unique, _⟩
      · exact absurd member (by decide)
      · cases unique
    | full _ _ _ => rw [four]
    | placed _ places =>
      cases places with
      | fitted _ fits _ _ =>
        have short : leaf.fits index (index.format.size leaf.form ⟨none, ⟨3⟩⟩) = false := by cbv
        exact Bool.noConfusion (short.symm.trans fits)
      | compacted _ _ few _ _ => omega
  have halvings : Nat.clog 2 4 ≤ 2 := Nat.clog_le_of_le_pow (by decide)
  have count : leaf.count = 4 := by rw [holds.shows.count, length_pack]; rfl
  have serves : (Engine.inMemory 64 1).Serves index := Engine.inMemory_serves index 1
  have inserts := (insertSplitting_completes standard ⟨_, holds⟩ (by decide) collects serves
    signalled).2.2
  rw [count] at inserts
  have pages : (Engine.inMemory 64 1).store.nextPage + Nat.clog 2 4 ≤ pageIdLimit :=
    Nat.le_trans (Nat.add_le_add_left halvings 2) (by decide)
  generalize ((insertSplitting index ⟨none, ⟨3⟩⟩ (Nat.clog 2 4) leaf).on (.inMemory 64 1)).1 =
    outcome at inserts ⊢
  cases inserts with
  | completed completes => exact ⟨_, rfl, completes⟩
  | exhausted short => omega

end Leaf

end SlottedLeaf
