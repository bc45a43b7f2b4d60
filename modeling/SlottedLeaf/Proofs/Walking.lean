import SlottedLeaf.Leaf.Walk
import SlottedLeaf.Proofs.WellFormed

/-!
# Where a find ends

A find looks for a bound among the rows of a leaf, which no row stops. It ends at the first row to
go back from, or goes on in the node above when there is none.
-/

namespace SlottedLeaf

/-- The row's key is below the key sought; with `past`, it may be that key. -/
def Row.precedes (target : Row) (past : Bool) (row : Row) : Bool :=
  if past then (row.compareKeys target).isLE else (row.compareKeys target).isLT

namespace Leaf

variable {σ : Type} {index : Index} {leaf : Leaf} {entries : List RowEntry}

/-- Where a search ends whose place on the leaf is `slot`. -/
def landing (leaf : Leaf) (slot : Nat) : Landing :=
  if slot < leaf.count then .here slot
  else match leaf.parent with
    | some node => .above node
    | none => .nowhere

theorem Decodes.landing {n : Nat} {later : Leaf} (decodes : leaf.Decodes index n later)
    (slot : Nat) : later.landing slot = leaf.landing slot := by
  rw [Leaf.landing, decodes.count, decodes.parent, Leaf.landing]

theorem turn_bound (index : Index) (target row : Row) (past : Bool) :
    (Aim.bound past).turn index target row =
      if target.precedes past row then .after else .before := by
  unfold Aim.turn Row.precedes
  cases row.compareKeys target <;> cases past <;> rfl

theorem seek_on (index : Index) (target : Row) (past : Bool) (leaf : Leaf) (engine : Engine) :
    (seek index target past).on leaf engine =
      match (search index (.bound past) target).on leaf engine with
      | ((.ok slot, leaf), engine) => ((.ok (leaf.landing slot), leaf), engine)
      | ((.error fault, leaf), engine) => ((.error fault, leaf), engine) := by
  rw [seek, LeafCall.on_bind]
  rcases (search index (.bound past) target).on leaf engine with ⟨⟨fault | slot, later⟩, after⟩
  · rfl
  · simp only [LeafCall.on_bind, LeafCall.on_get, landing]
    by_cases inside : slot < later.count
    · rw [if_pos inside, if_pos inside, LeafCall.on_pure]
    · rw [if_neg inside, if_neg inside]
      cases later.parent <;> rfl

/-- A search for a bound only looks at rows, and ends between those to go on from and those to go
back from. -/
theorem Shows.seek_looks {target : Row} {past : Bool} (shows : leaf.Shows index entries)
    (steers : Steers ((Aim.bound past).turn index target) entries) :
    ∃ before after, entries = before ++ after ∧
      (∀ entry ∈ before, (Aim.bound past).turn index target entry.row = .after) ∧
      (∀ entry ∈ after, (Aim.bound past).turn index target entry.row = .before) ∧
      (seek index target past).Looks index leaf (.ok (leaf.landing before.length)) := by
  obtain ⟨outcome, ⟨n, later, decodes, run⟩, finds⟩ :=
    search_looks (.bound past) target shows steers
  cases finds with
  | found _ stops =>
    rw [turn_bound] at stops
    split at stops <;> cases stops
  | clash _ stops =>
    rw [turn_bound] at stops
    split at stops <;> cases stops
  | @place before after split low high =>
    refine ⟨before, after, split, low, high, n, later, decodes, ?_⟩
    intro engine
    rw [seek_on, run, ← decodes.landing]

theorem seek_looks (target : Row) (past : Bool) (holds : leaf.Holds index entries) :
    ∃ before after, entries = before ++ after ∧
      (∀ entry ∈ before, (Aim.bound past).turn index target entry.row = .after) ∧
      (∀ entry ∈ after, (Aim.bound past).turn index target entry.row = .before) ∧
      (seek index target past).Looks index leaf (.ok (leaf.landing before.length)) :=
  holds.shows.seek_looks (.of_ascending holds.ascending)

theorem find_run (nodes : NodeLayer σ) (target : Row) (past : Bool) (walk : Cursor × σ)
    (leaf : Leaf) (engine : Engine) :
    (((find nodes index target past).run.run walk).run leaf).run engine =
      match (seek index target past).on leaf engine with
      | ((.ok landing, leaf), engine) =>
        (((landing.follow nodes leaf.id target past).run.run walk, leaf), engine)
      | ((.error fault, leaf), engine) => (((.error fault, walk), leaf), engine) := by
  unfold find LeafCall.on
  simp only [ExceptT.run_bind, StateT.run_bind, ExceptT.run_mk, StateT.run_lift]
  simp only [bind, pure, StateT.run]
  rcases ((seek index target past).run leaf) engine with ⟨⟨outcome, later⟩, after⟩
  cases outcome <;> rfl

/-- A cursor fails to move only if the node above the leaf says so. -/
theorem follow_landing {nodes : NodeLayer σ} {id : PageId} {target : Row} {past : Bool} {slot : Nat}
    {walk later : Cursor × σ} {outcome : Except Fault Unit} {fault : Fault}
    (followed : ((leaf.landing slot).follow nodes id target past).run.run walk = (outcome, later))
    (failed : outcome = .error fault) :
    ∃ node, leaf.parent = some node ∧
      ((nodes.find node target past).run.run walk).1 = .error fault := by
  subst failed
  unfold landing at followed
  split at followed
  · cases followed
  · cases above : leaf.parent with
    | none =>
      rw [above] at followed
      cases followed
    | some node =>
      rw [above] at followed
      exact ⟨node, rfl, congrArg Prod.fst followed⟩

end Leaf

end SlottedLeaf
