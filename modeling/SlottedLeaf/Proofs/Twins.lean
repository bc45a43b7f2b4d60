import SlottedLeaf.Proofs.Histories
import SlottedLeaf.Row.Table

/-!
# Images and histories

However two leaves came about, with calls that failed, reloads and changes of the table in between:
if they have the same rows, in the same form and under the same parent, their images are the same.
Rows that fit a page are all put in, and so make the same image in any order.
-/

namespace SlottedLeaf

open RowEntry

variable {σ τ : Type} {index other : Index}

/-! ## Rows that fit -/

/-- The rows fit a page of the index together, and none of them keeps another out. -/
structure Fitting (index : Index) (form : RowForm) (rows : List Row) : Prop where
  room : headerLength + entryLength * rows.length + RowEntry.room (index.format.size form) rows ≤
    index.pageSize
  distinct : rows.Nodup
  differ : index.options.unique → Row.KeysDiffer rows

namespace Fitting

variable {form : RowForm} {rows others held rest : List Row} {row : Row}

/-- In what order the rows come does not matter. -/
theorem perm (fitting : Fitting index form rows) (same : others.Perm rows) :
    Fitting index form others where
  room := by
    have sum := (same.map (index.format.size form)).sum_nat
    rw [same.length_eq, RowEntry.room, sum]
    exact fitting.room
  distinct := same.nodup_iff.mpr fitting.distinct
  differ unique := by
    refine (same.pairwise_iff ?_).mpr (fitting.differ unique)
    intro a b null equal
    exact equal.trans (null equal.symm)

/-- No row that is held already refuses the next. -/
theorem accepted (fitting : Fitting index form (held ++ row :: rest)) (standard : index.Standard) :
    ∀ other ∈ held, ¬ index.Refuses row other := by
  intro other member refuses
  rcases standard.refuses_iff.mp refuses with same | ⟨unique, known, same⟩
  · have apart := (List.nodup_append.mp fitting.distinct).2.2
    exact apart other member row List.mem_cons_self same
  · have differ := (List.pairwise_append.mp (fitting.differ unique)).2.2
    exact known (same.symm.trans (differ other member row List.mem_cons_self same))

/-- There is room for the next row on a leaf without gaps. -/
theorem fits {leaf : Leaf} {entries : List RowEntry} (canonical : leaf.Canonical index entries)
    (fitting : Fitting index leaf.form (entries.map RowEntry.row ++ row :: rest)) :
    leaf.fits index (index.format.size leaf.form row) := by
  have room := fitting.room
  have used := Packed.room_eq canonical.packed
  rw [canonical.shows.fits_iff, canonical.shows.start]
  simp only [RowEntry.room, List.map_append, List.sum_append, List.map_cons, List.sum_cons,
    List.length_append, List.length_map, List.length_cons, entryLength] at room used ⊢
  omega

end Fitting

/-- The tasks that make a new leaf of these rows, put in in this order. -/
def Task.filling (page : PageId) (parent : Option PageId) (form : RowForm) (rows : List Row) :
    List Task :=
  .create page parent form :: rows.map (.insert page)

namespace Shelf

variable {shelf : Shelf σ} {leaf : Leaf} {entries : List RowEntry}

/-- Rows that fit are all put in. -/
theorem after_inserts (standard : index.Standard) (nodes : NodeLayer σ)
    (here : shelf.leaves leaf.id = some leaf) (canonical : leaf.Canonical index entries)
    {rows : List Row} (fitting : Fitting index leaf.form (entries.map RowEntry.row ++ rows)) :
    ∃ later grown,
      (shelf.after index nodes (rows.map (.insert leaf.id))).leaves leaf.id = some later ∧
      later.Canonical index grown ∧ later.form = leaf.form ∧ later.parent = leaf.parent ∧
      (grown.map RowEntry.row).Perm (entries.map RowEntry.row ++ rows) := by
  -- A row goes over from those that fit to those that are held, which stays a permutation.
  induction rows generalizing shelf leaf entries with
  | nil => exact ⟨leaf, entries, here, canonical, rfl, rfl, by simp⟩
  | cons row rest ih =>
    obtain ⟨outcome, middle, engine, grown, run, settled, id, parent, form, moved⟩ :=
      canonical.insert_fitting standard (fitting.fits canonical) (fitting.accepted standard)
        shelf.engine
    have all : (grown.map RowEntry.row ++ rest).Perm (entries.map RowEntry.row ++ row :: rest) :=
      (moved.append_right rest).trans List.perm_middle.symm
    have next := fitting.perm all
    rw [← form] at next
    have placed : ({ shelf with engine }.put middle).leaves middle.id = some middle := by
      rw [leaves_put, if_pos rfl]
    obtain ⟨later, last, found, kept, sameForm, sameParent, rows⟩ := ih placed settled next
    refine ⟨later, last, ?_, kept, sameForm.trans form, sameParent.trans parent, rows.trans all⟩
    rw [id] at found
    simp only [List.map_cons, after, perform, withLeaf, here, Shelf.run, run]
    exact found

theorem after_filling (standard : index.Standard) (nodes : NodeLayer σ) (shelf : Shelf σ)
    (page : PageId) (parent : Option PageId) {form : RowForm} {rows : List Row}
    (fitting : Fitting index form rows) :
    ∃ leaf entries, (shelf.after index nodes (Task.filling page parent form rows)).leaves page =
        some leaf ∧
      leaf.Canonical index entries ∧ leaf.form = form ∧ leaf.parent = parent ∧
      (entries.map RowEntry.row).Perm rows := by
  have placed : (shelf.put (Leaf.create index page parent form)).leaves page =
      some (Leaf.create index page parent form) := by
    rw [leaves_put]
    exact if_pos rfl
  exact after_inserts standard nodes placed (.create standard page parent form) fitting

/-- Leaves that have the same rows, in the same form and under the same parent, have the same
image, whatever was done to get there, and in indexes that may differ in all but the table and the
page size. So rows that fit a page make the same image in any order. -/
theorem same_rows_same_image (standard : index.Standard) (otherStandard : other.Standard)
    (sized : other.pageSize = index.pageSize) (stamped : other.table = index.table) :
    (∀ (first : Shelf σ) (second : Shelf τ) page otherPage leaf twin, first.Made index →
      second.Made other → first.leaves page = some leaf → second.leaves otherPage = some twin →
      ∃ rows others, leaf.Collects index rows ∧ twin.Collects other others ∧
        (twin.form = leaf.form → twin.parent = leaf.parent →
          (∀ row, row ∈ others ↔ row ∈ rows) → Leaf.Twins index other leaf twin)) ∧
    ∀ (first : Shelf σ) (second : Shelf τ) nodes otherNodes page otherPage parent form rows others,
      Fitting index form rows → Fitting other form rows → List.Perm others rows →
      ∃ leaf twin collected,
        (first.after index nodes (Task.filling page parent form rows)).leaves page = some leaf ∧
        (second.after other otherNodes (Task.filling otherPage parent form others)).leaves
          otherPage = some twin ∧
        leaf.form = form ∧ leaf.parent = parent ∧ leaf.Collects index collected ∧
        collected.Perm rows ∧ Leaf.Twins index other leaf twin := by
  constructor
  · intro first second page otherPage leaf twin made otherMade here there
    obtain ⟨entries, canonical⟩ := made.canonical standard here
    obtain ⟨others, otherCanonical⟩ := otherMade.canonical otherStandard there
    refine ⟨_, _, canonical.shows.collects, otherCanonical.shows.collects, ?_⟩
    intro form parent same
    exact canonical.twins standard otherCanonical otherStandard sized stamped form parent same
  · intro first second nodes otherNodes page otherPage parent form rows others fitting
      otherFitting same
    obtain ⟨leaf, entries, here, canonical, sameForm, sameParent, held⟩ :=
      after_filling standard nodes first page parent fitting
    obtain ⟨twin, otherEntries, there, otherCanonical, otherForm, otherParent, otherHeld⟩ :=
      after_filling otherStandard otherNodes second otherPage parent (otherFitting.perm same)
    refine ⟨leaf, twin, _, here, there, sameForm, sameParent, canonical.shows.collects, held, ?_⟩
    apply canonical.twins standard otherCanonical otherStandard sized stamped
      (otherForm.trans sameForm.symm) (otherParent.trans sameParent.symm)
    intro row
    exact ((otherHeld.trans same).trans held.symm).mem_iff

/-- An index of three rows that leaves may keep by position, of which one has no key. -/
def lettered (unique : Bool) : Index :=
  .smallest ⟨unique, true⟩
    (RowTable.ofList [⟨some [98], ⟨2⟩⟩, ⟨none, ⟨3⟩⟩, ⟨some [97], ⟨1⟩⟩]).resolve

/-- The index before its table has the last of the rows. -/
def unlettered : Index :=
  (lettered true).lookingUp (RowTable.ofList [⟨some [98], ⟨2⟩⟩, ⟨none, ⟨3⟩⟩]).resolve

/-- Two rows are put in one after the other. -/
def straight : List Task :=
  [.create ⟨1⟩ none .positionOnly, .insert ⟨1⟩ ⟨some [97], ⟨1⟩⟩, .insert ⟨1⟩ ⟨some [98], ⟨2⟩⟩]

/-- On another page the second of them is put in first, and then one that stays for a while. The
leaf is read back. -/
def begun : List Task :=
  [.create ⟨2⟩ none .positionOnly, .insert ⟨2⟩ ⟨some [98], ⟨2⟩⟩, .insert ⟨2⟩ ⟨none, ⟨3⟩⟩,
    .write ⟨2⟩, .load ⟨2⟩]

/-- The other row is put in, that one is removed, and the leaf is read back again. -/
def ended : List Task :=
  [.insert ⟨2⟩ ⟨some [97], ⟨1⟩⟩, .remove ⟨2⟩ ⟨none, ⟨3⟩⟩, .write ⟨2⟩, .load ⟨2⟩]

/-- The table gets the other row when the leaf has been read back, and has decoded nothing yet. -/
def winding : Shelf Unit :=
  ((blank 2).after unlettered .idle begun).after (lettered true) .idle ended

private theorem made_straight :
    ((blank 1).after (lettered false) .idle straight).Made (lettered false) := by
  have start : (blank 1).MadeOver (lettered false) _ :=
    .empty (Engine.inMemory_serves (lettered false) 1) (.off, ())
  refine start.after .idle ?_ ?_
  · simp [LoadsOwn, straight]
  · intro n page leaf next
    have member := List.mem_of_getElem? next
    simp [straight] at member

private theorem made_begun :
    ((blank 2).after unlettered .idle begun).Made unlettered := by
  have written : (((blank 2).after unlettered .idle (begun.take 3)).leaves ⟨2⟩).map
      (fun leaf => ((Leaf.rows unlettered).on leaf (.inMemory 64 0)).1.1) =
        some (.ok [⟨none, ⟨3⟩⟩, ⟨some [98], ⟨2⟩⟩]) := by decide +kernel
  have start : (blank 2).MadeOver unlettered _ :=
    .empty (Engine.inMemory_serves unlettered 2) (.off, ())
  have resolves : (blank 2).WritesResolve unlettered .idle begun :=
    .of_single (begun.take 3) [.load ⟨2⟩] (by simp [begun]) written (by decide)
  refine start.after .idle ?_ resolves
  simp only [begun, LoadsOwn, reduceCtorEq, false_implies, implies_true, true_and, and_true]
  intro page same
  cases same
  exact .inr ⟨rfl, by decide +kernel⟩

private theorem made_winding : winding.Made (lettered true) := by
  have written : ((((blank 2).after unlettered .idle begun).after (lettered true) .idle
      (ended.take 2)).leaves ⟨2⟩).map
        (fun leaf => ((Leaf.rows (lettered true)).on leaf (.inMemory 64 0)).1.1) =
          some (.ok [⟨some [97], ⟨1⟩⟩, ⟨some [98], ⟨2⟩⟩]) := by decide +kernel
  obtain ⟨own, made⟩ := made_begun
  have listed : ((blank 2).after unlettered .idle begun).MadeOver (lettered true) own := by
    refine made.relist fun leaf _ rows collects => collects.lookingUp fun pos row _ found => ?_
    exact RowTable.resolve_insert rfl found
  have resolves : ((blank 2).after unlettered .idle begun).WritesResolve (lettered true) .idle
      ended := .of_single (ended.take 2) [.load ⟨2⟩] (by simp [ended]) written (by decide)
  refine listed.after .idle ?_ resolves
  simp only [ended, LoadsOwn, reduceCtorEq, false_implies, implies_true, true_and, and_true]
  intro page same
  cases same
  exact .inr ⟨rfl, by decide +kernel⟩

/-- Two leaves that came about so are twins, and so are two that full rows were put in, in one order
and in the other. -/
theorem same_rows_same_image_reloaded :
    (∃ leaf twin, ((blank 1).after (lettered false) .idle straight).leaves ⟨1⟩ = some leaf ∧
      winding.leaves ⟨2⟩ = some twin ∧
      twin.isDirty = false ∧ Leaf.Twins (lettered false) (lettered true) leaf twin) ∧
    ∃ leaf twin, ((blank 1).after (lettered false) .idle
        (Task.filling ⟨1⟩ none .full [⟨some [97], ⟨1⟩⟩, ⟨none, ⟨3⟩⟩])).leaves ⟨1⟩ = some leaf ∧
      ((blank 1).after (lettered true) .idle
        (Task.filling ⟨2⟩ none .full [⟨none, ⟨3⟩⟩, ⟨some [97], ⟨1⟩⟩])).leaves ⟨2⟩ = some twin ∧
      Leaf.Twins (lettered false) (lettered true) leaf twin := by
  have standard (unique : Bool) : (lettered unique).Standard := Index.smallest_standard _ _
  obtain ⟨made, filled⟩ := @same_rows_same_image Unit Unit (lettered false) (lettered true)
    (standard false) (standard true) rfl rfl
  constructor
  · have found : (((blank 1).after (lettered false) .idle straight).leaves ⟨1⟩).map
        (fun leaf => (leaf.form, leaf.parent,
          ((Leaf.rows (lettered false)).on leaf (.inMemory 64 0)).1.1)) =
        some (.positionOnly, none, .ok [⟨some [97], ⟨1⟩⟩, ⟨some [98], ⟨2⟩⟩]) := by decide +kernel
    have otherFound : (winding.leaves ⟨2⟩).map
        (fun leaf => (leaf.isDirty, leaf.form, leaf.parent,
          ((Leaf.rows (lettered true)).on leaf (.inMemory 64 0)).1.1)) =
        some (false, .positionOnly, none, .ok [⟨some [97], ⟨1⟩⟩, ⟨some [98], ⟨2⟩⟩]) := by
      decide +kernel
    obtain ⟨leaf, here, seen⟩ := Option.map_eq_some_iff.mp found
    obtain ⟨twin, there, otherSeen⟩ := Option.map_eq_some_iff.mp otherFound
    simp only [Prod.mk.injEq] at seen otherSeen
    obtain ⟨form, parent, rows⟩ := seen
    obtain ⟨clean, otherForm, otherParent, otherRows⟩ := otherSeen
    obtain ⟨collected, others, collects, otherCollects, twins⟩ :=
      made _ _ ⟨1⟩ ⟨2⟩ leaf twin made_straight made_winding here there
    have same : others = collected := Except.ok.inj
      ((otherCollects _).symm.trans (otherRows.trans (rows.symm.trans (collects _))))
    refine ⟨leaf, twin, here, there, clean, twins (otherForm.trans form.symm)
      (otherParent.trans parent.symm) ?_⟩
    intro row
    rw [same]
  · have fitting (unique : Bool) :
        Fitting (lettered unique) .full [⟨some [97], ⟨1⟩⟩, ⟨none, ⟨3⟩⟩] :=
      ⟨by cases unique <;> decide +kernel, by decide, fun _ => by decide⟩
    obtain ⟨leaf, twin, _, here, there, _, _, _, _, twins⟩ := filled (blank 1) (blank 1) .idle .idle
      ⟨1⟩ ⟨2⟩ none .full _ _ (fitting false) (fitting true) (List.Perm.swap _ _ [])
    exact ⟨leaf, twin, here, there, twins⟩

end Shelf

end SlottedLeaf
