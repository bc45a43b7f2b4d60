import SlottedLeaf.Proofs.Effects
import SlottedLeaf.Proofs.Writing
import Mathlib.Order.CompletePartialOrder
import Mathlib.Order.Interval.Set.Disjoint

/-!
# What the check of a layout certifies

The check goes over the slots once and compares each with the one before it. What it accepts holds
of all slots, however far apart: they are in order, no two share a byte, and none reaches into the
offset table. Since no call that changes a leaf succeeds around the check, this can be said of every
leaf that was changed, even if it was read from a page on which nothing was in order.
-/

namespace SlottedLeaf

open RowEntry

variable {index : Index}

/-- The bytes that a row takes on the page. -/
def RowEntry.span (size : Row → Nat) (entry : RowEntry) : Set Nat :=
  Set.Ico entry.offset (entry.offset + size entry.row)

/-- Of stacked rows no two share a byte. -/
theorem RowEntry.Stacked.disjoint {size : Row → Nat} {top : Nat} {entries : List RowEntry}
    (stacked : Stacked size top entries) :
    entries.Pairwise fun a b => Disjoint (a.span size) (b.span size) := by
  induction entries generalizing top with
  | nil => exact .nil
  | cons entry rest ih =>
    refine List.pairwise_cons.mpr ⟨?_, ih stacked.2⟩
    intro other member
    have below : other.offset + size other.row ≤ entry.offset := stacked.2.offset_le member
    rw [span, span, Set.Ico_disjoint_Ico]
    exact (Nat.min_le_right ..).trans (below.trans (Nat.le_max_left ..))

namespace Leaf

variable {leaf later right : Leaf} {entries : List RowEntry} {engine after : Engine}

/-- The leaf has these entries, all decoded; every row is below all rows after it; no two rows share
a byte, and all lie between the offset table and the end of the page. -/
structure Certified (index : Index) (leaf : Leaf) (entries : List RowEntry) : Prop where
  slots : leaf.slots = entries.map RowEntry.slot
  ascending : (entries.map RowEntry.row).Pairwise Row.Below
  apart : entries.Pairwise fun a b =>
    Disjoint (a.span (index.format.size leaf.form)) (b.span (index.format.size leaf.form))
  inside : ∀ entry ∈ entries,
    entry.span (index.format.size leaf.form) ⊆ Set.Ico (11 + 2 * leaf.count) index.pageSize

/-- The leaf can be written to its page, wherever that is allocated; and if position-only rows
resolve to themselves, what is loaded from there has these rows. -/
def Restores (index : Index) (leaf : Leaf) (rows : List Row) : Prop :=
  ∀ engine : Engine, engine.store.pageSize = index.pageSize → engine.store.Allocated leaf.id →
    ((write index).on leaf engine).1.1 = .ok () ∧
      ((leaf.form = .positionOnly → ∀ row ∈ rows, index.format.resolve row.pos = .ok row) →
        ∃ loaded, ((load index leaf.id).on ((write index).on leaf engine).2).1 = .ok loaded ∧
          loaded.Collects index rows)

/-- The leaf is certified with some entries, and can be written and loaded again with their rows. -/
def Sound (index : Index) (leaf : Leaf) : Prop :=
  ∃ entries, leaf.Certified index entries ∧ leaf.Restores index (entries.map RowEntry.row)

/-- What a leaf has to have, whatever is on it, for its page to be written: an image of the right
length, and no parent that a page cannot name. -/
structure Framed (index : Index) (leaf : Leaf) : Prop where
  image : leaf.image.size = index.pageSize
  unreserved : leaf.parent ≠ some .reserved

theorem Lays.certified (lays : leaf.Lays index entries)
    (slots : leaf.slots = entries.map RowEntry.slot)
    (ascending : Row.Ascending (entries.map RowEntry.row)) : leaf.Certified index entries where
  slots
  ascending
  apart := lays.stacked.disjoint
  inside := by
    intro entry member byte within
    have above : leaf.start ≤ entry.offset :=
      lays.clear.trans (lays.stacked.lowest_le_offset member)
    have below := lays.stacked.offset_le member
    exact ⟨above.trans within.1, within.2.trans_le below⟩

theorem Lays.restores (standard : index.Standard) (lays : leaf.Lays index entries)
    (dirty : leaf.isDirty) (unreserved : leaf.parent ≠ some .reserved) :
    leaf.Restores index (entries.map RowEntry.row) := by
  intro engine sized allocated
  obtain ⟨n, run⟩ := write_of_dirty standard lays dirty
  have whole : (leaf.rendering index entries).size = engine.store.pageSize := by
    rw [size_rendering, sized]
  obtain ⟨store, taken, _, kept⟩ := Store.write_of_allocated allocated whole
  rw [run, taken]
  refine ⟨rfl, ?_⟩
  intro resolves
  refine ⟨_, load_of_read kept (lays.ofImage_rendering standard unreserved), ?_⟩
  apply Shows.collects
  apply lays.shows_encoded standard
  intro positions
  simpa using resolves positions

/-- A leaf that a call changed is certified, whatever it was before. -/
theorem Changes.sound (standard : index.Standard) (asked : index.options.checkInvariants)
    (framed : leaf.Framed index) (changes : leaf.Changes index later) : later.Sound index := by
  obtain ⟨entries, slots, stacked, ascending, clear⟩ := entries_of_checked asked changes.checked
  have held : later = later.holding entries := by
    rw [holding, ← slots]
  have shows : later.Shows index entries := by
    rw [held]
    exact .of_holding later entries
  have lays : later.Lays index entries :=
    ⟨by rw [changes.image, framed.image], shows, stacked, clear⟩
  have unreserved : later.parent ≠ some .reserved := by
    rw [changes.parent]
    exact framed.unreserved
  exact ⟨entries, lays.certified slots ascending,
    lays.restores standard changes.dirty unreserved⟩

theorem Framed.create (framed : leaf.Framed index) (id : PageId) (form : RowForm) :
    (create index id leaf.parent form).Framed index where
  image := by simp [Leaf.create, Buffer.zeros]
  unreserved := framed.unreserved

/-- A leaf that was read from a page can be written to one. -/
theorem Framed.of_ofImage {id : PageId} {image : Buffer}
    (shown : ofImage index id image = .ok leaf) : leaf.Framed index := by
  obtain ⟨sized, header, offsets, decoded, _, _, _, rfl⟩ := ofImage_ok shown
  exact ⟨sized, parent_of_decode decoded⟩

/-- Whatever image a leaf was read from: once a row was inserted, removed or moved to a new leaf,
the check has certified the outcome. Every row is then below all rows after it, no two rows share a
byte and none reaches into the offset table or past the page; and the leaf can be written and loaded
again with its rows. -/
theorem changes_certified (standard : index.Standard) (asked : index.options.checkInvariants)
    {id : PageId} {image : Buffer} (shown : ofImage index id image = .ok leaf) (engine : Engine) :
    (∀ row later after,
      (insert index row).on leaf engine = ((.ok .inserted, later), after) → later.Sound index) ∧
    (∀ target answer later after,
      (remove index target).on leaf engine = ((.ok answer, later), after) →
        (∀ only, answer ≠ .emptied only) → later.Sound index) ∧
    (∀ point right later after,
      (split index point).on leaf engine = ((.ok right, later), after) →
        later.Sound index ∧ right.Sound index) := by
  have framed := Framed.of_ofImage shown
  refine ⟨?_, ?_, ?_⟩
  · intro row later after run
    rcases insert_ok run with ⟨_, changes, _⟩ | ⟨⟨point, full⟩, _⟩
    · exact changes.sound standard asked framed
    · cases full
  · intro target answer later after run several
    rcases remove_ok run with ⟨only, emptied, _⟩ | ⟨_, changes, _⟩
    · exact absurd emptied (several only)
    · exact changes.sound standard asked framed
  · intro point right later after run
    obtain ⟨left, moved, _⟩ := split_ok run
    exact ⟨left.sound standard asked framed,
      moved.sound standard asked (framed.create right.id leaf.form)⟩

/-- A page of the smallest size with the keys `b` and `a`, in this order. -/
def disordered : Buffer :=
  #[0, 0, 0, 0, 0x84, 0, 0, 0, 1, 0, 2, 0, 54, 0, 44, 0, 0, 0, 0, 0, 0, 0, 0, 0, 0, 0, 0, 0, 0,
    0, 0, 0, 0, 0, 0, 0, 0, 0, 0, 0, 0, 0, 0, 0, 0, 0, 0, 0, 0, 0, 0, 2, 2, 97, 0, 0, 0, 0, 0, 0,
    0, 1, 2, 98]

/-- So it is when the second of two rows is taken off that stand in the wrong order. -/
theorem changes_certified_disordered :
    let index := Index.smallest .default (fun _ => .error (.corruption .rowNotInTable))
    let call := remove index ⟨some [97], ⟨2⟩⟩
    ∃ leaf, ofImage index ⟨1⟩ disordered = .ok leaf ∧
      (call.on leaf (.inMemory 64 1)).1.1 = .ok (.lastChanged ⟨some [98], ⟨1⟩⟩) ∧
      (call.on leaf (.inMemory 64 1)).1.2.Sound index := by
  have shown : ofImage (Index.smallest .default (fun _ => .error (.corruption .rowNotInTable))) ⟨1⟩
      disordered = .ok ⟨⟨1⟩, none, .full, [⟨54, none⟩, ⟨44, none⟩], true, disordered⟩ := by rfl
  have answer : ((remove (Index.smallest .default (fun _ => .error (.corruption .rowNotInTable)))
      ⟨some [97], ⟨2⟩⟩).on ⟨⟨1⟩, none, .full, [⟨54, none⟩, ⟨44, none⟩], true, disordered⟩
        (.inMemory 64 1)).1.1 = .ok (.lastChanged ⟨some [98], ⟨1⟩⟩) := by decide +kernel
  intro index call
  refine ⟨_, shown, answer, ?_⟩
  exact (changes_certified (Index.smallest_standard _ _) rfl shown (.inMemory 64 1)).2.1 _ _ _ _
    (Prod.ext (Prod.ext answer rfl) rfl) (by simp)

end Leaf

end SlottedLeaf
