import SlottedLeaf.Proofs.Placing
import SlottedLeaf.Proofs.Removal

/-!
# How removals, splits and writes end

As with insertions, each way in which one of these calls ends on whatever leaf is one case, with the
leaf and the engine as the call leaves them. A removal breaks down only once it has taken its row
off. A split has decoded every row before it moves the first, and a write before it draws any.
-/

namespace SlottedLeaf

open RowEntry LeafCall

variable {index : Index} {leaf later : Leaf} {engine after : Engine} {row : Row}

namespace Leaf

/-! ## Taking a row off -/

/-- How a row is taken off whatever leaf. -/
inductive Takes (index : Index) (leaf : Leaf) (slot : Nat) (engine : Engine) :
    Except Fault Unit → Leaf → Engine → Prop where
  /-- Not every row decodes. -/
  | undecoded {n : Nat} {middle : Leaf} {fault : Fault} (decodes : leaf.Decodes index n middle)
      (unshown : ∀ entries, ¬ leaf.Shows index entries) :
      Takes index leaf slot engine (.error fault) middle (engine.counted .rowsDecoded n)
  /-- There is no such row, or no other, or it ends below its start. -/
  | kept {n : Nat} {entries : List RowEntry} {fault : Fault}
      (decodes : leaf.Decodes index n (leaf.holding entries))
      (cause : fault = .invalid .slotOutOfRange ∨ fault = .internal .removingOnlyRow ∨
        fault = .corruption .extentInverted) :
      Takes index leaf slot engine (.error fault) (leaf.holding entries)
        (engine.counted .rowsDecoded n)
  /-- The layout is out of order then. -/
  | unsound {n : Nat} {before behind : List RowEntry} {entry : RowEntry} (cause : Breach)
      (decodes : leaf.Decodes index n (leaf.holding (before ++ entry :: behind)))
      (here : slot = before.length) (several : 1 < leaf.count)
      (falls : entry.offset ≤ lowest index.pageSize before) :
      Takes index leaf slot engine (.error (.internal cause))
        (leaf.changed (removeBetween index.pageSize before entry behind))
        (engine.counted .rowsDecoded n)
  | taken {n : Nat} {before behind : List RowEntry} {entry : RowEntry}
      (decodes : leaf.Decodes index n (leaf.holding (before ++ entry :: behind)))
      (here : slot = before.length) (several : 1 < leaf.count)
      (falls : entry.offset ≤ lowest index.pageSize before) :
      Takes index leaf slot engine (.ok ())
        (leaf.changed (removeBetween index.pageSize before entry behind))
        (((engine.counted .rowsDecoded n).counted .rowsRemoved 1).reported
          (.rowRemoved leaf.id before.length (lowest index.pageSize before - entry.offset)))

theorem removeAt_takes {slot : Nat} {outcome : Except Fault Unit}
    (run : (removeAt index slot).on leaf engine = ((outcome, later), after)) :
    leaf.Takes index slot engine outcome later after := by
  rw [removeAt, on_bind] at run
  rcases loadRows_cases index leaf engine with ⟨n, entries, shows, decodes, loads⟩ |
    ⟨n, middle, fault, unshown, decodes, loads⟩
  case inr =>
    rw [loads] at run
    cases run
    exact .undecoded decodes unshown
  rw [loads] at run
  simp only [on_get_bind, count_holding] at run
  by_cases outside : entries.length ≤ slot
  · rw [if_pos outside] at run
    cases run
    exact .kept decodes (.inl rfl)
  rw [if_neg outside] at run
  by_cases only : entries.length ≤ 1
  · rw [if_pos only] at run
    cases run
    exact .kept decodes (.inr (.inl rfl))
  rw [if_neg only] at run
  obtain ⟨before, entry, behind, rfl, rfl⟩ : ∃ before entry behind,
      entries = before ++ entry :: behind ∧ slot = before.length :=
    ⟨_, _, _, (List.take_append_drop slot entries).symm.trans
      (congrArg _ (List.drop_eq_getElem_cons (Nat.lt_of_not_le outside))),
      (List.length_take_of_le (Nat.le_of_not_le outside)).symm⟩
  have several : 1 < leaf.count := by
    rw [shows.count]
    exact Nat.lt_of_not_le only
  have here : ((before ++ entry :: behind).map RowEntry.offset)[before.length]? =
      some entry.offset := by simp
  simp only [offsets_holding, OffsetTable.extent, here, ceiling_eq_lowest] at run
  rw [OffsetTable.between] at run
  by_cases inverted : lowest index.pageSize before < entry.offset ∨
      index.pageSize < lowest index.pageSize before
  · rw [if_pos inverted] at run
    cases run
    exact .kept decodes (.inr (.inr rfl))
  have removed : removeSlot before.length (lowest index.pageSize before - entry.offset)
      ((before ++ entry :: behind).map RowEntry.slot) =
        (removeBetween index.pageSize before entry behind).map RowEntry.slot := removeSlot_eq _
  have falls : entry.offset ≤ lowest index.pageSize before := by omega
  rw [if_neg inverted, on_bind, on_ofExcept] at run
  simp only [id_holding, parent_holding, form_holding, image_holding, slots_holding, removed,
    on_set_bind, on_get_bind, changed_mk] at run
  rw [on_bind, on_ofExcept] at run
  rcases checkInvariants_cases index (leaf.changed (removeBetween index.pageSize before entry
    behind)) with checked | ⟨cause, fails⟩
  · rw [checked] at run
    cases run
    exact .taken decodes rfl several falls
  · rw [fails] at run
    cases run
    exact .unsound cause decodes rfl several falls

/-- How the removal of a row ends on whatever leaf. -/
inductive Drops (index : Index) (leaf : Leaf) (target : Row) (engine : Engine) :
    Except Fault Removal → Leaf → Engine → Prop where
  /-- A row does not decode, or ends below its start. -/
  | failed {n : Nat} {middle : Leaf} {fault : Fault} (decodes : leaf.Decodes index n middle) :
      Drops index leaf target engine (.error fault) middle (engine.counted .rowsDecoded n)
  /-- The row is not in its place. -/
  | absent {n : Nat} {middle : Leaf} (decodes : leaf.Decodes index n middle) :
      Drops index leaf target engine (.error (.rowNotFound leaf.id target)) middle
        (engine.counted .rowsDecoded n)
  /-- There is no other row. -/
  | only {n : Nat} {middle : Leaf} (row : Row) (decodes : leaf.Decodes index n middle) :
      Drops index leaf target engine (.ok (.emptied row)) middle
        ((engine.counted .rowsDecoded n).reported (.leafEmptied leaf.id))
  /-- The layout is out of order then. -/
  | unsound {n : Nat} {before behind : List RowEntry} {entry : RowEntry} (cause : Breach)
      (decodes : leaf.Decodes index n (leaf.holding (before ++ entry :: behind))) :
      Drops index leaf target engine (.error (.internal cause))
        (leaf.changed (removeBetween index.pageSize before entry behind))
        (engine.counted .rowsDecoded n)
  /-- The row is off the leaf; on the reserved page the call fails even so. -/
  | taken {n : Nat} {before behind : List RowEntry} {entry : RowEntry} (store : Store)
      (decodes : leaf.Decodes index n (leaf.holding (before ++ entry :: behind))) :
      Drops index leaf target engine
        ((checkPageId leaf.id).map fun _ => .between before behind)
        (leaf.changed (removeBetween index.pageSize before entry behind))
        ((((engine.counted .rowsDecoded n).counted .rowsRemoved 1).reported
          (.rowRemoved leaf.id before.length
            (lowest index.pageSize before - entry.offset))).stored store)

theorem remove_drops {target : Row} {outcome : Except Fault Removal}
    (run : (remove index target).on leaf engine = ((outcome, later), after)) :
    leaf.Drops index target engine outcome later after := by
  rw [remove, on_bind] at run
  rcases searched : (search index .removal target).on leaf engine with
    ⟨⟨fault | slot, found⟩, between⟩ <;> rw [searched] at run
  · obtain ⟨n, decodes, rfl⟩ := (search_peeks index .removal target).ended searched
    cases run
    exact .failed decodes
  obtain ⟨n, decodes, rfl⟩ := (search_peeks index .removal target).ended searched
  simp only at run
  rw [on_bind] at run
  rcases looked : (holds index slot target).on found (engine.counted .rowsDecoded n) with
    ⟨⟨fault | held, seen⟩, between⟩ <;> rw [looked] at run
  · obtain ⟨m, more, rfl⟩ := (holds_peeks index slot target).ended looked
    cases run
    rw [Engine.counted_counted]
    exact .failed (decodes.trans more)
  obtain ⟨m, more, rfl⟩ := (holds_peeks index slot target).ended looked
  have decodes := decodes.trans more
  rw [Engine.counted_counted] at run
  simp only at run
  by_cases absent : !held
  · rw [if_pos absent, on_get_bind, decodes.id] at run
    cases run
    exact .absent decodes
  rw [if_neg absent, on_get_bind] at run
  by_cases only : seen.count = 1
  · rw [if_pos only, on_bind] at run
    rcases last : (row index slot).on seen (engine.counted .rowsDecoded (n + m)) with
      ⟨⟨fault | row, shown⟩, between⟩ <;> rw [last] at run
    · obtain ⟨k, final, rfl⟩ := (row_peeks index slot).ended last
      cases run
      rw [Engine.counted_counted]
      exact .failed (decodes.trans final)
    · obtain ⟨k, final, rfl⟩ := (row_peeks index slot).ended last
      have decodes := decodes.trans final
      rw [Engine.counted_counted] at run
      simp only [on_get_bind, decodes.id] at run
      cases run
      exact .only row decodes
  rw [if_neg only, on_bind] at run
  rcases taking : (removeAt index slot).on seen (engine.counted .rowsDecoded (n + m)) with
    ⟨⟨fault | _, left⟩, between⟩ <;> rw [taking] at run
  · cases run
    cases removeAt_takes taking with
    | undecoded more _ =>
      rw [Engine.counted_counted]
      exact .failed (decodes.trans more)
    | kept more _ =>
      rw [Engine.counted_counted]
      exact .failed (decodes.trans more)
    | unsound cause more _ _ _ =>
      have all := decodes.trans more
      rw [decodes.holding] at all
      rw [Engine.counted_counted, decodes.changed]
      exact .unsound cause all
  · cases removeAt_takes taking with
    | @taken k before behind entry more here several _ =>
      subst here
      have all := decodes.trans more
      rw [decodes.holding] at all
      rw [← more.count, count_holding] at several
      obtain ⟨store, noted, _⟩ := note_on index seen several
        (((((engine.counted .rowsDecoded (n + m)).counted .rowsDecoded k).counted .rowsRemoved
          1).reported (.rowRemoved seen.id before.length
            (lowest index.pageSize before - entry.offset))))
      rw [decodes.changed, decodes.id, Engine.counted_counted] at noted
      rw [decodes.changed, decodes.id, Engine.counted_counted] at run
      cases noted.symm.trans run
      exact .taken store all

/-! ## Splitting -/

/-- How whatever leaf is split. -/
inductive Divides (index : Index) (leaf : Leaf) (point : Nat) (engine : Engine) :
    Except Fault Leaf → Leaf → Engine → Prop where
  /-- A leaf would be left without a row. -/
  | refused (outside : point = 0 ∨ leaf.count ≤ point) :
      Divides index leaf point engine (.error (.invalid .splitPoint)) leaf engine
  /-- The store hands out no page. -/
  | unallocated {fault : Fault} {between : Engine} (inside : ¬ (point = 0 ∨ leaf.count ≤ point))
      (fails : Engine.allocatePage.on engine = (.error fault, between)) :
      Divides index leaf point engine (.error fault) leaf between
  /-- Not every row decodes. -/
  | undecoded {id : PageId} {between : Engine} {n : Nat} {middle : Leaf} {fault : Fault}
      (inside : ¬ (point = 0 ∨ leaf.count ≤ point))
      (allocates : Engine.allocatePage.on engine = (.ok id, between))
      (decodes : leaf.Decodes index n middle)
      (fails : (loadRows index).on leaf between =
        ((.error fault, middle), between.counted .rowsDecoded n)) :
      Divides index leaf point engine (.error fault) middle (between.counted .rowsDecoded n)
  /-- A row stays, and so do those behind it. -/
  | stopped {id : PageId} {between : Engine} {n : Nat} {entries : List RowEntry} {fault : Fault}
      {later : Leaf} {after : Engine} (inside : ¬ (point = 0 ∨ leaf.count ≤ point))
      (allocates : Engine.allocatePage.on engine = (.ok id, between))
      (decodes : leaf.Decodes index n (leaf.holding entries))
      (loads : (loadRows index).on leaf between =
        ((.ok (), leaf.holding entries), between.counted .rowsDecoded n))
      (moves : (moveRows index point (leaf.count - point)
        (create index id leaf.parent leaf.form)).on (leaf.holding entries)
          (between.counted .rowsDecoded n) = ((.error fault, later), after)) :
      Divides index leaf point engine (.error fault) later after
  | done {id : PageId} {between : Engine} {n : Nat} {entries : List RowEntry} {right later : Leaf}
      {after : Engine} (inside : ¬ (point = 0 ∨ leaf.count ≤ point))
      (allocates : Engine.allocatePage.on engine = (.ok id, between))
      (decodes : leaf.Decodes index n (leaf.holding entries))
      (loads : (loadRows index).on leaf between =
        ((.ok (), leaf.holding entries), between.counted .rowsDecoded n))
      (moves : (moveRows index point (leaf.count - point)
        (create index id leaf.parent leaf.form)).on (leaf.holding entries)
          (between.counted .rowsDecoded n) = ((.ok right, later), after)) :
      Divides index leaf point engine (.ok right) later
        ((after.counted .splits 1).reported (.leafSplit leaf.id id point (leaf.count - point)))

theorem split_divides {point : Nat} {outcome : Except Fault Leaf}
    (run : (split index point).on leaf engine = ((outcome, later), after)) :
    leaf.Divides index point engine outcome later after := by
  rw [split, on_get_bind] at run
  by_cases outside : point = 0 ∨ leaf.count ≤ point
  · rw [if_pos outside] at run
    cases run
    exact .refused outside
  rw [if_neg outside, on_bind, on_engine] at run
  rcases allocates : Engine.allocatePage.on engine with ⟨fault | id, between⟩ <;>
    rw [allocates] at run
  · cases run
    exact .unallocated outside allocates
  simp only at run
  rw [on_bind] at run
  rcases loadRows_cases index leaf between with ⟨n, entries, _, decodes, loads⟩ |
    ⟨n, middle, fault, _, decodes, loads⟩
  case inr =>
    rw [loads] at run
    cases run
    exact .undecoded outside allocates decodes loads
  rw [loads] at run
  simp only at run
  rw [on_bind] at run
  rcases moves : (moveRows index point (leaf.count - point)
      (create index id leaf.parent leaf.form)).on (leaf.holding entries)
      (between.counted .rowsDecoded n) with ⟨⟨fault | right, left⟩, finish⟩ <;>
    rw [moves] at run
  · cases run
    exact .stopped outside allocates decodes loads moves
  · cases run
    exact .done outside allocates decodes loads moves

/-! ## Writing -/

/-- The leaf and the image that it is rendered to, as far as that goes. -/
def drawn (index : Index) (leaf : Leaf) (entries : List RowEntry) : Leaf :=
  { leaf.holding entries with
    image := (((leaf.holding entries).put index).apply (.zeros leaf.image.size)).2 }

/-- How whatever leaf is written. -/
inductive Saves (index : Index) (leaf : Leaf) (engine : Engine) :
    Except Fault Unit → Leaf → Engine → Prop where
  /-- The leaf has not changed. -/
  | clean (clean : leaf.isDirty = false) : Saves index leaf engine (.ok ()) leaf engine
  /-- Not every row decodes, or there are too many. -/
  | undrawn {n : Nat} {middle : Leaf} {fault : Fault} (dirty : leaf.isDirty)
      (decodes : leaf.Decodes index n middle) :
      Saves index leaf engine (.error fault) middle (engine.counted .rowsDecoded n)
  /-- The rows do not go on a page, or the store does not take it. -/
  | refused {n : Nat} {entries : List RowEntry} {fault : Fault} (dirty : leaf.isDirty)
      (decodes : leaf.Decodes index n (leaf.holding entries)) :
      Saves index leaf engine (.error fault) (leaf.drawn index entries)
        (engine.counted .rowsDecoded n)
  | taken {n : Nat} {entries : List RowEntry} {store : Store} (dirty : leaf.isDirty)
      (decodes : leaf.Decodes index n (leaf.holding entries)) (few : entries.length ≤ 65535)
      (puts : (((leaf.holding entries).put index).apply (.zeros leaf.image.size)).1 = .ok ())
      (takes : engine.store.write leaf.id (leaf.drawn index entries).image = .ok store) :
      Saves index leaf engine (.ok ()) { leaf.drawn index entries with written := true }
        ((((engine.counted .rowsDecoded n).stored store).counted .pagesWritten 1).reported
          (.leafWritten leaf.id entries.length leaf.form))

theorem write_saves {outcome : Except Fault Unit}
    (run : (write index).on leaf engine = ((outcome, later), after)) :
    leaf.Saves index engine outcome later after := by
  rw [write, on_get_bind] at run
  cases dirty : leaf.isDirty with
  | false =>
    rw [dirty, if_neg Bool.false_ne_true] at run
    cases run
    exact .clean dirty
  | true =>
    rw [dirty, if_pos rfl, render, bind_assoc, on_bind] at run
    rcases loadRows_cases index leaf engine with ⟨n, entries, shows, decodes, loads⟩ |
      ⟨n, middle, fault, _, decodes, loads⟩
    case inr =>
      rw [loads] at run
      cases run
      exact .undrawn dirty decodes
    rw [loads] at run
    simp only [bind_assoc, on_get_bind, count_holding] at run
    by_cases many : 65535 < entries.length
    · rw [if_pos many] at run
      cases run
      exact .undrawn dirty decodes
    rw [if_neg many] at run
    simp only [bind_assoc, on_set_bind] at run
    have drawn : { leaf.holding entries with
        image := (((leaf.holding entries).put index).apply (.zeros leaf.image.size)).2 } =
      leaf.drawn index entries := rfl
    rw [image_holding, drawn, on_bind, on_ofExcept] at run
    cases puts : (((leaf.holding entries).put index).apply (.zeros leaf.image.size)).1 with
    | error fault =>
      rw [puts] at run
      cases run
      exact .refused dirty decodes
    | ok _ =>
      rw [puts] at run
      simp only at run
      rw [on_get_bind, on_bind, on_engine, Engine.writePage_on, Engine.store_counted] at run
      cases takes : engine.store.write leaf.id (leaf.drawn index entries).image with
      | error fault =>
        rw [show (leaf.drawn index entries).id = leaf.id from rfl, takes] at run
        cases run
        exact .refused dirty decodes
      | ok store =>
        rw [show (leaf.drawn index entries).id = leaf.id from rfl, takes] at run
        have saves := Saves.taken dirty decodes (Nat.le_of_not_lt many) puts takes
        rw [← count_holding leaf entries] at saves
        cases run
        exact saves

end Leaf

end SlottedLeaf
