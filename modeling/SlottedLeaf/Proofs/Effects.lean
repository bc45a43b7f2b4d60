import SlottedLeaf.Proofs.Looking

/-!
# What calls do on any leaf

Nothing is assumed here of the leaf that a call is made on: its rows may overlap, or not decode at
all. A call that changes the leaf and succeeds has checked the outcome and told the store, or left
that to its caller. Where leaves come from stands at the end: from an image, from the store, or
new, with what reading one counts.
-/

namespace SlottedLeaf

open LeafCall

variable {α β : Type} {index : Index}

namespace Leaf

/-! ## Calls that change a leaf -/

/-- `later` is a leaf of the same page, under the same node, with the same image. -/
structure SamePage (leaf later : Leaf) : Prop where
  id : later.id = leaf.id
  parent : later.parent = leaf.parent
  image : later.image = leaf.image

/-- A call changed the leaf, and found its layout in order. -/
structure Changes (index : Index) (leaf later : Leaf) : Prop extends leaf.SamePage later where
  dirty : later.isDirty
  checked : later.checkInvariants index = .ok ()

/-- `later` is the leaf, and every row of it is what it was; it may be decoded by now. -/
structure Untouched (index : Index) (leaf later : Leaf) : Prop extends leaf.SamePage later where
  form : later.form = leaf.form
  offsets : later.offsets = leaf.offsets
  start : later.start = leaf.start
  isDirty : later.isDirty = leaf.isDirty
  row : ∀ slot engine other,
    ((Leaf.row index slot).on later engine).1.1 = ((Leaf.row index slot).on leaf other).1.1

variable {leaf middle later : Leaf} {engine after : Engine}

theorem SamePage.trans (first : leaf.SamePage middle) (second : middle.SamePage later) :
    leaf.SamePage later :=
  ⟨second.id.trans first.id, second.parent.trans first.parent, second.image.trans first.image⟩

theorem Decodes.samePage {n : Nat} (decodes : leaf.Decodes index n later) :
    leaf.SamePage later := by
  rw [decodes.rest]
  exact ⟨rfl, rfl, rfl⟩

theorem Decodes.isDirty {n : Nat} (decodes : leaf.Decodes index n later) :
    later.isDirty = leaf.isDirty := by
  rw [decodes.rest]
  rfl

theorem Decodes.untouched {n : Nat} (decodes : leaf.Decodes index n later) :
    leaf.Untouched index later := by
  refine ⟨decodes.samePage, decodes.form, decodes.offsets, decodes.start, decodes.isDirty, ?_⟩
  intro slot engine other
  rw [row_outcome, row_outcome, decodes.shown]

theorem Changes.of_samePage (same : leaf.SamePage middle) (changes : middle.Changes index later) :
    leaf.Changes index later :=
  ⟨same.trans changes.toSamePage, changes.dirty, changes.checked⟩

theorem Changes.trans (first : leaf.Changes index middle) (second : middle.Changes index later) :
    leaf.Changes index later :=
  .of_samePage first.toSamePage second

/-- A leaf whose layout was found in order has every row decoded, each where the row before it
starts or below, in ascending order and clear of the offset table. -/
theorem entries_of_checked (asked : index.options.checkInvariants)
    (checked : leaf.checkInvariants index = .ok ()) :
    ∃ entries, leaf.slots = entries.map RowEntry.slot ∧
      RowEntry.Stacked (index.format.size leaf.form) index.pageSize entries ∧
      Row.Ascending (entries.map RowEntry.row) ∧
      leaf.start ≤ RowEntry.lowest index.pageSize entries := by
  rw [checkInvariants, if_pos asked] at checked
  exact entries_of_checkLayout checked

/-- On a leaf whose layout was found in order there is nothing left to decode. -/
theorem Changes.decodes {n : Nat} (changes : leaf.Changes index middle)
    (decodes : middle.Decodes index n later) : leaf.Changes index later := by
  refine ⟨changes.toSamePage.trans decodes.samePage, ?_, ?_⟩
  · rw [decodes.isDirty]
    exact changes.dirty
  · by_cases asked : index.options.checkInvariants
    · obtain ⟨entries, slots, _⟩ := entries_of_checked asked changes.checked
      have held : middle = middle.holding entries := by
        rw [holding, ← slots]
      rw [held] at decodes
      obtain ⟨_, rfl⟩ := decodes.of_holding
      rw [← held]
      exact changes.checked
    · rw [checkInvariants, if_neg asked]

/-- A row is placed only if the outcome passes the check and the store takes note. -/
theorem place_ok {slot : Nat} {row : Row}
    (run : (place index slot row).on leaf engine = ((.ok (), later), after)) :
    leaf.Changes index later ∧ engine.store.note leaf.id = .ok after.store := by
  simp only [place, on_get_bind] at run
  obtain ⟨slots, _, run⟩ := on_ofExcept_bind_ok run
  simp only [on_set_bind, on_get_bind] at run
  obtain ⟨_, checked, run⟩ := on_ofExcept_bind_ok run
  obtain ⟨_, _, _, told, run⟩ := on_bind_ok run
  obtain ⟨rfl, noted⟩ := on_notePage_ok told
  simp only [on_count_bind, on_report, Prod.mk.injEq] at run
  obtain ⟨⟨_, rfl⟩, rfl⟩ := run
  exact ⟨⟨⟨rfl, rfl, rfl⟩, rfl, checked⟩, noted⟩

theorem compact_ok (run : (compact index).on leaf engine = ((.ok (), later), after)) :
    leaf.SamePage later ∧ after.store = engine.store := by
  simp only [compact, on_get_bind, on_modify_bind] at run
  obtain ⟨slots, _, run⟩ := on_ofExcept_bind_ok run
  by_cases full : leaf.form = .full
  · rw [if_pos full] at run
    cases run
    exact ⟨⟨rfl, rfl, rfl⟩, rfl⟩
  · rw [if_neg full] at run
    cases run
    exact ⟨⟨rfl, rfl, rfl⟩, rfl⟩

/-- How a call to insert a row succeeds: the row is on the leaf and the store knows, or nothing has
changed. -/
theorem insert_ok {row : Row} {answer : Insertion}
    (run : (insert index row).on leaf engine = ((.ok answer, later), after)) :
    (answer = .inserted ∧ leaf.Changes index later ∧
        engine.store.note leaf.id = .ok after.store) ∨
      (∃ point, answer = .splitAt point) ∧ (∃ n, leaf.Decodes index n later) ∧
        after.store = engine.store := by
  obtain ⟨_, loaded, _, load, run⟩ := on_bind_ok run
  obtain ⟨n, decodes, rfl⟩ := (loadRows_peeks index).ended load
  obtain ⟨slot, middle, _, searched, run⟩ := on_bind_ok run
  obtain ⟨m, more, rfl⟩ := (search_peeks index .insertion row).ended searched
  have decodes := decodes.trans more
  simp only [on_get_bind] at run
  by_cases fits : middle.fits index (index.format.size middle.form row)
  · rw [if_pos fits] at run
    obtain ⟨_, _, _, placed, run⟩ := on_bind_ok run
    cases run
    obtain ⟨changes, noted⟩ := place_ok placed
    rw [decodes.id] at noted
    exact .inl ⟨rfl, .of_samePage decodes.samePage changes, noted⟩
  rw [if_neg fits] at run
  by_cases several : 1 < middle.count
  · rw [if_pos several] at run
    cases run
    exact .inr ⟨⟨_, rfl⟩, ⟨_, decodes⟩, rfl⟩
  rw [if_neg several] at run
  obtain ⟨_, turned, _, compacted, run⟩ := on_bind_ok run
  obtain ⟨same, still⟩ := compact_ok compacted
  simp only [on_get_bind] at run
  obtain ⟨_, run⟩ := on_guard_ok run
  obtain ⟨_, _, _, placed, run⟩ := on_bind_ok run
  cases run
  obtain ⟨changes, noted⟩ := place_ok placed
  rw [same.id, decodes.id, still] at noted
  exact .inl ⟨rfl, .of_samePage (decodes.samePage.trans same) changes, noted⟩

/-- A row is taken off only if the outcome passes the check. The store is not told. -/
theorem removeAt_ok {slot : Nat}
    (run : (removeAt index slot).on leaf engine = ((.ok (), later), after)) :
    leaf.Changes index later ∧ after.store = engine.store := by
  obtain ⟨_, loaded, _, load, run⟩ := on_bind_ok run
  obtain ⟨n, decodes, rfl⟩ := (loadRows_peeks index).ended load
  simp only [on_get_bind] at run
  obtain ⟨_, run⟩ := on_guard_ok run
  obtain ⟨_, run⟩ := on_guard_ok run
  obtain ⟨⟨start, stop⟩, _, run⟩ := on_ofExcept_bind_ok run
  simp only [on_set_bind, on_get_bind] at run
  obtain ⟨_, checked, run⟩ := on_ofExcept_bind_ok run
  cases run
  exact ⟨.of_samePage decodes.samePage ⟨⟨rfl, rfl, rfl⟩, rfl, checked⟩, rfl⟩

/-- How a call to remove a row succeeds: the row was there, and it is off the leaf and the store
knows, or nothing has changed. -/
theorem remove_ok {target : Row} {answer : Removal}
    (run : (remove index target).on leaf engine = ((.ok answer, later), after)) :
    (∃ only, answer = .emptied only ∧ (∃ n, leaf.Decodes index n later) ∧
        after.store = engine.store) ∨
      (answer = .unchanged ∨ ∃ last, answer = .lastChanged last) ∧ leaf.Changes index later ∧
        engine.store.note leaf.id = .ok after.store := by
  obtain ⟨slot, searched, _, search, run⟩ := on_bind_ok run
  obtain ⟨n, decodes, rfl⟩ := (search_peeks index .removal target).ended search
  obtain ⟨held, looked, _, look, run⟩ := on_bind_ok run
  obtain ⟨m, more, rfl⟩ := (holds_peeks index slot target).ended look
  have decodes := decodes.trans more
  by_cases absent : !held
  · rw [if_pos absent, on_get_bind] at run
    cases run
  rw [if_neg absent, on_get_bind] at run
  by_cases only : looked.count = 1
  · rw [if_pos only] at run
    obtain ⟨row, seen, _, see, run⟩ := on_bind_ok run
    obtain ⟨k, last, rfl⟩ := (row_peeks index slot).ended see
    rw [on_get_bind, on_report_bind] at run
    cases run
    exact .inl ⟨row, rfl, ⟨_, decodes.trans last⟩, rfl⟩
  rw [if_neg only] at run
  obtain ⟨_, removed, between, take, run⟩ := on_bind_ok run
  obtain ⟨changes, still⟩ := removeAt_ok take
  have changes : leaf.Changes index removed := .of_samePage decodes.samePage changes
  rw [on_get_bind] at run
  obtain ⟨_, _, noting, told, rest⟩ := on_bind_ok run
  obtain ⟨same, noted⟩ := on_notePage_ok told
  rw [changes.id, still] at noted
  rw [same, on_get_bind] at rest
  by_cases final : slot = removed.count
  · rw [if_pos final] at rest
    obtain ⟨row, seen, _, see, rest⟩ := on_bind_ok rest
    obtain ⟨k, last, rfl⟩ := (row_peeks index (slot - 1)).ended see
    cases rest
    exact .inr ⟨.inr ⟨row, rfl⟩, changes.decodes last, noted⟩
  · rw [if_neg final] at rest
    cases rest
    exact .inr ⟨.inl rfl, changes, noted⟩

/-- Rows that were moved have changed both leaves, and the store was told of the second at each. -/
theorem moveRows_ok {slot n : Nat} {target right : Leaf}
    (run : (moveRows index slot n target).on leaf engine = ((.ok right, later), after)) :
    engine.store.Works (List.replicate n target.id) after.store ∧
      (n = 0 ∧ later = leaf ∧ right = target ∨
        leaf.Changes index later ∧ target.Changes index right) := by
  induction n generalizing leaf target engine with
  | zero =>
    cases run
    exact ⟨.rest, .inl ⟨rfl, rfl, rfl⟩⟩
  | succ n ih =>
    obtain ⟨row, looked, _, look, run⟩ := on_bind_ok run
    obtain ⟨m, decodes, rfl⟩ := (row_peeks index slot).ended look
    obtain ⟨⟨answer, filled⟩, _, between, put, run⟩ := on_bind_ok run
    rw [on_onOther] at put
    rcases inserted : (insert index row).on target (engine.counted .rowsDecoded m) with
      ⟨⟨fault | answer, other⟩, noting⟩
    · rw [inserted] at put
      cases put
    rw [inserted] at put
    cases put
    rcases insert_ok inserted with ⟨rfl, grown, noted⟩ | ⟨⟨point, rfl⟩, _⟩
    · obtain ⟨_, shrunk, between, take, run⟩ := on_bind_ok run
      obtain ⟨changes, still⟩ := removeAt_ok take
      have changes : leaf.Changes index shrunk := .of_samePage decodes.samePage changes
      obtain ⟨works, rest⟩ := ih run
      rw [still, grown.id] at works
      rw [List.replicate_succ']
      refine ⟨(Store.Works.rest.note noted).trans works, .inr ?_⟩
      rcases rest with ⟨_, rfl, rfl⟩ | ⟨left, right⟩
      · exact ⟨changes, grown⟩
      · exact ⟨changes.trans left, grown.trans right⟩
    · cases run

/-- A split that succeeds has changed both leaves. The store was told of the new one alone. -/
theorem split_ok {point : Nat} {right : Leaf}
    (run : (split index point).on leaf engine = ((.ok right, later), after)) :
    leaf.Changes index later ∧
      (create index right.id leaf.parent leaf.form).Changes index right ∧
      ∃ middle moved, 0 < moved ∧ engine.store.allocate = .ok (right.id, middle) ∧
        middle.Works (List.replicate moved right.id) after.store := by
  simp only [split, on_get_bind] at run
  obtain ⟨inside, run⟩ := on_guard_ok run
  obtain ⟨id, _, between, handed, run⟩ := on_bind_ok run
  rw [on_engine] at handed
  rcases allocated : Engine.allocatePage.on engine with ⟨fault | page, giving⟩
  · rw [allocated] at handed
    cases handed
  rw [allocated] at handed
  cases handed
  obtain ⟨_, loaded, _, load, run⟩ := on_bind_ok run
  obtain ⟨m, decodes, rfl⟩ := (loadRows_peeks index).ended load
  obtain ⟨other, moved, _, move, run⟩ := on_bind_ok run
  rw [on_count_bind, on_report_bind] at run
  cases run
  obtain ⟨works, none | ⟨left, filled⟩⟩ := moveRows_ok move
  · omega
  · have same : right.id = id := filled.id
    subst same
    exact ⟨.of_samePage decodes.samePage left, filled, _, _, by omega,
      Engine.allocatePage_ok allocated, works⟩

theorem setParent_on (parent : Option PageId) (leaf : Leaf) (engine : Engine) :
    (setParent parent).on leaf engine = ((.ok (),
      if leaf.parent = parent then leaf else { leaf with parent, written := false }), engine) := by
  rw [setParent, on_get_bind]
  by_cases same : leaf.parent = parent
  · rw [if_neg (not_not_intro same), if_pos same]
    rfl
  · rw [if_pos same, if_neg same]
    rfl

theorem setParent_ok {parent : Option PageId}
    (run : (setParent parent).on leaf engine = ((.ok (), later), after)) :
    later.id = leaf.id ∧ after = engine := by
  rw [setParent_on] at run
  cases run
  refine ⟨?_, rfl⟩
  split <;> rfl

/-- A write that succeeds leaves a leaf that has not changed alone. Of one that has, the store took
an image. -/
theorem write_ok (run : (write index).on leaf engine = ((.ok (), later), after)) :
    (leaf.isDirty = false ∧ later = leaf ∧ after = engine) ∨
      leaf.isDirty ∧ later.id = leaf.id ∧ later.isDirty = false ∧
        engine.store.write leaf.id later.image = .ok after.store := by
  simp only [write, on_get_bind] at run
  cases dirty : leaf.isDirty with
  | false =>
    rw [dirty, if_neg Bool.false_ne_true] at run
    cases run
    exact .inl ⟨rfl, rfl, rfl⟩
  | true =>
    rw [dirty, if_pos rfl] at run
    obtain ⟨_, rendered, _, render, run⟩ := on_bind_ok run
    obtain ⟨_, loaded, _, load, render⟩ := on_bind_ok render
    obtain ⟨n, decodes, rfl⟩ := (loadRows_peeks index).ended load
    simp only [on_get_bind] at render
    obtain ⟨_, render⟩ := on_guard_ok render
    rw [on_set_bind, on_ofExcept] at render
    simp only [Prod.mk.injEq] at render
    obtain ⟨⟨_, rfl⟩, rfl⟩ := render
    rw [on_get_bind] at run
    obtain ⟨_, _, between, handed, run⟩ := on_bind_ok run
    obtain ⟨rfl, stored⟩ := on_writePage_ok handed
    rw [on_set_bind, on_count_bind, on_report] at run
    simp only [Prod.mk.injEq] at run
    obtain ⟨⟨_, rfl⟩, rfl⟩ := run
    rw [show ({ loaded with image := ((loaded.put index).apply (.zeros loaded.image.size)).2 } :
      Leaf).id = leaf.id from decodes.id] at stored
    exact .inr ⟨rfl, decodes.id, rfl, stored⟩

/-! ## Where leaves come from -/

theorem parent_of_decode {image : Buffer} {header : Header}
    (decoded : Header.decode image = .ok header) : header.parent ≠ some .reserved := by
  simp only [Header.decode] at decoded
  obtain ⟨_, decoded⟩ := except_guard_ok decoded
  obtain ⟨type, _, decoded⟩ := except_bind_ok decoded
  obtain ⟨kind, _, decoded⟩ := except_bind_ok decoded
  obtain ⟨_, decoded⟩ := except_guard_ok decoded
  obtain ⟨parent, _, decoded⟩ := except_bind_ok decoded
  obtain ⟨table, _, decoded⟩ := except_bind_ok decoded
  obtain ⟨count, _, decoded⟩ := except_bind_ok decoded
  obtain ⟨_, decoded⟩ := except_guard_ok decoded
  cases decoded
  exact PageId.ofParentField_ne_reserved _

/-- Offsets are taken that lie in `[start, stop)` and do not ascend from the ceiling on. -/
theorem checkOffsets_ok_iff {start stop ceiling : Nat} {offsets : List Nat} :
    checkOffsets start stop ceiling offsets = .ok () ↔
      (∀ offset ∈ offsets, start ≤ offset ∧ offset < stop) ∧
        (ceiling :: offsets).Pairwise (· ≥ ·) := by
  induction offsets generalizing ceiling with
  | nil => exact iff_of_true rfl ⟨nofun, List.pairwise_singleton ..⟩
  | cons offset rest ih =>
    rw [checkOffsets, List.forall_mem_cons, List.pairwise_cons_cons_iff_of_trans]
    constructor
    · intro checked
      obtain ⟨inside, checked⟩ := except_guard_ok checked
      obtain ⟨descends, checked⟩ := except_guard_ok checked
      obtain ⟨within, falls⟩ := ih.mp checked
      exact ⟨⟨by omega, within⟩, by omega, falls⟩
    · rintro ⟨⟨inside, within⟩, descends, falls⟩
      rw [if_neg (by omega), if_neg (by omega)]
      exact ih.mpr ⟨within, falls⟩

/-- What an image has that shows a leaf. Of its rows nothing is known but that they start on the
page, none above the one before it. -/
theorem ofImage_ok {id : PageId} {image : Buffer} (shown : ofImage index id image = .ok leaf) :
    image.size = index.pageSize ∧ ∃ header offsets, Header.decode image = .ok header ∧
      header.table = index.table ∧ OffsetTable.decode image header.count.toNat = .ok offsets ∧
      checkOffsets header.offsetsEnd image.size image.size offsets = .ok () ∧
      leaf = ⟨id, header.parent, header.form, offsets.map (⟨·, none⟩), true, image⟩ := by
  rw [ofImage] at shown
  obtain ⟨sized, shown⟩ := except_guard_ok shown
  obtain ⟨header, decoded, shown⟩ := except_bind_ok shown
  obtain ⟨own, shown⟩ := except_guard_ok shown
  obtain ⟨offsets, listed, shown⟩ := except_bind_ok shown
  obtain ⟨_, checked, shown⟩ := except_bind_ok shown
  cases shown
  exact ⟨not_not.mp sized, header, offsets, decoded, not_not.mp own, listed, checked, rfl⟩

/-- Whether a leaf is read is up to the image alone. -/
theorem read_on (index : Index) (page : PageId) (image : Buffer) (engine : Engine) :
    (read index page image).on engine =
      match ofImage index page image with
      | .error fault => (.error fault, engine)
      | .ok leaf =>
        (.ok leaf,
          (engine.counted .pagesRead 1).reported (.leafRead page leaf.count leaf.form)) := by
  rw [read, EngineCall.on_bind, EngineCall.on_ofExcept]
  cases ofImage index page image with
  | error fault => rfl
  | ok leaf => rfl

theorem load_on (index : Index) (id : PageId) (engine : Engine) :
    (load index id).on engine =
      match engine.store.read id with
      | .error fault => (.error fault, engine)
      | .ok image => (read index id image).on engine := by
  simp only [load, Engine.readPage, EngineCall.on_bind, EngineCall.on_get, EngineCall.on_ofExcept]
  cases engine.store.read id <;> rfl

theorem load_ok {id : PageId} (run : (load index id).on engine = (.ok leaf, after)) :
    after.store = engine.store ∧
      ∃ image, engine.store.read id = .ok image ∧ ofImage index id image = .ok leaf := by
  rw [load_on] at run
  cases kept : engine.store.read id with
  | error fault =>
    rw [kept] at run
    cases run
  | ok image =>
    simp only [kept, read_on] at run
    cases shown : ofImage index id image with
    | error fault =>
      rw [shown] at run
      cases run
    | ok seen =>
      rw [shown] at run
      cases run
      exact ⟨rfl, image, rfl, shown⟩

theorem load_store (index : Index) (id : PageId) (engine : Engine) :
    ((load index id).on engine).2.store = engine.store := by
  rw [load_on]
  cases engine.store.read id with
  | error fault => rfl
  | ok image =>
    simp only [read_on]
    cases ofImage index id image <;> rfl

theorem createRoot_on (index : Index) (engine : Engine) :
    (createRoot index).on engine =
      match Engine.allocatePage.on engine with
      | (.error fault, engine) => (.error fault, engine)
      | (.ok id, engine) =>
        match (write index).on (create index id none .full) engine with
        | ((outcome, leaf), engine) => (outcome.map fun _ => leaf, engine) := by
  rw [createRoot, EngineCall.on_bind]
  rcases Engine.allocatePage.on engine with ⟨fault | id, middle⟩ <;> rfl

theorem createRoot_ok (run : (createRoot index).on engine = (.ok leaf, after)) :
    leaf.isDirty = false ∧ ∃ middle, engine.store.allocate = .ok (leaf.id, middle) ∧
      middle.write leaf.id leaf.image = .ok after.store := by
  rw [createRoot_on] at run
  rcases allocated : Engine.allocatePage.on engine with ⟨fault | id, middle⟩
  · rw [allocated] at run
    cases run
  rw [allocated] at run
  rcases written : (write index).on (create index id none .full) middle with
    ⟨⟨outcome, later⟩, between⟩
  simp only [written] at run
  cases outcome with
  | error fault => cases run
  | ok _ =>
    cases run
    rcases write_ok written with ⟨clean, _⟩ | ⟨_, same, clean, stored⟩
    · cases clean
    · have same : later.id = id := same
      subst same
      exact ⟨clean, _, Engine.allocatePage_ok allocated, stored⟩

end Leaf

end SlottedLeaf
