import SlottedLeaf.Proofs.Effects
import SlottedLeaf.Proofs.Insertion

/-!
# How insertions end

Whatever leaf a row is put on, and whatever the rows on it are, there are few ways for the insertion
to end. Up to the point where every row is decoded nothing has changed; from there on the leaf holds
its entries, and what goes wrong is a breach of the layout, or a page that the store does not note.
Each way is one case with the leaf and the engine as the call leaves them.
-/

namespace SlottedLeaf

open RowEntry LeafCall

variable {index : Index} {leaf later : Leaf} {engine after : Engine} {row : Row}

namespace Leaf

/-! ## Slots -/

section

variable {size : Row → Nat} {top length : Nat} {entries before behind : List RowEntry}
  {entry : RowEntry}

theorem mapM_lowered_cases (length : Nat) (entries : List RowEntry) :
    ((entries.map RowEntry.slot).mapM fun other => do
        return { other with offset := ← lowered length other.offset } : Except Fault (List Slot)) =
      .ok ((shiftDown length entries).map RowEntry.slot) ∨
    ((entries.map RowEntry.slot).mapM fun other => do
        return { other with offset := ← lowered length other.offset } : Except Fault (List Slot)) =
      .error (.internal .offsetUnderflow) := by
  induction entries with
  | nil => exact .inl rfl
  | cons entry rest ih =>
    rw [List.map_cons, List.mapM_cons]
    by_cases low : entry.slot.offset < length
    · rw [lowered, if_pos low]
      exact .inr rfl
    · rw [lowered, if_neg low]
      rcases ih with same | fails
      · rw [same]
        exact .inl rfl
      · rw [fails]
        exact .inr rfl

/-- Putting a row into decoded slots fails only for want of room. -/
theorem insertSlot_cases (top length : Nat) (row : Row) (before behind : List RowEntry) :
    insertSlot top before.length length row ((before ++ behind).map RowEntry.slot) =
        .ok ((insertBetween top length row before behind).map RowEntry.slot) ∨
      insertSlot top before.length length row ((before ++ behind).map RowEntry.slot) =
        .error (.internal .offsetUnderflow) := by
  have cut : (before.map RowEntry.slot).length = before.length := List.length_map ..
  rw [insertSlot, offsets_slots, ceiling_eq_lowest, List.map_append, List.drop_left' cut,
    List.take_left' cut, insertBetween, List.map_append]
  rcases mapM_lowered_cases length behind with same | fails
  · rw [same]
    by_cases low : lowest top before < length
    · rw [lowered, if_pos low]
      exact .inr rfl
    · rw [lowered, if_neg low]
      exact .inl rfl
  · rw [fails]
    exact .inr rfl

/-- Packing decoded slots fails only for want of room. -/
theorem packSlots_cases (size : Row → Nat) (top : Nat) (entries : List RowEntry) :
    packSlots size top (entries.map RowEntry.slot) =
        .ok ((pack size top (entries.map RowEntry.row)).map RowEntry.slot) ∨
      packSlots size top (entries.map RowEntry.slot) =
        .error (.internal .positionRowTooLarge) := by
  induction entries generalizing top with
  | nil => exact .inl rfl
  | cons entry rest ih =>
    simp only [List.map_cons, RowEntry.slot, packSlots]
    by_cases large : top < size entry.row
    · rw [if_pos large]
      exact .inr rfl
    · rw [if_neg large]
      rcases ih (top - size entry.row) with same | fails
      · exact .inl (congrArg (Except.map (_ :: ·)) same)
      · exact .inr (congrArg (Except.map (_ :: ·)) fails)

end

theorem checkSlots_cases (size : Row → Nat) (top : Nat) (previous : Option Row)
    (slots : List Slot) :
    (∃ low, checkSlots size top previous slots = .ok low) ∨
      ∃ cause, checkSlots size top previous slots = .error (.internal cause) := by
  induction slots generalizing top previous with
  | nil => exact .inl ⟨top, rfl⟩
  | cons slot rest ih =>
    obtain ⟨offset, _ | row⟩ := slot
    · exact .inr ⟨.rowNotLoaded, rfl⟩
    rw [checkSlots]
    by_cases overlap : top < offset + size row
    · rw [if_pos overlap]
      exact .inr ⟨.rowsOverlap, rfl⟩
    rw [if_neg overlap]
    by_cases disorder : previous.any fun previous => previous.compareRows row ≠ .lt
    · rw [if_pos disorder]
      exact .inr ⟨.rowsOutOfOrder, rfl⟩
    · rw [if_neg disorder]
      exact ih offset (some row)

/-- What a check of the layout finds wrong is a breach of it. -/
theorem checkInvariants_cases (index : Index) (leaf : Leaf) :
    leaf.checkInvariants index = .ok () ∨
      ∃ cause, leaf.checkInvariants index = .error (.internal cause) := by
  rw [checkInvariants]
  by_cases asked : index.options.checkInvariants
  · rw [if_pos asked, checkLayout]
    rcases checkSlots_cases (index.format.size leaf.form) index.pageSize none leaf.slots with
      ⟨low, found⟩ | ⟨cause, fails⟩
    · rw [found]
      by_cases overlap : low < leaf.start
      · exact .inr ⟨.rowsOverlapTable, if_pos overlap⟩
      · exact .inl (if_neg overlap)
    · rw [fails]
      exact .inr ⟨cause, rfl⟩
  · rw [if_neg asked]
    exact .inl rfl

/-! ## Putting a row in -/

/-- How a row is placed among the entries of a leaf. -/
inductive Placing (index : Index) (leaf : Leaf) (before behind : List RowEntry) (row : Row)
    (engine : Engine) : Except Fault Unit → Leaf → Engine → Prop where
  /-- There is no room below the rows. -/
  | unmoved : Placing index leaf before behind row engine (.error (.internal .offsetUnderflow))
      (leaf.holding (before ++ behind)) engine
  /-- The layout is out of order then. -/
  | unsound (cause : Breach) : Placing index leaf before behind row engine
      (.error (.internal cause))
      (leaf.changed (insertBetween index.pageSize (index.format.size leaf.form row) row before
        behind)) engine
  /-- The store does not note the page. -/
  | unnoted (store : Store) : Placing index leaf before behind row engine
      (.error (.invalid .reservedPage))
      (leaf.changed (insertBetween index.pageSize (index.format.size leaf.form row) row before
        behind)) (engine.stored store)
  | placed (store : Store) : Placing index leaf before behind row engine (.ok ())
      (leaf.changed (insertBetween index.pageSize (index.format.size leaf.form row) row before
        behind))
      (((engine.stored store).counted .rowsInserted 1).reported
        (.rowInserted leaf.id before.length (index.format.size leaf.form row)))

theorem placing (index : Index) (leaf : Leaf) (before behind : List RowEntry) (row : Row)
    (engine : Engine) :
    ∃ outcome later after, (place index before.length row).on (leaf.holding (before ++ behind))
        engine = ((outcome, later), after) ∧
      Placing index leaf before behind row engine outcome later after := by
  rw [place, on_get_bind, on_bind, on_ofExcept, form_holding, slots_holding]
  rcases insertSlot_cases index.pageSize (index.format.size leaf.form row) row before behind with
    moved | fails
  · rw [moved]
    simp only [on_set_bind, on_get_bind, id_holding, parent_holding, image_holding, changed_mk]
    rw [on_bind, on_ofExcept]
    rcases checkInvariants_cases index (leaf.changed (insertBetween index.pageSize
      (index.format.size leaf.form row) row before behind)) with checked | ⟨cause, fails⟩
    · obtain ⟨store, noted, _⟩ := engine.notePage_on leaf.id
      rw [checked]
      simp only [on_bind, on_engine, noted]
      by_cases reserved : leaf.id = .reserved
      · rw [checkPageId, if_pos reserved]
        exact ⟨_, _, _, rfl, .unnoted store⟩
      · rw [checkPageId, if_neg reserved]
        exact ⟨_, _, _, rfl, .placed store⟩
    · rw [fails]
      exact ⟨_, _, _, rfl, .unsound cause⟩
  · rw [fails]
    exact ⟨_, _, _, rfl, .unmoved⟩

/-- A search that ends has found one of the slots, or the end of them. -/
theorem searchBetween_le (aim : Aim) (target : Row) (low high : Nat) :
    ∀ {leaf later : Leaf} {engine after : Engine} {slot : Nat}, low ≤ high →
      (searchBetween index aim target low high).on leaf engine = ((.ok slot, later), after) →
      slot ≤ high := by
  induction low, high using searchBetween.induct
  case case1 low high inside middle above below =>
    intro leaf later engine after slot ordered run
    rw [searchBetween, if_pos inside] at run
    obtain ⟨other, _, _, _, run⟩ := on_bind_ok run
    cases turn : aim.turn index target other with
    | after =>
      rw [turn] at run
      exact above (by omega) run
    | before =>
      rw [turn] at run
      exact Nat.le_trans (below (by omega) run) (by omega)
    | found =>
      rw [turn] at run
      cases run
      omega
    | clash =>
      rw [turn] at run
      cases run
  case case2 low high empty =>
    intro leaf later engine after slot ordered run
    rw [searchBetween, if_neg empty] at run
    cases run
    exact ordered

/-- Once every row is decoded a search fails only where the row sought may not join another. -/
theorem searchBetween_error (aim : Aim) (target : Row) (entries : List RowEntry) (low high : Nat) :
    ∀ {leaf later : Leaf} {engine after : Engine} {fault : Fault}, high ≤ entries.length →
      (searchBetween index aim target low high).on (leaf.holding entries) engine =
        ((.error fault, later), after) →
      fault = .duplicateKey leaf.id target := by
  induction low, high using searchBetween.induct
  case case1 low high inside middle above below =>
    intro leaf later engine after fault within run
    have known : middle < entries.length := by omega
    have here : (leaf.holding entries).slots[middle]? =
        some ⟨entries[middle].offset, some entries[middle].row⟩ := by
      rw [slots_holding, List.getElem?_map, List.getElem?_eq_getElem known]
      rfl
    rw [searchBetween, if_pos inside, on_bind, row_on] at run
    simp only [middle, here] at run
    cases turn : aim.turn index target entries[middle].row with
    | after =>
      rw [turn] at run
      exact above within run
    | before =>
      rw [turn] at run
      exact below (by omega) run
    | found =>
      rw [turn] at run
      cases run
    | clash =>
      rw [turn] at run
      cases run
      rfl
  case case2 low high empty =>
    intro leaf later engine after fault within run
    rw [searchBetween, if_neg empty] at run
    cases run

/-- The rows of a leaf are decoded one and all, unless they are not all rows. -/
theorem loadRows_cases (index : Index) (leaf : Leaf) (engine : Engine) :
    (∃ n entries, leaf.Shows index entries ∧ leaf.Decodes index n (leaf.holding entries) ∧
        (loadRows index).on leaf engine =
          ((.ok (), leaf.holding entries), engine.counted .rowsDecoded n)) ∨
      ∃ n middle fault, (∀ entries, ¬ leaf.Shows index entries) ∧ leaf.Decodes index n middle ∧
        (loadRows index).on leaf engine =
          ((.error fault, middle), engine.counted .rowsDecoded n) := by
  rcases loads : (loadRows index).on leaf engine with ⟨⟨fault | _, loaded⟩, between⟩
  · obtain ⟨n, decodes, rfl⟩ := (loadRows_peeks index).ended loads
    refine .inr ⟨n, loaded, fault, ?_, decodes, rfl⟩
    intro entries shows
    obtain ⟨_, _, succeeds⟩ := shows.loadRows
    rw [succeeds] at loads
    cases loads
  · obtain ⟨n, decodes, rfl⟩ := (loadRows_peeks index).ended loads
    obtain ⟨entries, shows, rfl⟩ := shows_of_loadRows loads
    exact .inl ⟨n, entries, shows, decodes, rfl⟩

theorem compact_cases (index : Index) (leaf : Leaf) (entries : List RowEntry) (engine : Engine) :
    (compact index).on (leaf.holding entries) engine =
        ((.ok (), leaf.compacted.holding
          (pack (index.format.size .positionOnly) index.pageSize (entries.map RowEntry.row))),
          engine.turned index leaf entries.length) ∨
      packSlots (index.format.size .positionOnly) index.pageSize (entries.map RowEntry.slot) =
          .error (.internal .positionRowTooLarge) ∧
        (compact index).on (leaf.holding entries) engine =
          ((.error (.internal .positionRowTooLarge),
            { leaf.holding entries with form := .positionOnly }), engine) := by
  rcases packSlots_cases (index.format.size .positionOnly) index.pageSize entries with
    packs | fails
  · exact .inl (compact_of_packs packs engine)
  · refine .inr ⟨fails, ?_⟩
    rw [compact, on_get_bind, on_modify_bind, on_bind, on_ofExcept, slots_holding, fails]
    rfl

/-- How the insertion of a row ends on whatever leaf. -/
inductive Tries (index : Index) (leaf : Leaf) (row : Row) (engine : Engine) :
    Except Fault Insertion → Leaf → Engine → Prop where
  /-- Not every row decodes. -/
  | undecoded {n : Nat} {middle : Leaf} {fault : Fault} (decodes : leaf.Decodes index n middle)
      (unshown : ∀ entries, ¬ leaf.Shows index entries) :
      Tries index leaf row engine (.error fault) middle (engine.counted .rowsDecoded n)
  /-- The row may not join one that is here. -/
  | refused {n : Nat} {entries : List RowEntry}
      (decodes : leaf.Decodes index n (leaf.holding entries)) :
      Tries index leaf row engine (.error (.duplicateKey leaf.id row)) (leaf.holding entries)
        (engine.counted .rowsDecoded n)
  /-- There is no room, and the leaf can be split. -/
  | signalled {n : Nat} {entries : List RowEntry}
      (decodes : leaf.Decodes index n (leaf.holding entries))
      (short : ¬ leaf.fits index (index.format.size leaf.form row)) (several : 1 < entries.length) :
      Tries index leaf row engine (.ok (.splitAt (entries.length / 2))) (leaf.holding entries)
        (((engine.counted .rowsDecoded n).counted .splitSignals 1).reported
          (.splitSignalled leaf.id entries.length (entries.length / 2)))
  /-- There is room. -/
  | fitted {n : Nat} {before behind : List RowEntry} {outcome : Except Fault Unit} {later : Leaf}
      {after : Engine} (decodes : leaf.Decodes index n (leaf.holding (before ++ behind)))
      (fits : leaf.fits index (index.format.size leaf.form row))
      (places : Placing index leaf before behind row (engine.counted .rowsDecoded n) outcome later
        after) :
      Tries index leaf row engine (outcome.map fun _ => .inserted) later after
  /-- There is no room, and none for the rows that are here once they are position-only. -/
  | stuck {n : Nat} {entries : List RowEntry}
      (decodes : leaf.Decodes index n (leaf.holding entries))
      (short : ¬ leaf.fits index (index.format.size leaf.form row)) (few : entries.length ≤ 1)
      (large : packSlots (index.format.size .positionOnly) index.pageSize
        (entries.map RowEntry.slot) = .error (.internal .positionRowTooLarge)) :
      Tries index leaf row engine (.error (.internal .positionRowTooLarge))
        { leaf.holding entries with form := .positionOnly } (engine.counted .rowsDecoded n)
  /-- There is no room once the rows are position-only either. -/
  | crowded {n : Nat} {entries : List RowEntry}
      (decodes : leaf.Decodes index n (leaf.holding entries))
      (short : ¬ leaf.fits index (index.format.size leaf.form row)) (few : entries.length ≤ 1) :
      Tries index leaf row engine (.error (.internal .rowDoesNotFit))
        (leaf.compacted.holding
          (pack (index.format.size .positionOnly) index.pageSize (entries.map RowEntry.row)))
        ((engine.counted .rowsDecoded n).turned index leaf entries.length)
  /-- There is room once the rows are position-only. -/
  | compacted {n : Nat} {entries before behind : List RowEntry} {outcome : Except Fault Unit}
      {later : Leaf} {after : Engine} (decodes : leaf.Decodes index n (leaf.holding entries))
      (short : ¬ leaf.fits index (index.format.size leaf.form row)) (few : entries.length ≤ 1)
      (packed : before ++ behind =
        pack (index.format.size .positionOnly) index.pageSize (entries.map RowEntry.row))
      (fits : (leaf.compacted.holding (before ++ behind)).fits index
        (index.format.size .positionOnly row))
      (places : Placing index leaf.compacted before behind row
        ((engine.counted .rowsDecoded n).turned index leaf entries.length) outcome later after) :
      Tries index leaf row engine (outcome.map fun _ => .inserted) later after

theorem place_inserted {before behind : List RowEntry} {outcome : Except Fault Insertion}
    (run : (do
        place index before.length row
        return .inserted : LeafCall Insertion).on (leaf.holding (before ++ behind)) engine =
      ((outcome, later), after)) :
    ∃ placed, outcome = placed.map (fun _ => .inserted) ∧
      Placing index leaf before behind row engine placed later after := by
  obtain ⟨placed, last, ended, same, places⟩ := placing index leaf before behind row engine
  rw [on_bind, same] at run
  cases placed with
  | error fault =>
    cases run
    exact ⟨.error fault, rfl, places⟩
  | ok _ =>
    cases run
    exact ⟨.ok (), rfl, places⟩

/-- What is left to do where there is no room, and no second row to be split off. -/
theorem compact_tries {n slot : Nat} {entries : List RowEntry} {outcome : Except Fault Insertion}
    (decodes : leaf.Decodes index n (leaf.holding entries))
    (short : ¬ leaf.fits index (index.format.size leaf.form row)) (few : entries.length ≤ 1)
    (inside : slot ≤ entries.length)
    (run : (do
        compact index
        let leaf ← get
        if !leaf.fits index (index.format.size leaf.form row) then
          throw (.internal .rowDoesNotFit)
        place index slot row
        return .inserted : LeafCall Insertion).on (leaf.holding entries)
          (engine.counted .rowsDecoded n) = ((outcome, later), after)) :
    leaf.Tries index row engine outcome later after := by
  rw [on_bind] at run
  rcases compact_cases index leaf entries (engine.counted .rowsDecoded n) with
    turns | ⟨large, fails⟩
  case inr =>
    rw [fails] at run
    cases run
    exact .stuck decodes short few large
  rw [turns] at run
  simp only [on_get_bind, form_holding, form_compacted] at run
  by_cases room : (leaf.compacted.holding (pack (index.format.size .positionOnly) index.pageSize
      (entries.map RowEntry.row))).fits index (index.format.size .positionOnly row)
  · have length : (pack (index.format.size .positionOnly) index.pageSize
        (entries.map RowEntry.row)).length = entries.length := by
      rw [length_pack, List.length_map]
    obtain ⟨before, behind, packed, rfl⟩ : ∃ before behind, before ++ behind =
        pack (index.format.size .positionOnly) index.pageSize (entries.map RowEntry.row) ∧
        slot = before.length :=
      ⟨_, _, List.take_append_drop slot _, (List.length_take_of_le (length ▸ inside)).symm⟩
    rw [← packed] at room run
    simp only [room, Bool.not_true] at run
    rw [if_neg Bool.false_ne_true] at run
    obtain ⟨placed, rfl, places⟩ := place_inserted run
    exact .compacted decodes short few packed room places
  · rw [Bool.not_eq_true] at room
    simp only [room, Bool.not_false, if_true] at run
    cases run
    exact .crowded decodes short few

theorem insert_tries {outcome : Except Fault Insertion}
    (run : (insert index row).on leaf engine = ((outcome, later), after)) :
    leaf.Tries index row engine outcome later after := by
  rw [insert, on_bind] at run
  rcases loadRows_cases index leaf engine with ⟨n, entries, shows, decodes, loads⟩ |
    ⟨n, middle, fault, unshown, decodes, loads⟩
  case inr =>
    rw [loads] at run
    cases run
    exact .undecoded decodes unshown
  rw [loads] at run
  simp only [on_bind] at run
  rcases searched : (search index .insertion row).on (leaf.holding entries)
      (engine.counted .rowsDecoded n) with ⟨⟨fault | slot, middle⟩, between⟩
  · obtain ⟨m, more, rfl⟩ := (search_peeks index .insertion row).ended searched
    obtain ⟨rfl, rfl⟩ := more.of_holding
    rw [searched] at run
    cases run
    rw [search, on_get_bind, count_holding] at searched
    obtain rfl := searchBetween_error .insertion row entries 0 entries.length le_rfl searched
    rw [Engine.counted_zero]
    exact .refused decodes
  obtain ⟨m, more, rfl⟩ := (search_peeks index .insertion row).ended searched
  obtain ⟨rfl, rfl⟩ := more.of_holding
  have inside : slot ≤ entries.length := by
    rw [search, on_get_bind, count_holding] at searched
    exact searchBetween_le .insertion row 0 entries.length (Nat.zero_le _) searched
  rw [searched, Engine.counted_zero] at run
  simp only [on_get, form_holding, count_holding, id_holding, shows.fits_holding] at run
  by_cases fits : leaf.fits index (index.format.size leaf.form row)
  · obtain ⟨before, behind, rfl, rfl⟩ : ∃ before behind, entries = before ++ behind ∧
        slot = before.length :=
      ⟨_, _, (List.take_append_drop slot entries).symm, (List.length_take_of_le inside).symm⟩
    rw [if_pos fits] at run
    obtain ⟨placed, rfl, places⟩ := place_inserted run
    exact .fitted decodes fits places
  rw [if_neg fits] at run
  by_cases several : 1 < entries.length
  · rw [if_pos several] at run
    cases run
    exact .signalled decodes fits several
  have few : entries.length ≤ 1 := Nat.le_of_not_lt several
  rw [if_neg several] at run
  exact compact_tries decodes fits few inside run

end Leaf

end SlottedLeaf
