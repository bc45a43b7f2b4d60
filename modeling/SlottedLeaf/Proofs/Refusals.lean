import SlottedLeaf.Proofs.Endings

/-!
# Refused changes

An insertion or a removal can be turned down late: after a search, after all rows were decoded, or
in the middle of decoding them. By then nothing has happened but that rows were decoded, for every
way out comes before the leaf first changes. This holds of any leaf, whatever its image says.
-/

namespace SlottedLeaf

open LeafCall

variable {index : Index} {leaf later : Leaf} {engine after : Engine} {row : Row}

/-- The row is not put in: it is there, the bytes of another cannot be read, or there is no room. -/
inductive Insertion.Refused : Except Fault Insertion → Prop where
  | duplicate (page : PageId) (row : Row) : Refused (.error (.duplicateKey page row))
  | corrupt {fault : Fault} (corrupt : fault.isCorruption) : Refused (.error fault)
  | full (point : Nat) : Refused (.ok (.splitAt point))

/-- The row is not taken off: it is not there, the bytes of another cannot be read, or there is no
other. -/
inductive Removal.Refused : Except Fault Removal → Prop where
  | absent (page : PageId) (row : Row) : Refused (.error (.rowNotFound page row))
  | corrupt {fault : Fault} (corrupt : fault.isCorruption) : Refused (.error fault)
  | only (row : Row) : Refused (.ok (.emptied row))

namespace Leaf

/-- A call left the leaf, the store and the counts as they were, but for rows that it decoded and
splits that it asked for. -/
structure Spares (index : Index) (leaf later : Leaf) (engine after : Engine) : Prop
    extends leaf.Untouched index later where
  store : after.store = engine.store
  stats : ∀ counter, counter ≠ .rowsDecoded → counter ≠ .splitSignals →
    after.stats.get counter = engine.stats.get counter

theorem Decodes.spares {n : Nat} (decodes : leaf.Decodes index n later)
    (store : after.store = engine.store)
    (stats : after.stats = engine.stats.add .rowsDecoded n ∨
      after.stats = (engine.stats.add .rowsDecoded n).add .splitSignals 1) :
    leaf.Spares index later engine after := by
  refine ⟨decodes.untouched, store, ?_⟩
  intro counter not_decoded not_signals
  rcases stats with stats | stats <;> simp [stats, not_decoded, not_signals]

/-- Once a row is to be placed, the insertion is not refused any more, however it ends. -/
theorem Placing.not_refused {source : Leaf} {before behind : List RowEntry}
    {outcome : Except Fault Unit}
    (places : Placing index source before behind row engine outcome later after) :
    ¬ Insertion.Refused (outcome.map fun _ => .inserted) := by
  cases places <;> rintro (_ | corrupt | _) <;> cases corrupt

/-- A refused insertion has only decoded rows, and perhaps asked for a split. -/
theorem Tries.of_refused {outcome : Except Fault Insertion}
    (tries : leaf.Tries index row engine outcome later after)
    (refused : Insertion.Refused outcome) :
    ∃ n, leaf.Decodes index n later ∧ after.store = engine.store ∧
      (after.stats = engine.stats.add .rowsDecoded n ∨
        after.stats = (engine.stats.add .rowsDecoded n).add .splitSignals 1) := by
  cases tries with
  | undecoded decodes _ => exact ⟨_, decodes, rfl, .inl rfl⟩
  | refused decodes => exact ⟨_, decodes, rfl, .inl rfl⟩
  | signalled decodes _ _ => exact ⟨_, decodes, rfl, .inr rfl⟩
  | fitted _ _ places => exact absurd refused places.not_refused
  | stuck _ _ _ _ =>
    rcases refused with _ | corrupt | _
    cases corrupt
  | crowded _ _ _ =>
    rcases refused with _ | corrupt | _
    cases corrupt
  | compacted _ _ _ _ _ places => exact absurd refused places.not_refused

/-- Once a row is off the leaf, the removal is not refused any more, however it ends. -/
theorem not_refused_of_taken (page : PageId) (before behind : List RowEntry) :
    ¬ Removal.Refused ((checkPageId page).map fun _ => .between before behind) := by
  by_cases reserved : page = .reserved
  · rw [checkPageId, if_pos reserved]
    rintro (_ | corrupt | _)
    cases corrupt
  · rw [checkPageId, if_neg reserved]
    intro refused
    generalize same : (Except.ok ()).map (fun _ => Removal.between before behind) = outcome
      at refused
    cases refused with
    | absent _ _ => cases same
    | corrupt _ => cases same
    | only row => exact Removal.between_ne_emptied before behind row (Except.ok.inj same)

/-- A refused removal has only decoded rows. -/
theorem Drops.of_refused {target : Row} {outcome : Except Fault Removal}
    (drops : leaf.Drops index target engine outcome later after)
    (refused : Removal.Refused outcome) :
    ∃ n, leaf.Decodes index n later ∧ after.store = engine.store ∧
      after.stats = engine.stats.add .rowsDecoded n := by
  cases drops with
  | failed decodes => exact ⟨_, decodes, rfl, rfl⟩
  | absent decodes => exact ⟨_, decodes, rfl, rfl⟩
  | only _ decodes => exact ⟨_, decodes, rfl, rfl⟩
  | unsound _ _ =>
    rcases refused with _ | corrupt | _
    cases corrupt
  | taken _ _ => exact absurd refused (not_refused_of_taken _ _ _)

/-- Whatever the leaf, a refused insertion or removal leaves no trace. Rows may be decoded then that
were not before, and a split may have been asked for; the leaf, the answers about its rows, the
store and all other counts are as they were. -/
theorem refusals_leave_no_trace (index : Index) (leaf : Leaf) (row : Row) (engine : Engine) :
    (∀ outcome later after, (insert index row).on leaf engine = ((outcome, later), after) →
        Insertion.Refused outcome → leaf.Spares index later engine after) ∧
      ∀ outcome later after, (remove index row).on leaf engine = ((outcome, later), after) →
        Removal.Refused outcome → leaf.Spares index later engine after := by
  constructor
  · intro outcome later after run refused
    obtain ⟨n, decodes, store, stats⟩ := (insert_tries run).of_refused refused
    exact decodes.spares store stats
  · intro outcome later after run refused
    obtain ⟨n, decodes, store, stats⟩ := (remove_drops run).of_refused refused
    exact decodes.spares store (.inl stats)

/-- A page of the smallest size with the rows a and b, and a third whose key goes past its end. -/
def frayed : Buffer :=
  #[0, 0, 0, 0, 0x84, 0, 0, 0, 1, 0, 3, 0, 54, 0, 44, 0, 34, 0, 0, 0, 0, 0, 0, 0, 0, 0, 0, 0,
    0, 0, 0, 0, 0, 0, 0, 0, 0, 0, 0, 0, 0, 3, 90, 99, 0, 0, 0, 0, 0, 0, 0, 2, 2, 98,
    0, 0, 0, 0, 0, 0, 0, 1, 2, 97]

/-- So it is when a removal finds its row and then cannot read another, and when an insertion asks
for a split. -/
theorem refusals_leave_no_trace_frayed :
    (∃ leaf later after, Leaf.ofImage .plain ⟨1⟩ frayed = .ok leaf ∧
        (remove .plain ⟨some [98], ⟨2⟩⟩).on leaf (.inMemory 64 1) =
          ((.error (.corruption .rowCut), later), after) ∧
        after.stats.rowsDecoded = 2 ∧ leaf.Spares .plain later (.inMemory 64 1) after) ∧
      let leaf := ofRows .plain ⟨1⟩ none .full [⟨none, ⟨1⟩⟩, ⟨none, ⟨2⟩⟩, ⟨none, ⟨3⟩⟩, ⟨none, ⟨4⟩⟩]
      ∃ later after, (insert .plain ⟨none, ⟨5⟩⟩).on leaf (.inMemory 64 1) =
          ((.ok (.splitAt 2), later), after) ∧
        after.stats.splitSignals = 1 ∧ leaf.Spares .plain later (.inMemory 64 1) after := by
  constructor
  · have shown : Leaf.ofImage .plain ⟨1⟩ frayed =
        .ok ⟨⟨1⟩, none, .full, [⟨54, none⟩, ⟨44, none⟩, ⟨34, none⟩], true, frayed⟩ := by rfl
    have outcome : ((remove .plain ⟨some [98], ⟨2⟩⟩).on ⟨⟨1⟩, none, .full, [⟨54, none⟩, ⟨44, none⟩,
        ⟨34, none⟩], true, frayed⟩ (.inMemory 64 1)).1.1 = .error (.corruption .rowCut) := by
      decide +kernel
    exact ⟨_, _, _, shown, on_eq outcome, by decide +kernel,
      (refusals_leave_no_trace .plain _ _ _).2 _ _ _ (on_eq outcome) (.corrupt rfl)⟩
  · intro leaf
    have outcome : ((insert .plain ⟨none, ⟨5⟩⟩).on leaf (.inMemory 64 1)).1.1 =
        .ok (.splitAt 2) := by decide +kernel
    exact ⟨_, _, on_eq outcome, by decide +kernel,
      (refusals_leave_no_trace .plain _ _ _).1 _ _ _ (on_eq outcome) (.full 2)⟩

end Leaf

end SlottedLeaf
