import SlottedLeaf.Proofs.Effects
import SlottedLeaf.Proofs.Walking

/-!
# Finding a bound

A find among rows that ascend by key counts: the rows below what is sought come first, and the
cursor goes to the slot of their number. It looks at few of them, because each look halves what is
left, and if one of those does not decode it goes no further.
-/

namespace SlottedLeaf

variable {α β σ : Type} {index : Index} {leaf later : Leaf} {entries : List RowEntry}
  {target : Row} {past : Bool}

/-! ## Bounds -/

namespace Row

/-- The keys of the rows ascend; rows of one key may be in any order. -/
def KeysAscend (rows : List Row) : Prop := rows.Pairwise fun a b => a.compareKeys b ≠ .gt

instance (rows : List Row) : Decidable (KeysAscend rows) :=
  inferInstanceAs (Decidable (List.Pairwise _ _))

/-- How many of the rows are below the key sought. -/
def bound (target : Row) (past : Bool) (rows : List Row) : Nat :=
  rows.countP (target.precedes past)

theorem precedes_of_keys {a b : Row} (ascend : a.compareKeys b ≠ .gt)
    (precedes : target.precedes past b) : target.precedes past a := by
  have first : (a.compareKeys b).isLE := Ordering.isLE_iff_ne_gt.mpr ascend
  cases past with
  | true => exact Std.TransCmp.isLE_trans first precedes
  | false =>
    have second := Ordering.isLT_iff_eq_lt.mp precedes
    exact Ordering.isLT_iff_eq_lt.mpr (Std.TransCmp.lt_of_isLE_of_lt first second)

end Row

namespace Leaf

theorem Steers.of_keysAscend (ascend : Row.KeysAscend (entries.map RowEntry.row)) :
    Steers ((Aim.bound past).turn index target) entries := by
  refine (List.pairwise_map.mp ascend).imp ?_
  intro a b keys
  rw [turn_bound, turn_bound]
  by_cases first : target.precedes past a.row
  · simp [first]
  · have second : ¬ target.precedes past b.row :=
      fun precedes => first (Row.precedes_of_keys keys precedes)
    simp [first, second]

/-- The search for a bound ends at the slot that is the number of the rows below it. -/
theorem seek_bound (target : Row) (past : Bool) (shows : leaf.Shows index entries)
    (ascend : Row.KeysAscend (entries.map RowEntry.row)) :
    (seek index target past).Looks index leaf
      (.ok (leaf.landing (target.bound past (entries.map RowEntry.row)))) := by
  have steers : Steers ((Aim.bound past).turn index target) entries := .of_keysAscend ascend
  obtain ⟨before, after, rfl, low, high, looks⟩ := shows.seek_looks steers
  have below : (before.map RowEntry.row).countP (target.precedes past) = before.length := by
    rw [← List.length_map RowEntry.row, List.countP_eq_length]
    refine List.forall_mem_map.mpr ?_
    intro entry member
    have turn := low entry member
    rw [turn_bound] at turn
    by_contra above
    simp [above] at turn
  have above : (after.map RowEntry.row).countP (target.precedes past) = 0 := by
    rw [List.countP_eq_zero]
    refine List.forall_mem_map.mpr ?_
    intro entry member below
    have turn := high entry member
    simp [turn_bound, below] at turn
  rw [Row.bound, List.map_append, List.countP_append, below, above, Nat.add_zero]
  exact looks

/-! ## Looks -/

/-- Each look of a search halves the slots that are left. -/
theorem searchBetween_glances (aim : Aim) (target : Row) {low high looks : Nat}
    (narrow : high - low < 2 ^ looks) (leaf : Leaf) :
    (searchBetween index aim target low high).Glances index leaf looks := by
  induction looks generalizing low high leaf with
  | zero =>
    rw [searchBetween, if_neg (by omega)]
    exact .of_still (.ok low) fun _ => rfl
  | succ looks ih =>
    rw [searchBetween]
    by_cases inside : low < high
    · rw [Nat.pow_succ] at narrow
      rw [if_pos inside, Nat.add_comm looks 1]
      refine (row_glances index ((low + high) / 2) leaf).bind ?_
      intro other n middle _
      cases aim.turn index target other with
      | after => exact ih (by omega) middle
      | before => exact ih (by omega) middle
      | found => exact .of_still (.ok ((low + high) / 2)) fun _ => rfl
      | clash => exact .of_still (.error (.duplicateKey middle.id target)) fun _ => rfl
    · rw [if_neg inside]
      exact .of_still (.ok low) fun _ => rfl

theorem seek_glances (index : Index) (target : Row) (past : Bool) (leaf : Leaf) :
    (seek index target past).Glances index leaf (leaf.count.log2 + 1) := by
  have narrow : leaf.count - 0 < 2 ^ (leaf.count.log2 + 1) := Nat.lt_log2_self
  obtain ⟨outcome, n, later, few, decodes, run⟩ :=
    searchBetween_glances (.bound past) target narrow leaf
  refine ⟨outcome.map later.landing, n, later, few, decodes, ?_⟩
  intro engine
  rw [seek_on, search, LeafCall.on_get_bind, run]
  cases outcome <;> rfl

/-- The slots of `[low, high)` that a search looks at, as long as their rows are shown and send it
on or back. -/
inductive Probes (shown : Nat → Except Fault Row) (turn : Row → Turn) : Nat → Nat → Nat → Prop where
  | middle {low high : Nat} (inside : low < high) : Probes shown turn low high ((low + high) / 2)
  | after {low high slot : Nat} {row : Row} (inside : low < high)
      (known : shown ((low + high) / 2) = .ok row) (onward : turn row = .after)
      (rest : Probes shown turn ((low + high) / 2 + 1) high slot) : Probes shown turn low high slot
  | before {low high slot : Nat} {row : Row} (inside : low < high)
      (known : shown ((low + high) / 2) = .ok row) (back : turn row = .before)
      (rest : Probes shown turn low ((low + high) / 2) slot) : Probes shown turn low high slot

/-- A search fails at a row that it looks at and cannot decode. -/
theorem searchBetween_of_probes {aim : Aim} {low high slot : Nat} {fault : Fault}
    (probes : Probes (leaf.shown index) (aim.turn index target) low high slot)
    (fails : leaf.shown index slot = .error fault) (engine : Engine) :
    ((searchBetween index aim target low high).on leaf engine).1.1 = .error fault := by
  generalize same : leaf.shown index = shown at probes fails
  induction probes generalizing leaf engine with
  | @middle low high inside =>
    have answer := row_outcome index ((low + high) / 2) leaf engine
    rw [same, fails] at answer
    rw [searchBetween, if_pos inside, LeafCall.on_bind, LeafCall.on_eq answer]
  | @after low high slot row inside known onward _ ih =>
    have answer := row_outcome index ((low + high) / 2) leaf engine
    rw [same, known] at answer
    obtain ⟨n, decodes, _⟩ := (row_peeks index _).ended (LeafCall.on_eq answer)
    rw [searchBetween, if_pos inside, LeafCall.on_bind, LeafCall.on_eq answer]
    simp only [onward]
    exact ih _ (decodes.shown.trans same) fails
  | @before low high slot row inside known back _ ih =>
    have answer := row_outcome index ((low + high) / 2) leaf engine
    rw [same, known] at answer
    obtain ⟨n, decodes, _⟩ := (row_peeks index _).ended (LeafCall.on_eq answer)
    rw [searchBetween, if_pos inside, LeafCall.on_bind, LeafCall.on_eq answer]
    simp only [back]
    exact ih _ (decodes.shown.trans same) fails

/-! ## Finds -/

/-- Where a find among rows that ascend by key takes the cursor, and with it the nodes above. -/
def finds (nodes : NodeLayer σ) (leaf : Leaf) (rows : List Row) (target : Row) (past : Bool)
    (walk : Cursor × σ) : Except Fault Unit × (Cursor × σ) :=
  if target.bound past rows < leaf.count then
    (.ok (), (⟨some leaf.id, target.bound past rows⟩, walk.2))
  else match leaf.parent with
    | some node => (nodes.find node target past).run.run walk
    | none => (.ok (), walk)

/-- A find on rows that ascend by key goes to the slot whose number is that of the rows below the
key sought; where there is no such slot, one call of the node above goes on, and a root leaves the
cursor alone. Whatever the leaf, it stays as it is but for the few rows that the find decodes. A row
that it looks at and cannot decode is what it fails with, and neither the cursor nor the nodes above
have moved then. -/
theorem find_counts (nodes : NodeLayer σ) (index : Index) (leaf : Leaf) (target : Row) (past : Bool)
    (walk : Cursor × σ) (engine : Engine) :
    let found := (((find nodes index target past).run.run walk).run leaf).run engine
    (∀ rows, leaf.Collects index rows → Row.KeysAscend rows →
        found.1.1 = finds nodes leaf rows target past walk) ∧
      (leaf.Untouched index found.1.2 ∧
        ∃ n ≤ leaf.count.log2 + 1, found.2 = engine.counted .rowsDecoded n) ∧
      ∀ slot fault,
        Probes (leaf.shown index) ((Aim.bound past).turn index target) 0 leaf.count slot →
        leaf.shown index slot = .error fault → found.1.1 = (.error fault, walk) := by
  intro found
  refine ⟨?_, ?_, ?_⟩
  · intro rows collects ascend
    obtain ⟨entries, shows, rfl⟩ := collects.shows
    obtain ⟨n, later, decodes, run⟩ := seek_bound target past shows ascend
    have ended : found.1.1 = ((leaf.landing (target.bound past (entries.map RowEntry.row))).follow
        nodes later.id target past).run.run walk := by
      rw [show found = _ from find_run nodes target past walk leaf engine, run]
    rw [ended, decodes.id, finds, landing]
    split
    · rfl
    · cases leaf.parent <;> rfl
  · obtain ⟨outcome, n, later, few, decodes, run⟩ := seek_glances index target past leaf
    have ended : found.1.2 = later ∧ found.2 = engine.counted .rowsDecoded n := by
      rw [show found = _ from find_run nodes target past walk leaf engine, run]
      cases outcome <;> exact ⟨rfl, rfl⟩
    exact ⟨ended.1 ▸ decodes.untouched, n, few, ended.2⟩
  · intro slot fault probes fails
    have failed := searchBetween_of_probes probes fails engine
    rw [show found = _ from find_run nodes target past walk leaf engine, seek_on, search,
      LeafCall.on_get_bind, LeafCall.on_eq failed]

/-- A page of the smallest size with one row, which starts at the last byte. -/
def overhanging : Buffer :=
  #[0, 0, 0, 0, 0x84, 0, 0, 0, 1, 0, 1, 0, 63, 0, 0, 0, 0, 0, 0, 0, 0, 0, 0, 0, 0, 0, 0, 0, 0, 0, 0,
    0, 0, 0, 0, 0, 0, 0, 0, 0, 0, 0, 0, 0, 0, 0, 0, 0, 0, 0, 0, 0, 0, 0, 0, 0, 0, 0, 0, 0, 0, 0, 0,
    0]

/-- So it is on a leaf with a run of equal keys, whose positions do not ascend, before a longer key,
and on one with a row that does not decode. -/
theorem find_counts_repeated :
    let nodes : NodeLayer (List PageId) :=
      ⟨fun node _ _ => modify fun walk => (walk.1, node :: walk.2), fun _ _ => pure (),
        fun _ _ => pure ()⟩
    let rows : List Row :=
      [⟨none, ⟨7⟩⟩, ⟨some [97], ⟨9⟩⟩, ⟨some [97], ⟨1⟩⟩, ⟨some [97, 98], ⟨2⟩⟩]
    let found (leaf : Leaf) (target : Row) (past : Bool) :=
      ((((find nodes .plain target past).run.run (.off, [])).run leaf).run (.inMemory 64 1)).1.1
    let leaf := ofRows .plain ⟨1⟩ (some ⟨9⟩) .full rows
    found leaf ⟨some [97], ⟨5⟩⟩ false = (.ok (), (⟨some ⟨1⟩, 1⟩, [])) ∧
      found leaf ⟨some [97], ⟨5⟩⟩ true = (.ok (), (⟨some ⟨1⟩, 3⟩, [])) ∧
      found leaf ⟨some [97, 98], ⟨5⟩⟩ true = (.ok (), (.off, [⟨9⟩])) ∧
      ∃ broken, ofImage .plain ⟨1⟩ overhanging = .ok broken ∧
        found broken ⟨none, ⟨5⟩⟩ false = (.error (.corruption .rowPositionCut), (.off, [])) := by
  intro nodes rows found leaf
  have collects : leaf.Collects .plain rows := (Shows.of_changed _ _).collects
  have ends (target : Row) (past : Bool) :
      found leaf target past = finds nodes leaf rows target past (.off, []) :=
    (find_counts nodes .plain leaf target past (.off, []) (.inMemory 64 1)).1 rows collects
      (by decide)
  have shown : ofImage .plain ⟨1⟩ overhanging =
      .ok ⟨⟨1⟩, none, .full, [⟨63, none⟩], true, overhanging⟩ := by rfl
  refine ⟨(ends _ _).trans (by rfl), (ends _ _).trans (by rfl), (ends _ _).trans (by rfl), _,
    shown, ?_⟩
  exact (find_counts nodes .plain _ ⟨none, ⟨5⟩⟩ false (.off, []) (.inMemory 64 1)).2.2 0 _
    (.middle (by decide)) (by rfl)

end Leaf

end SlottedLeaf
