import SlottedLeaf.Leaf.Search
import SlottedLeaf.Proofs.Decoding

/-!
# What a search finds

A search looks at few of the rows, but in ascending order the rows from which it goes on come first
and those from which it goes back come last. So a row that stops the search, if there is one, is in
between, and the search cannot miss it.
-/

namespace SlottedLeaf

/-- The index refuses `target` beside `row`: they are the same row, or theirs is the same key and
keys may not repeat. -/
def Index.Refuses (index : Index) (target row : Row) : Prop :=
  row = target ∨ index.options.unique ∧ ¬ index.format.mayRepeat target ∧ row.key = target.key

namespace Leaf

variable {index : Index} {leaf : Leaf} {entries : List RowEntry} {aim : Aim} {target : Row}

/-! ## Turns and the order of rows -/

theorem turn_of_lower {row : Row} (lower : row.compareKeys target = .lt) :
    aim.turn index target row = .after := by
  simp only [Aim.turn, lower]

theorem turn_of_higher {row : Row} (higher : row.compareKeys target = .gt) :
    aim.turn index target row = .before := by
  simp only [Aim.turn, higher]

/-- Among rows with the key sought a search first goes on and last goes back. -/
private theorem turn_of_positions {a b : Row} (keys : a.key = b.key)
    (same : b.key = target.key) (positions : a.comparePositions b = .lt) :
    (aim.turn index target b = .after → aim.turn index target a = .after) ∧
      (aim.turn index target a = .before → aim.turn index target b = .before) := by
  have first : a.compareKeys target = .eq := Row.compareKeys_eq_iff.mpr (keys.trans same)
  have second : b.compareKeys target = .eq := Row.compareKeys_eq_iff.mpr same
  have onward (lower : b.comparePositions target = .lt) : a.comparePositions target = .lt :=
    Std.TransCmp.lt_trans positions lower
  have back (higher : a.comparePositions target = .gt) : b.comparePositions target = .gt := by
    rw [Std.OrientedCmp.gt_iff_lt] at higher ⊢
    exact Std.TransCmp.lt_trans higher positions
  cases aim with
  | insertion =>
    simp only [Aim.turn, first, second]
    split
    · simp
    · constructor
      · cases lower : b.comparePositions target <;> simp [onward, lower]
      · cases higher : a.comparePositions target <;> simp [back, higher]
  | removal =>
    simp only [Aim.turn, first, second]
    constructor
    · cases lower : b.comparePositions target <;> simp [onward, lower]
    · cases higher : a.comparePositions target <;> simp [back, higher]
  | bound past =>
    simp only [Aim.turn, first, second]
    exact ⟨fun same => same, fun same => same⟩

/-- Along ascending rows a search first goes on and last goes back. -/
theorem turn_of_below {a b : Row} (below : a.Below b) :
    (aim.turn index target b = .after → aim.turn index target a = .after) ∧
      (aim.turn index target a = .before → aim.turn index target b = .before) := by
  rcases below.keys_or_positions with keys | ⟨keys, positions⟩
  · constructor
    · intro onward
      apply turn_of_lower
      cases second : b.compareKeys target with
      | lt => exact Std.TransCmp.lt_trans keys second
      | eq => exact Std.TransCmp.lt_of_lt_of_eq keys second
      | gt => simp [turn_of_higher second] at onward
    · intro back
      apply turn_of_higher
      rw [Std.OrientedCmp.gt_iff_lt]
      cases first : target.compareKeys a with
      | lt => exact Std.TransCmp.lt_trans first keys
      | eq => exact Std.TransCmp.lt_of_eq_of_lt first keys
      | gt => simp [turn_of_lower (Std.OrientedCmp.gt_iff_lt.mp first)] at back
  · have alike : a.compareKeys target = b.compareKeys target := by
      rw [Row.compareKeys, Row.compareKeys, keys]
    cases second : b.compareKeys target with
    | lt => simp [turn_of_lower second, turn_of_lower (alike.trans second)]
    | eq => exact turn_of_positions keys (Row.compareKeys_eq_iff.mp second) positions
    | gt => simp [turn_of_higher second, turn_of_higher (alike.trans second)]

/-- Along the entries a search first goes on and last goes back. -/
def Steers (turn : Row → Turn) (entries : List RowEntry) : Prop :=
  entries.Pairwise fun a b =>
    (turn b.row = .after → turn a.row = .after) ∧ (turn a.row = .before → turn b.row = .before)

theorem Steers.of_ascending (sorted : Row.Ascending (entries.map RowEntry.row)) :
    Steers (aim.turn index target) entries :=
  (List.pairwise_map.mp sorted).imp turn_of_below

/-! ## Searches -/

/-- How a search among entries ends. It ends at a place, with all rows before it to go on from and
all rows after it to go back from, or at a row that stops it. -/
inductive Finds (turn : Row → Turn) (id : PageId) (target : Row) (entries : List RowEntry) :
    Except Fault Nat → Prop where
  | place {before after : List RowEntry} (split : entries = before ++ after)
      (low : ∀ entry ∈ before, turn entry.row = .after)
      (high : ∀ entry ∈ after, turn entry.row = .before) :
      Finds turn id target entries (.ok before.length)
  | found {before after : List RowEntry} {entry : RowEntry}
      (split : entries = before ++ entry :: after) (stops : turn entry.row = .found) :
      Finds turn id target entries (.ok before.length)
  | clash {entry : RowEntry} (member : entry ∈ entries) (stops : turn entry.row = .clash) :
      Finds turn id target entries (.error (.duplicateKey id target))

/-- The invariant of a search: rows below the range are to go on from, rows above it to go back
from. -/
structure Bracket (turn : Row → Turn) (entries : List RowEntry) (low high : Nat) : Prop where
  low_le : low ≤ high
  high_le : high ≤ entries.length
  lower : ∀ i < low, ∀ entry, entries[i]? = some entry → turn entry.row = .after
  upper : ∀ i ≥ high, ∀ entry, entries[i]? = some entry → turn entry.row = .before

namespace Bracket

variable {turn : Row → Turn} {low high middle : Nat} {entry : RowEntry}

theorem whole (turn : Row → Turn) (entries : List RowEntry) :
    Bracket turn entries 0 entries.length := by
  refine ⟨Nat.zero_le _, Nat.le_refl _, by simp, ?_⟩
  intro i past entry here
  rw [List.getElem?_eq_none past] at here
  cases here

private theorem turns_of_lt (steers : Steers turn entries) {i j : Nat} {a b : RowEntry}
    (order : i < j) (first : entries[i]? = some a) (second : entries[j]? = some b) :
    (turn b.row = .after → turn a.row = .after) ∧
      (turn a.row = .before → turn b.row = .before) := by
  obtain ⟨i_lt, rfl⟩ := List.getElem?_eq_some_iff.mp first
  obtain ⟨j_lt, rfl⟩ := List.getElem?_eq_some_iff.mp second
  exact List.pairwise_iff_getElem.mp steers i j i_lt j_lt order

/-- A search that goes on from a row leaves that row and those before it. -/
theorem onward (bracket : Bracket turn entries low high) (steers : Steers turn entries)
    (inside : middle < high) (here : entries[middle]? = some entry)
    (after : turn entry.row = .after) : Bracket turn entries (middle + 1) high := by
  refine ⟨inside, bracket.high_le, ?_, bracket.upper⟩
  intro i before other found
  rcases Nat.lt_or_eq_of_le (Nat.le_of_lt_succ before) with order | rfl
  · exact (turns_of_lt steers order found here).1 after
  · cases here.symm.trans found
    exact after

/-- A search that goes back from a row leaves that row and those after it. -/
theorem back (bracket : Bracket turn entries low high) (steers : Steers turn entries)
    (inside : low ≤ middle) (here : entries[middle]? = some entry)
    (before : turn entry.row = .before) : Bracket turn entries low middle := by
  have bound := (List.getElem?_eq_some_iff.mp here).1
  refine ⟨inside, Nat.le_of_lt bound, bracket.lower, ?_⟩
  intro i after other found
  rcases Nat.lt_or_eq_of_le after with order | rfl
  · exact (turns_of_lt steers order here found).2 before
  · cases here.symm.trans found
    exact before

/-- A search whose range is empty has found its place. -/
theorem finds (bracket : Bracket turn entries low low) (id : PageId) (target : Row) :
    Finds turn id target entries (.ok low) := by
  have cut : (entries.take low).length = low := List.length_take_of_le bracket.high_le
  rw [← congrArg (Except.ok (ε := Fault)) cut]
  refine .place (List.take_append_drop low entries).symm ?_ ?_
  · intro entry member
    obtain ⟨i, bound, rfl⟩ := List.getElem_of_mem member
    have short : i < low := Nat.lt_of_lt_of_eq bound cut
    refine bracket.lower i short _ ?_
    rw [← List.getElem?_take_of_lt short, List.getElem?_eq_getElem bound]
  · intro entry member
    obtain ⟨i, bound, rfl⟩ := List.getElem_of_mem member
    refine bracket.upper (low + i) (Nat.le_add_right _ _) _ ?_
    rw [← List.getElem?_drop, List.getElem?_eq_getElem bound]

end Bracket

/-- A search among rows that steer it only looks at them. -/
theorem searchBetween_looks (shows : leaf.Shows index entries) {low high : Nat}
    (steers : Steers (aim.turn index target) entries)
    (bracket : Bracket (aim.turn index target) entries low high) :
    ∃ outcome, (searchBetween index aim target low high).Looks index leaf outcome ∧
      Finds (aim.turn index target) leaf.id target entries outcome := by
  -- Each turn leaves a shorter range, on a leaf with perhaps one more row decoded.
  induction width : high - low using Nat.strongRecOn generalizing low high leaf with
  | ind width ih =>
    rw [searchBetween]
    by_cases open_ : low < high
    · have bound : (low + high) / 2 < entries.length := by
        have := bracket.high_le
        omega
      have here := List.getElem?_eq_getElem bound
      rw [if_pos open_]
      refine LeafCall.Looks.bind (shows.row here) ?_
      intro n later decodes
      rw [← decodes.id]
      have shows := shows.decodes decodes
      cases turn : aim.turn index target entries[(low + high) / 2].row with
      | after =>
        exact ih (high - ((low + high) / 2 + 1)) (by omega) shows
          (bracket.onward steers (by omega) here turn) rfl
      | before =>
        exact ih ((low + high) / 2 - low) (by omega) shows
          (bracket.back steers (by omega) here turn) rfl
      | found =>
        -- A bound and an insertion never get here, but the statement is about every aim.
        refine ⟨.ok ((low + high) / 2), .of_still fun engine => rfl, ?_⟩
        have cut : (entries.take ((low + high) / 2)).length = (low + high) / 2 :=
          List.length_take_of_le (Nat.le_of_lt bound)
        rw [← congrArg (Except.ok (ε := Fault)) cut]
        have split := (List.take_append_drop ((low + high) / 2) entries).symm
        rw [List.drop_eq_getElem_cons bound] at split
        exact .found split turn
      | clash =>
        exact ⟨.error (.duplicateKey later.id target), .of_still fun engine => rfl,
          .clash (List.getElem_mem bound) turn⟩
    · have same : high = low := Nat.le_antisymm (Nat.le_of_not_lt open_) bracket.low_le
      subst same
      rw [if_neg open_]
      exact ⟨.ok high, .of_still fun engine => rfl, bracket.finds leaf.id target⟩

theorem search_looks (aim : Aim) (target : Row) (shows : leaf.Shows index entries)
    (steers : Steers (aim.turn index target) entries) :
    ∃ outcome, (search index aim target).Looks index leaf outcome ∧
      Finds (aim.turn index target) leaf.id target entries outcome := by
  have bracket := Bracket.whole (aim.turn index target) entries
  rw [← shows.count] at bracket
  obtain ⟨outcome, ⟨n, later, decodes, run⟩, finds⟩ := searchBetween_looks shows steers bracket
  refine ⟨outcome, ⟨n, later, decodes, ?_⟩, finds⟩
  intro engine
  rw [search, LeafCall.on_bind, LeafCall.on_get]
  exact run engine

/-! ## The search before a change -/

theorem below_of_after {row : Row} (either : aim = .insertion ∨ aim = .removal)
    (after : aim.turn index target row = .after) : row.Below target := by
  unfold Aim.turn at after
  unfold Row.Below Row.compareRows
  cases keys : row.compareKeys target with
  | lt => rfl
  | gt => simp [keys] at after
  | eq =>
    rcases either with rfl | rfl
    · simp only [keys] at after
      split at after
      · cases after
      · cases positions : row.comparePositions target <;> simp [positions] at after ⊢
    · cases positions : row.comparePositions target <;> simp [keys, positions] at after ⊢

theorem below_of_before {row : Row} (either : aim = .insertion ∨ aim = .removal)
    (before : aim.turn index target row = .before) : target.Below row := by
  rw [Row.below_iff_gt]
  unfold Aim.turn at before
  unfold Row.compareRows
  cases keys : row.compareKeys target with
  | lt => simp [keys] at before
  | gt => rfl
  | eq =>
    rcases either with rfl | rfl
    · simp only [keys] at before
      split at before
      · cases before
      · cases positions : row.comparePositions target <;> simp [positions] at before ⊢
    · cases positions : row.comparePositions target <;> simp [keys, positions] at before ⊢

theorem turn_eq_found_iff {row : Row} : aim.turn index target row = .found ↔
    aim = .removal ∧ row = target := by
  rw [← Row.compareRows_eq_iff]
  unfold Aim.turn Row.compareRows
  cases keys : row.compareKeys target <;> cases aim <;>
    cases positions : row.comparePositions target <;> simp <;> split <;> simp

theorem turn_eq_clash_iff {row : Row} : aim.turn index target row = .clash ↔
    aim = .insertion ∧ index.Refuses target row := by
  unfold Index.Refuses
  rw [← Row.compareRows_eq_iff, ← Row.compareKeys_eq_iff]
  unfold Aim.turn Row.compareRows
  cases keys : row.compareKeys target <;> cases aim <;>
    cases positions : row.comparePositions target <;> simp <;> split <;> simp

/-- The search before an insertion refuses a row if and only if the leaf holds one that refuses it.
Else it finds the place between the rows below and those above. -/
theorem search_insertion (target : Row) (shows : leaf.Shows index entries)
    (sorted : Row.Ascending (entries.map RowEntry.row)) :
    (search index .insertion target).Looks index leaf (.error (.duplicateKey leaf.id target)) ∧
        (∃ other ∈ entries.map RowEntry.row, index.Refuses target other) ∨
      ∃ before after, entries = before ++ after ∧
        (search index .insertion target).Looks index leaf (.ok before.length) ∧
        (∀ other ∈ before.map RowEntry.row, other.Below target) ∧
        (∀ other ∈ after.map RowEntry.row, target.Below other) ∧
        ∀ other ∈ entries.map RowEntry.row, ¬ index.Refuses target other := by
  obtain ⟨outcome, looks, finds⟩ := search_looks .insertion target shows (.of_ascending sorted)
  cases finds with
  | clash member stops =>
    exact .inl ⟨looks, _, List.mem_map_of_mem member, (turn_eq_clash_iff.mp stops).2⟩
  | found split stops => cases (turn_eq_found_iff.mp stops).1
  | @place before after split low high =>
    refine .inr ⟨before, after, split, looks, List.forall_mem_map.mpr ?_,
      List.forall_mem_map.mpr ?_, List.forall_mem_map.mpr ?_⟩
    · intro entry member
      exact below_of_after (.inl rfl) (low entry member)
    · intro entry member
      exact below_of_before (.inl rfl) (high entry member)
    · intro entry member refuses
      -- The search would have stopped at such a row, but it went on from it or back.
      have clash := turn_eq_clash_iff.mpr ⟨rfl, refuses⟩
      rw [split] at member
      rcases List.mem_append.mp member with member | member
      · cases clash.symm.trans (low entry member)
      · cases clash.symm.trans (high entry member)

/-- The search before a removal finds the row, or the place where it would be. -/
theorem search_removal (target : Row) (shows : leaf.Shows index entries)
    (sorted : Row.Ascending (entries.map RowEntry.row)) :
    (∃ before entry after, entries = before ++ entry :: after ∧ entry.row = target ∧
        (search index .removal target).Looks index leaf (.ok before.length)) ∨
      ∃ before after, entries = before ++ after ∧
        (search index .removal target).Looks index leaf (.ok before.length) ∧
        (∀ other ∈ before.map RowEntry.row, other.Below target) ∧
        ∀ other ∈ after.map RowEntry.row, target.Below other := by
  obtain ⟨outcome, looks, finds⟩ := search_looks .removal target shows (.of_ascending sorted)
  cases finds with
  | clash member stops => cases (turn_eq_clash_iff.mp stops).1
  | @found before after entry split stops =>
    exact .inl ⟨before, entry, after, split, (turn_eq_found_iff.mp stops).2, looks⟩
  | @place before after split low high =>
    refine .inr ⟨before, after, split, looks, List.forall_mem_map.mpr ?_,
      List.forall_mem_map.mpr ?_⟩
    · intro entry member
      exact below_of_after (.inr rfl) (low entry member)
    · intro entry member
      exact below_of_before (.inr rfl) (high entry member)

end Leaf

end SlottedLeaf
