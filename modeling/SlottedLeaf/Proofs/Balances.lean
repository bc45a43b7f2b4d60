import SlottedLeaf.Proofs.Endings

/-!
# Rows counted and slots gained

Rows that are inserted and removed are counted where the slots of a leaf change. So a call counts
what the leaf gains, unless it breaks down in the middle of a change: the layout of a page is found
broken then, or a store does not take note. A split moves rows from one leaf to another, and counts
what both of them gain.
-/

namespace SlottedLeaf

open LeafCall RowEntry

variable {α : Type} {index : Index} {leaf later : Leaf} {engine after : Engine}

/-! ## Rows and slots -/

/-- Whether a call broke down: the layout of a page is broken, or the store did not do what it was
asked. -/
def Fault.isGrave : Fault → Bool
  | .internal _ => true
  | .invalid .reservedPage | .invalid .pageLength | .invalid .writeUnallocated
  | .invalid .readUnallocated | .invalid .pagesExhausted => true
  | _ => false

namespace Engine

/-- Rows inserted less rows removed. -/
def net (engine : Engine) : Int := engine.stats.rowsInserted - engine.stats.rowsRemoved

theorem net_of_stats (same : after.stats = engine.stats) : after.net = engine.net := by
  rw [net, same, net]

theorem net_of_read {n : Nat} (same : after.stats = engine.stats.add .pagesRead n) :
    after.net = engine.net := by
  rw [net, same, net]
  rfl

variable (engine : Engine)

@[simp]
theorem net_reported (event : Event) : (engine.reported event).net = engine.net := rfl

@[simp]
theorem net_stored (store : Store) : (engine.stored store).net = engine.net := rfl

@[simp]
theorem net_inserted : (engine.counted .rowsInserted 1).net = engine.net + 1 := by
  simp only [net, counted, Stats.add]
  omega

@[simp]
theorem net_removed : (engine.counted .rowsRemoved 1).net = engine.net - 1 := by
  simp only [net, counted, Stats.add]
  omega

theorem net_counted {counter : Counter} (inserts : counter ≠ .rowsInserted)
    (removes : counter ≠ .rowsRemoved) (amount : Nat) :
    (engine.counted counter amount).net = engine.net := by
  cases counter <;> first | rfl | contradiction

@[simp]
theorem net_decoded (n : Nat) : (engine.counted .rowsDecoded n).net = engine.net := rfl

@[simp]
theorem net_turned (index : Index) (leaf : Leaf) (count : Nat) :
    (engine.turned index leaf count).net = engine.net := by
  rw [turned]
  split <;> rfl

end Engine

namespace LeafCall

variable {β : Type} {call other : LeafCall α} {next : α → LeafCall β}

/-- Unless the call breaks down, the leaf gains a slot with each row that is counted as inserted,
and loses one with each that is counted as removed. -/
def Balanced (call : LeafCall α) : Prop :=
  ∀ leaf engine, (∀ fault, (call.on leaf engine).1.1 = .error fault → fault.isGrave = false) →
    (call.on leaf engine).2.net - engine.net = (call.on leaf engine).1.2.count - leaf.count

/-- What is known of a balanced call once it has ended. -/
theorem Balanced.ended (balanced : call.Balanced) {outcome : Except Fault α}
    (run : call.on leaf engine = ((outcome, later), after))
    (mild : ∀ fault, outcome = .error fault → fault.isGrave = false) :
    after.net - engine.net = later.count - leaf.count := by
  have ended := balanced leaf engine
  rw [run] at ended
  exact ended mild

theorem Balanced.of_still
    (still : ∀ {leaf later engine after outcome}, call.on leaf engine = ((outcome, later), after) →
      later.count = leaf.count ∧ after.net = engine.net) : call.Balanced := by
  intro leaf engine _
  rcases run : call.on leaf engine with ⟨⟨outcome, later⟩, after⟩
  obtain ⟨count, net⟩ := still run
  rw [count, net, Int.sub_self, Int.sub_self]

theorem Balanced.bind (first : call.Balanced) (second : ∀ value, (next value).Balanced) :
    (call >>= next).Balanced := by
  intro leaf engine mild
  rw [on_bind] at mild ⊢
  rcases start : call.on leaf engine with ⟨⟨fault | value, middle⟩, between⟩ <;>
    rw [start] at mild
  · refine first.ended start ?_
    rintro _ ⟨⟩
    exact mild fault rfl
  · have before := first.ended start nofun
    have behind := second value middle between mild
    show ((next value).on middle between).2.net - engine.net =
      ((next value).on middle between).1.2.count - leaf.count
    omega

theorem Balanced.ite {condition : Prop} [Decidable condition] (first : call.Balanced)
    (second : other.Balanced) : (if condition then call else other).Balanced := by
  by_cases holds : condition
  · rw [if_pos holds]
    exact first
  · rw [if_neg holds]
    exact second

theorem Peeks.balanced (peeks : call.Peeks index) : call.Balanced := by
  refine .of_still ?_
  intro leaf later engine after outcome run
  obtain ⟨n, decodes, rfl⟩ := peeks.ended run
  exact ⟨decodes.count, rfl⟩

theorem balanced_pure (value : α) : (pure value : LeafCall α).Balanced := by
  refine .of_still ?_
  intro leaf later engine after outcome run
  cases run
  exact ⟨rfl, rfl⟩

theorem balanced_throw (fault : Fault) : (throw fault : LeafCall α).Balanced := by
  refine .of_still ?_
  intro leaf later engine after outcome run
  cases run
  exact ⟨rfl, rfl⟩

theorem balanced_get : (get : LeafCall Leaf).Balanced := by
  refine .of_still ?_
  intro leaf later engine after outcome run
  cases run
  exact ⟨rfl, rfl⟩

theorem balanced_report (event : Event) :
    (liftM (Engine.report event) : LeafCall Unit).Balanced := by
  refine .of_still ?_
  intro leaf later engine after outcome run
  cases run
  exact ⟨rfl, rfl⟩

theorem balanced_note (page : PageId) :
    (liftM (Engine.notePage page) : LeafCall Unit).Balanced := by
  refine .of_still ?_
  intro leaf later engine after outcome run
  obtain ⟨store, noted, _⟩ := engine.notePage_on page
  rw [on_engine, noted] at run
  cases run
  exact ⟨rfl, rfl⟩

end LeafCall

namespace Leaf

/-- A row that is placed without a breakdown is on the leaf, and counted. -/
theorem Placing.net {before behind : List RowEntry} {row : Row} {outcome : Except Fault Unit}
    (places : Placing index leaf before behind row engine outcome later after)
    (mild : ∀ fault, outcome = .error fault → fault.isGrave = false) :
    after.net = engine.net + 1 ∧ later.count = (before ++ behind).length + 1 := by
  cases places with
  | unmoved => cases mild _ rfl
  | unsound cause => cases mild _ rfl
  | unnoted store => cases mild _ rfl
  | placed store =>
    rw [count_changed, length_insertBetween]
    simp

theorem Tries.net {row : Row} {outcome : Except Fault Insertion}
    (tries : leaf.Tries index row engine outcome later after)
    (mild : ∀ fault, outcome = .error fault → fault.isGrave = false) :
    after.net - engine.net = later.count - leaf.count := by
  have placed {outcome : Except Fault Unit} : (∀ fault, outcome.map (fun _ => Insertion.inserted) =
      .error fault → fault.isGrave = false) → ∀ fault, outcome = .error fault →
        fault.isGrave = false := by
    rintro mild fault rfl
    exact mild fault rfl
  cases tries with
  | undecoded decodes _ => simp [decodes.count]
  | refused decodes => simp [← decodes.count]
  | signalled decodes _ _ =>
    rw [Engine.net_reported, Engine.net_counted _ (by decide) (by decide)]
    simp [← decodes.count]
  | fitted decodes _ places =>
    obtain ⟨net, count⟩ := places.net (placed mild)
    have same := decodes.count
    rw [count_holding] at same
    rw [net, count, Engine.net_decoded]
    omega
  | stuck _ _ _ _ => cases mild _ rfl
  | crowded _ _ _ => cases mild _ rfl
  | compacted decodes _ _ packed _ places =>
    obtain ⟨net, count⟩ := places.net (placed mild)
    have same := decodes.count
    rw [count_holding] at same
    rw [packed, length_pack, List.length_map] at count
    rw [net, count, Engine.net_turned, Engine.net_decoded]
    omega

theorem insert_balanced (index : Index) (row : Row) : (insert index row).Balanced :=
  fun _ _ => (insert_tries rfl).net

theorem Takes.net {slot : Nat} {outcome : Except Fault Unit}
    (takes : leaf.Takes index slot engine outcome later after)
    (mild : ∀ fault, outcome = .error fault → fault.isGrave = false) :
    after.net - engine.net = later.count - leaf.count := by
  cases takes with
  | undecoded decodes _ => simp [decodes.count]
  | kept decodes _ => simp [← decodes.count]
  | unsound cause _ _ _ _ => cases mild _ rfl
  | taken decodes _ _ _ =>
    have same := decodes.count
    rw [count_holding, List.length_append, List.length_cons] at same
    rw [count_changed, length_removeBetween, Engine.net_reported, Engine.net_removed,
      Engine.net_decoded]
    omega

theorem removeAt_balanced (index : Index) (slot : Nat) : (removeAt index slot).Balanced :=
  fun _ _ => (removeAt_takes rfl).net

theorem remove_balanced (index : Index) (target : Row) : (remove index target).Balanced := by
  refine (search_peeks index .removal target).balanced.bind fun slot => ?_
  refine (holds_peeks index slot target).balanced.bind fun held => ?_
  apply Balanced.ite
  · exact balanced_get.bind fun leaf => balanced_throw _
  refine balanced_get.bind fun leaf => ?_
  apply Balanced.ite
  · refine (row_peeks index slot).balanced.bind fun only => balanced_get.bind fun leaf => ?_
    exact (balanced_report _).bind fun _ => balanced_pure _
  refine (removeAt_balanced index slot).bind fun _ => balanced_get.bind fun leaf => ?_
  refine (balanced_note leaf.id).bind fun _ => balanced_get.bind fun leaf => ?_
  apply Balanced.ite
  · exact (row_peeks index (slot - 1)).balanced.bind fun last => balanced_pure _
  · exact balanced_pure _

theorem write_still {outcome : Except Fault Unit}
    (run : (write index).on leaf engine = ((outcome, later), after)) :
    later.count = leaf.count ∧ after.net = engine.net := by
  cases write_saves run with
  | clean _ => exact ⟨rfl, rfl⟩
  | undrawn _ decodes => exact ⟨decodes.count, rfl⟩
  | refused _ decodes => exact ⟨decodes.count, rfl⟩
  | taken _ decodes _ _ _ => exact ⟨decodes.count, rfl⟩

theorem write_balanced (index : Index) : (write index).Balanced := .of_still write_still

theorem setParent_balanced (parent : Option PageId) : (setParent parent).Balanced := by
  refine .of_still ?_
  intro leaf later engine after outcome run
  rw [setParent_on] at run
  cases run
  refine ⟨?_, rfl⟩
  split <;> rfl

/-- Rows that are moved are counted on both leaves. -/
theorem moveRows_net {slot n : Nat} {target right : Leaf}
    (run : (moveRows index slot n target).on leaf engine = ((.ok right, later), after)) :
    after.net - engine.net = later.count - leaf.count + (right.count - target.count) := by
  induction n generalizing leaf target engine with
  | zero =>
    cases run
    omega
  | succ n ih =>
    obtain ⟨moving, looked, _, look, run⟩ := on_bind_ok run
    have looks := (row_peeks index slot).balanced.ended look nofun
    obtain ⟨⟨answer, filled⟩, _, between, put, run⟩ := on_bind_ok run
    rw [on_onOther] at put
    rcases inserted : (insert index moving).on target _ with ⟨⟨fault | answer, other⟩, noting⟩ <;>
      rw [inserted] at put
    · cases put
    cases put
    have fills := (insert_balanced index moving).ended inserted nofun
    cases answer with
    | splitAt point => cases run
    | inserted =>
      obtain ⟨_, shrunk, between, take, run⟩ := on_bind_ok run
      have takes := (removeAt_balanced index slot).ended take nofun
      have rest := ih run
      omega

/-! ## Splits -/

/-- Once every row of a leaf is decoded, an insertion is not refused for a split point, and leaves
every row decoded. -/
theorem Tries.of_holding {row : Row} {outcome : Except Fault Insertion} {entries : List RowEntry}
    (tries : (leaf.holding entries).Tries index row engine outcome later after) :
    outcome ≠ .error (.invalid .splitPoint) ∧ ∃ source others, later = holding source others := by
  have placed {source : Leaf} {before behind : List RowEntry} {start finish : Engine}
      {outcome : Except Fault Unit} (places : Placing index source before behind row start outcome
        later finish) :
      outcome.map (fun _ => Insertion.inserted) ≠ .error (.invalid .splitPoint) ∧
        ∃ source others, later = holding source others := by
    cases places with
    | unmoved => exact ⟨nofun, source, _, rfl⟩
    | unsound cause => exact ⟨nofun, { source with written := false }, _, rfl⟩
    | unnoted store => exact ⟨nofun, { source with written := false }, _, rfl⟩
    | placed store => exact ⟨nofun, { source with written := false }, _, rfl⟩
  cases tries with
  | undecoded _ unshown => exact absurd (Shows.of_holding leaf entries) (unshown entries)
  | refused _ => exact ⟨nofun, _, _, rfl⟩
  | signalled _ _ _ => exact ⟨nofun, _, _, rfl⟩
  | fitted _ _ places => exact placed places
  | stuck _ _ _ _ => exact ⟨nofun, { leaf with form := .positionOnly }, _, rfl⟩
  | crowded _ _ _ => exact ⟨nofun, _, _, rfl⟩
  | compacted _ _ _ _ _ places => exact placed places

theorem Takes.of_holding {slot : Nat} {outcome : Except Fault Unit} {entries : List RowEntry}
    (takes : (leaf.holding entries).Takes index slot engine outcome later after) :
    outcome ≠ .error (.invalid .splitPoint) ∧ ∃ source others, later = holding source others := by
  cases takes with
  | undecoded _ unshown => exact absurd (Shows.of_holding leaf entries) (unshown entries)
  | kept _ cause =>
    refine ⟨?_, _, _, rfl⟩
    rintro ⟨⟩
    simp at cause
  | unsound cause _ _ _ _ => exact ⟨nofun, { leaf with written := false }, _, rfl⟩
  | taken _ _ _ _ => exact ⟨nofun, { leaf with written := false }, _, rfl⟩

/-- Once every row is decoded, moving rows is not refused for a split point. -/
theorem moveRows_ne_splitPoint (index : Index) (slot n : Nat) (leaf target : Leaf)
    (entries taken : List RowEntry) (engine : Engine) :
    ((moveRows index slot n (target.holding taken)).on (leaf.holding entries) engine).1.1 ≠
      .error (.invalid .splitPoint) := by
  induction n generalizing leaf target entries taken engine with
  | zero =>
    intro same
    cases same
  | succ n ih =>
    rw [moveRows, on_bind, row_on, slots_holding, List.getElem?_map]
    cases entries[slot]? with
    | none =>
      intro same
      cases same
    | some entry =>
      simp only [Option.map_some, RowEntry.slot]
      rw [on_bind, on_onOther]
      rcases inserted : (insert index entry.row).on (target.holding taken) engine with
        ⟨⟨fault | answer, filled⟩, between⟩
      · intro same
        exact (insert_tries inserted).of_holding.1 (by cases same; rfl)
      obtain ⟨_, source, others, rfl⟩ := (insert_tries inserted).of_holding
      cases answer with
      | splitAt point =>
        intro same
        cases same
      | inserted =>
        simp only
        rw [on_bind]
        rcases taking : (removeAt index slot).on (leaf.holding entries) between with
          ⟨⟨fault | _, shrunk⟩, rest⟩
        · intro same
          exact (removeAt_takes taking).of_holding.1 (by cases same; rfl)
        obtain ⟨_, left, kept, rfl⟩ := (removeAt_takes taking).of_holding
        exact ih left source kept others rest

/-- What a split counts is what both leaves gain, and nothing if the split point is refused. -/
theorem Divides.net {point : Nat} {outcome : Except Fault Leaf}
    (divides : leaf.Divides index point engine outcome later after) :
    (∀ right, outcome = .ok right →
        after.net - engine.net = later.count - leaf.count + right.count) ∧
      (outcome = .error (.invalid .splitPoint) →
        after.net = engine.net ∧ later.count = leaf.count) := by
  have allocated {between : Engine} {outcome : Except Fault PageId}
      (run : Engine.allocatePage.on engine = (outcome, between)) : between.net = engine.net := by
    have same := Engine.net_of_stats engine.allocatePage_stats
    rwa [run] at same
  cases divides with
  | refused _ => exact ⟨nofun, fun _ => ⟨rfl, rfl⟩⟩
  | unallocated _ fails => exact ⟨nofun, fun _ => ⟨allocated fails, rfl⟩⟩
  | undecoded _ allocates decodes _ =>
    exact ⟨nofun, fun _ => ⟨(Engine.net_decoded _ _).trans (allocated allocates), decodes.count⟩⟩
  | @stopped id _ n entries _ _ _ _ _ _ _ moves =>
    refine ⟨nofun, ?_⟩
    rintro ⟨⟩
    exact absurd (congrArg (·.1.1) moves) (moveRows_ne_splitPoint index point _ leaf
      (create index id leaf.parent leaf.form) entries [] _)
  | @done id between n entries right _ _ _ allocates decodes _ moves =>
    have net : _ - (between.counted .rowsDecoded n).net = _ := moveRows_net moves
    have same := decodes.count
    have bare : (create index id leaf.parent leaf.form).count = 0 := rfl
    rw [Engine.net_decoded, allocated allocates, same, bare] at net
    refine ⟨?_, nofun⟩
    rintro _ ⟨⟩
    rw [Engine.net_reported, Engine.net_counted _ (by decide) (by decide)]
    omega

end Leaf

end SlottedLeaf
