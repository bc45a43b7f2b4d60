import SlottedLeaf.Proofs.Effects
import SlottedLeaf.Proofs.Machine
import SlottedLeaf.Proofs.RowCodec
import SlottedLeaf.Proofs.WellFormed

/-!
# Calls that a machine follows

A call on a machine follows a call on a leaf if it does not stop, and has the same outcome and the
same effect. It does on every steady leaf: one whose offsets do not ascend and lie between the
offset table and the end of the page, and whose rows have keys that fit a memory. Its rows may
overlap, repeat or lie in any order. Every call leaves a steady leaf, however it ends.
-/

namespace SlottedLeaf

variable {α β γ δ : Type} {index : Index}

/-! ## Steady leaves -/

/-- The key of the row fits a memory, which has fewer than `2 ^ 63` bytes. -/
def Row.Storable (row : Row) : Prop := row.keyBytes.length < 2 ^ 63

/-- The index is standard, and looking a row up gives one that is storable. -/
structure Index.Hosted (index : Index) : Prop extends index.Standard where
  answers : ∀ pos row, index.format.resolve pos = .ok row → row.Storable

/-- The leaf as a machine keeps it. -/
def Leaf.raw (leaf : Leaf) : RawLeaf :=
  ⟨leaf.id, leaf.parent, leaf.form, leaf.offsets, leaf.slots.map Slot.row, leaf.start, leaf.written,
    leaf.image⟩

/-- The offsets do not ascend and lie between the offset table and the end of the page; nothing is
said about where rows end, or what they are. -/
structure Leaf.Steady (index : Index) (leaf : Leaf) : Prop where
  image : leaf.image.size = index.pageSize
  falls : (index.pageSize :: leaf.offsets).Pairwise (· ≥ ·)
  clear : ∀ offset ∈ leaf.offsets, leaf.start ≤ offset
  storable : ∀ slot ∈ leaf.slots, ∀ row, slot.row = some row → row.Storable

/-! ## How machine calls run -/

namespace RawCall

variable (leaf : RawLeaf) (engine : Engine)

theorem on_bind (call : RawCall α) (next : α → RawCall β) :
    (call >>= next).on leaf engine =
      match call.on leaf engine with
      | none => none
      | some ((.ok value, leaf), engine) => (next value).on leaf engine
      | some ((.error fault, leaf), engine) => some ((.error fault, leaf), engine) := by
  simp only [on, ExceptT.run_bind, StateT.run_bind]
  rcases (call.run.run leaf).run engine with _ | ⟨⟨fault | value, leaf⟩, engine⟩ <;> rfl

@[simp]
theorem on_pure (value : α) :
    (pure value : RawCall α).on leaf engine = some ((.ok value, leaf), engine) := rfl

@[simp]
theorem on_throw (fault : Fault) :
    (throw fault : RawCall α).on leaf engine = some ((.error fault, leaf), engine) := rfl

@[simp]
theorem on_ofExcept (outcome : Except Fault α) :
    (MonadExcept.ofExcept outcome : RawCall α).on leaf engine = some ((outcome, leaf), engine) := by
  cases outcome <;> rfl

@[simp]
theorem on_get : (get : RawCall RawLeaf).on leaf engine = some ((.ok leaf, leaf), engine) := rfl

@[simp]
theorem on_modify (change : RawLeaf → RawLeaf) :
    (modify change : RawCall PUnit).on leaf engine = some ((.ok ⟨⟩, change leaf), engine) := rfl

@[simp]
theorem on_sure (value : α) :
    (sure (some value)).on leaf engine = some ((.ok value, leaf), engine) := rfl

theorem on_engine (call : EngineCall α) :
    (liftM call : RawCall α).on leaf engine =
      some (((call.on engine).1, leaf), (call.on engine).2) := rfl

theorem on_get_bind (next : RawLeaf → RawCall β) :
    (get >>= next).on leaf engine = (next leaf).on leaf engine := by
  rw [on_bind, on_get]

theorem on_modify_bind (change : RawLeaf → RawLeaf) (next : PUnit → RawCall β) :
    ((modify change : RawCall PUnit) >>= next).on leaf engine =
      (next ⟨⟩).on (change leaf) engine := by
  rw [on_bind, on_modify]

theorem on_sure_bind {answer : Option α} {value : α} (known : answer = some value)
    (next : α → RawCall β) :
    (sure answer >>= next).on leaf engine = (next value).on leaf engine := by
  rw [known, on_bind, on_sure]

variable {leaf engine}

/-- The call gives this outcome, and changes nothing. -/
def Gives (call : RawCall α) (leaf : RawLeaf) (outcome : Except Fault α) : Prop :=
  ∀ engine, call.on leaf engine = some ((outcome, leaf), engine)

namespace Gives

variable {call : RawCall α} {next : α → RawCall β} {value : α} {answer : Option α}
  {outcome : Except Fault β}

theorem of_pure (value : α) : (pure value : RawCall α).Gives leaf (.ok value) := fun _ => rfl

theorem of_throw (fault : Fault) : (throw fault : RawCall α).Gives leaf (.error fault) :=
  fun _ => rfl

theorem of_ofExcept (outcome : Except Fault α) :
    (MonadExcept.ofExcept outcome : RawCall α).Gives leaf outcome :=
  fun engine => on_ofExcept leaf engine outcome

theorem then_ok (first : call.Gives leaf (.ok value)) (second : (next value).Gives leaf outcome) :
    (call >>= next).Gives leaf outcome := by
  intro engine
  rw [on_bind, first]
  exact second engine

theorem then_error {fault : Fault} (first : call.Gives leaf (.error fault)) :
    (call >>= next).Gives leaf (.error fault) := by
  intro engine
  rw [on_bind, first]

/-- A call gives what its parts give, one after the other. -/
theorem bind {first : Except Fault α} {second : α → Except Fault β} (gives : call.Gives leaf first)
    (rest : ∀ value, (next value).Gives leaf (second value)) :
    (call >>= next).Gives leaf (first >>= second) := by
  cases first with
  | error fault => exact then_error gives
  | ok value => exact then_ok gives (rest value)

theorem of_sure (known : answer = some value) (rest : (next value).Gives leaf outcome) :
    (sure answer >>= next).Gives leaf outcome :=
  then_ok (fun engine => by rw [known, on_sure]) rest

theorem of_get {next : RawLeaf → RawCall β} (rest : (next leaf).Gives leaf outcome) :
    (get >>= next).Gives leaf outcome :=
  then_ok (on_get leaf) rest

end Gives

end RawCall

/-! ## Words and vectors -/

namespace Machine

theorem add_eq {a b : Nat} (small : a + b < addressLimit) : add a b = some (a + b) := if_pos small

theorem sub_eq {a b : Nat} (le : b ≤ a) : sub a b = some (a - b) := if_pos le

theorem mul_eq {a b : Nat} (small : a * b < addressLimit) : mul a b = some (a * b) := if_pos small

theorem setAt_eq {list : List α} {i : Nat} (inside : i < list.length) (item : α) :
    setAt list i item = some (list.set i item) := if_pos inside

theorem cut_append {first second : List α} {i : Nat} (length : first.length = i) :
    cut (first ++ second) i = some (first, second) := by
  rw [cut, if_pos (by rw [List.length_append]; omega), List.take_left' length,
    List.drop_left' length]

theorem insertAt_append {first second : List α} {i : Nat} (length : first.length = i) (item : α) :
    insertAt (first ++ second) i item = some (first ++ item :: second) := by
  rw [insertAt, if_pos (by rw [List.length_append]; omega), List.take_left' length,
    List.drop_left' length]

theorem removeAt_append {first second : List α} {i : Nat} (length : first.length = i) (item : α) :
    removeAt (first ++ item :: second) i = some (first ++ second) := by
  have rest : (first ++ item :: second).drop (i + 1) = second := by
    rw [← List.drop_drop, List.drop_left' length]
    rfl
  rw [removeAt, if_pos (by rw [List.length_append, List.length_cons]; omega),
    List.take_left' length, rest]

/-- The row before a slot that is there ends somewhere. -/
theorem ceiling_eq {offsets : List Nat} {slot : Nat} (inside : slot ≤ offsets.length)
    (pageSize : Nat) :
    ceiling pageSize offsets slot = some (OffsetTable.ceiling offsets pageSize slot) := by
  cases slot with
  | zero => rfl
  | succ previous =>
    rw [ceiling, OffsetTable.ceiling, List.getElem?_eq_getElem inside]
    rfl

theorem lowerAll_eq {length : Nat} {offsets : List Nat}
    (high : ∀ offset ∈ offsets, length ≤ offset) :
    lowerAll length offsets = (offsets.map (· - length), .ok ()) := by
  induction offsets with
  | nil => rfl
  | cons offset rest ih =>
    rw [List.forall_mem_cons] at high
    rw [lowerAll, if_neg (Nat.not_lt.mpr high.1), ih high.2]
    rfl

theorem raiseAll_eq {length top : Nat} {offsets : List Nat} (small : top + length < addressLimit)
    (low : ∀ offset ∈ offsets, offset ≤ top) :
    raiseAll length offsets = some (offsets.map (· + length)) := by
  induction offsets with
  | nil => rfl
  | cons offset rest ih =>
    rw [List.forall_mem_cons] at low
    rw [raiseAll, add_eq (by omega), ih low.2]
    rfl

theorem keyTag_eq {row : Row} (storable : row.Storable) : keyTag row = some row.keyTag := by
  obtain ⟨_ | key, pos⟩ := row
  · rfl
  · have short : key.length < 2 ^ 63 := storable
    exact add_eq (Nat.lt_of_le_of_lt (Nat.succ_le_of_lt short) (by decide))

/-- The tag of a storable row takes no more bytes than a reader takes. -/
theorem encodedLength_le {row : Row} (storable : row.Storable) :
    Varint.encodedLength row.keyTag ≤ Varint.maxLength := by
  have tag := row.keyTag_le
  have short : row.keyBytes.length < 2 ^ 63 := storable
  exact Varint.encodedLength_le (by omega)

/-- Measuring a row of a standard format does not stop, and its size leaves room in a word. -/
theorem rowSize_eq (standard : index.Standard) {row : Row} (storable : row.Storable)
    (form : RowForm) : rowSize index.format form row = some (index.format.size form row) ∧
      index.format.size form row < 2 ^ 63 + 18 := by
  have short : row.keyBytes.length < 2 ^ 63 := storable
  cases form with
  | positionOnly =>
    refine ⟨rfl, ?_⟩
    rw [standard.size_positionOnly]
    omega
  | full =>
    have tag := encodedLength_le storable
    simp only [Varint.maxLength] at tag
    have limit : addressLimit = 2 ^ 64 := rfl
    simp only [rowSize, keyTag_eq storable, RowFormat.size, positionLength]
    refine ⟨?_, by omega⟩
    show (add 8 (Varint.encodedLength row.keyTag) >>= fun header =>
      add header row.keyBytes.length) = _
    rw [add_eq (by omega)]
    exact add_eq (by omega)

end Machine

/-! ## Reading rows -/

namespace RawLeaf

open Machine RawCall

variable {leaf : RawLeaf} {page : Buffer}

theorem take_gives (leaf : RawLeaf) (overflow cut : Corruption) (page : Buffer)
    (cursor length : Nat) :
    (take overflow cut page cursor length).Gives leaf
      (if addressLimit ≤ cursor + length then .error (.corruption overflow)
      else if page.size < cursor + length then .error (.corruption cut)
      else .ok (page.slice cursor length, cursor + length)) := by
  unfold take
  by_cases long : addressLimit ≤ cursor + length
  · rw [if_pos long, if_pos long]
    exact .of_throw _
  rw [if_neg long, if_neg long]
  by_cases past : page.size < cursor + length
  · rw [if_pos past]
    simp only [if_pos past]
    exact .of_throw _
  · rw [if_neg past]
    simp only [if_neg past]
    refine .of_sure (if_pos ⟨Nat.le_add_right .., Nat.le_of_not_lt past⟩) ?_
    rw [Nat.add_sub_cancel_left]
    exact .of_pure _

/-- The reader of a variable-length number takes the bytes that `Varint.scan` does, and adds what
they spell to what was taken before. -/
theorem readTag_gives (small : page.size ≤ maxPageSize) {rounds taken shift cursor : Nat}
    (bits : shift + 7 * rounds = 70) (within : cursor ≤ page.size) :
    (readTag page rounds taken shift cursor).Gives leaf
      (match Varint.scan rounds (page.slice cursor rounds) with
      | .error .cut => .error (.corruption .rowKeyLengthCut)
      | .error .tooLong => .error (.corruption .rowKeyLengthTooLong)
      | .ok (value, rest) => .ok ((taken + 2 ^ shift * value) % UInt64.size,
          cursor + ((page.slice cursor rounds).length - rest.length))) := by
  have limit : addressLimit = 2 ^ 64 := rfl
  simp only [maxPageSize] at small
  -- By `bits` every round left has a shift of its own, and the last of them is 63.
  induction rounds generalizing taken shift cursor with
  | zero => exact .of_throw _
  | succ rounds ih =>
    unfold readTag
    cases here : page[cursor]? with
    | none =>
      rw [Buffer.slice_of_none here]
      exact .of_throw _
    | some byte =>
      have inside : cursor < page.size := (Array.getElem?_eq_some_iff.mp here).1
      rw [Buffer.slice_succ here]
      refine .of_sure (add_eq (by omega)) (.of_sure (if_pos (by omega)) ?_)
      have group : (byte.toNat % 128) <<< shift % UInt64.size = 2 ^ shift * (byte.toNat % 128) %
          UInt64.size := by rw [Nat.shiftLeft_eq, Nat.mul_comm]
      rw [group, Nat.add_mod_mod]
      by_cases last : byte.toNat < 128
      · simp only [if_pos last, Varint.scan, Nat.mod_eq_of_lt last, List.length_cons,
          Nat.add_sub_cancel_left]
        exact .of_pure _
      · simp only [if_neg last, Varint.scan]
        refine .of_sure (add_eq (by omega)) ?_
        have rest := @ih ((taken + 2 ^ shift * (byte.toNat % 128)) % UInt64.size) (shift + 7)
          (cursor + 1) (by omega) (by omega)
        cases scanned : Varint.scan rounds (page.slice (cursor + 1) rounds) with
        | error failure =>
          rw [scanned] at rest
          cases failure <;> exact rest
        | ok found =>
          obtain ⟨value, after⟩ := found
          rw [scanned] at rest
          have shorter := Varint.length_of_scan scanned
          have high : byte.toNat % 128 = byte.toNat - 128 := by
            have := byte.toNat_lt
            omega
          have spelled : ((taken + 2 ^ shift * (byte.toNat % 128)) % UInt64.size +
              2 ^ (shift + 7) * value) % UInt64.size =
                (taken + 2 ^ shift * (byte.toNat - 128 + 128 * value)) % UInt64.size := by
            rw [Nat.mod_add_mod, high, Nat.pow_add, Nat.mul_assoc, Nat.add_assoc, ← Nat.mul_add]
          have consumed : cursor + 1 + ((page.slice (cursor + 1) rounds).length - after.length) =
              cursor + ((byte :: page.slice (cursor + 1) rounds).length - after.length) := by
            rw [List.length_cons]
            omega
          simp only [Except.map]
          rw [← spelled, ← consumed]
          exact rest

theorem readKey_gives (small : page.size ≤ maxPageSize) {cursor : Nat}
    (within : cursor ≤ page.size) :
    (readKey page cursor).Gives leaf (RowFormat.readKey page cursor) := by
  have tag := @readTag_gives leaf page small Varint.maxLength 0 0 cursor rfl within
  simp only [RowFormat.readKey, Varint.read]
  cases scanned : Varint.scan Varint.maxLength (page.slice cursor Varint.maxLength) with
  | error failure =>
    rw [scanned] at tag
    cases failure <;> exact .then_error tag
  | ok found =>
    obtain ⟨value, rest⟩ := found
    rw [scanned] at tag
    refine .then_ok tag ?_
    simp only [Nat.zero_add, Nat.pow_zero, Nat.one_mul, Except.map]
    cases value % UInt64.size with
    | zero => exact .of_pure _
    | succ length =>
      have key := take_gives leaf .rowLengthOverflow .rowCut page
        (cursor + ((page.slice cursor Varint.maxLength).length - rest.length)) length
      simp only
      split
      · next long =>
        rw [if_pos long] at key
        exact .then_error key
      · next short =>
        rw [if_neg short] at key
        split
        · next past =>
          rw [if_pos past] at key
          exact .then_error key
        · next inside =>
          rw [if_neg inside] at key
          exact .then_ok key (.of_pure _)

/-- A machine reads from a page what a row format does. -/
theorem readRow_gives (format : RowFormat) (form : RowForm) (small : page.size ≤ maxPageSize)
    (offset : Nat) :
    (readRow format form page offset).Gives leaf (format.read form page offset) := by
  have limit : addressLimit = 2 ^ 64 := rfl
  have taken := take_gives leaf .rowPositionCut .rowPositionCut page offset positionLength
  unfold readRow RowFormat.read
  by_cases past : page.size < offset
  · rw [if_pos past, if_pos past]
    exact .of_throw _
  rw [if_neg past, if_neg past]
  by_cases cut : page.size < offset + positionLength
  · rw [if_pos cut, ite_self] at taken
    rw [if_pos cut]
    exact .then_error taken
  simp only [maxPageSize] at small
  rw [if_neg (by omega), if_neg cut] at taken
  rw [if_neg cut]
  refine .then_ok taken ?_
  cases form with
  | positionOnly => exact .of_ofExcept _
  | full => exact .bind (readKey_gives small (Nat.le_of_not_lt cut)) fun key => .of_pure _

end RawLeaf

/-! ## Following a call -/

open RawCall

/-- On a leaf the machine does what the call does, and shows its answers by `view`; the leaf is
steady afterwards, and `post` holds of it and of the answer if there is one. -/
def Follows (index : Index) (view : α → β) (raw : RawCall β) (call : LeafCall α) (leaf : Leaf)
    (post : α → Leaf → Prop) : Prop :=
  ∀ engine, ∃ outcome later after, call.on leaf engine = ((outcome, later), after) ∧
    raw.on leaf.raw engine = some ((outcome.map view, later.raw), after) ∧ later.Steady index ∧
    ∀ value, outcome = .ok value → post value later

namespace Follows

variable {view : α → β} {views : γ → δ} {raw : RawCall β} {call : LeafCall α} {leaf : Leaf}
  {post : α → Leaf → Prop} {goal : γ → Leaf → Prop}

theorem of_pure (steady : leaf.Steady index) {value : α} (holds : post value leaf) :
    Follows index view (pure (view value)) (pure value) leaf post := by
  intro engine
  refine ⟨.ok value, leaf, engine, rfl, rfl, steady, ?_⟩
  rintro _ ⟨⟩
  exact holds

theorem of_throw (steady : leaf.Steady index) (fault : Fault) :
    Follows index view (throw fault) (throw fault) leaf post :=
  fun engine => ⟨.error fault, leaf, engine, rfl, rfl, steady, nofun⟩

/-- The machine finds out what the call knows the outcome of. -/
theorem of_gives {raw : RawCall α} {outcome : Except Fault α} (steady : leaf.Steady index)
    (gives : raw.Gives leaf.raw outcome) :
    Follows index id raw (MonadExcept.ofExcept outcome) leaf
      fun value later => later = leaf ∧ outcome = .ok value := by
  intro engine
  refine ⟨outcome, leaf, engine, LeafCall.on_ofExcept .., ?_, steady, fun _ ok => ⟨rfl, ok⟩⟩
  rw [gives]
  cases outcome <;> rfl

theorem of_engine (steady : leaf.Steady index) (call : EngineCall α) :
    Follows index id (liftM call) (liftM call) leaf fun _ later => later = leaf := by
  intro engine
  refine ⟨_, leaf, _, LeafCall.on_engine .., ?_, steady, fun _ _ => rfl⟩
  rw [on_engine]
  cases (call.on engine).1 <;> rfl

theorem imp (follows : Follows index view raw call leaf post) {weaker : α → Leaf → Prop}
    (weaken : ∀ value later, post value later → weaker value later) :
    Follows index view raw call leaf weaker := by
  intro engine
  obtain ⟨outcome, later, after, run, rawRun, steady, holds⟩ := follows engine
  exact ⟨outcome, later, after, run, rawRun, steady,
    fun value ok => weaken value later (holds value ok)⟩

/-- Two calls are followed one after the other. -/
theorem bind {rawNext : β → RawCall δ} {next : α → LeafCall γ}
    (first : Follows index view raw call leaf post)
    (second : ∀ value later, later.Steady index → post value later →
      Follows index views (rawNext (view value)) (next value) later goal) :
    Follows index views (raw >>= rawNext) (call >>= next) leaf goal := by
  intro engine
  obtain ⟨outcome, middle, between, run, rawRun, steady, holds⟩ := first engine
  rw [on_bind, rawRun, LeafCall.on_bind, run]
  cases outcome with
  | error fault => exact ⟨.error fault, middle, between, rfl, rfl, steady, nofun⟩
  | ok value => exact second value middle steady (holds value rfl) between

/-- A call on the engine leaves the leaf as it is. -/
theorem engine {rawNext : γ → RawCall β} {next : γ → LeafCall α} (steady : leaf.Steady index)
    (call : EngineCall γ)
    (rest : ∀ value, Follows index view (rawNext value) (next value) leaf post) :
    Follows index view (liftM call >>= rawNext) (liftM call >>= next) leaf post := by
  refine .bind (of_engine steady call) ?_
  rintro value _ _ rfl
  exact rest value

/-- The machine follows a call that goes on as another does on another leaf, if the machine does
so too. -/
theorem of_on {other : Leaf} {rest : RawCall β} {remains : LeafCall α}
    (rawStep : ∀ engine, raw.on leaf.raw engine = rest.on other.raw engine)
    (step : ∀ engine, call.on leaf engine = remains.on other engine)
    (follows : Follows index view rest remains other post) :
    Follows index view raw call leaf post := by
  intro engine
  rw [rawStep, step]
  exact follows engine

theorem get {rawNext : RawLeaf → RawCall β} {next : Leaf → LeafCall α}
    (rest : Follows index view (rawNext leaf.raw) (next leaf) leaf post) :
    Follows index view (get >>= rawNext) (get >>= next) leaf post :=
  rest.of_on (on_get_bind leaf.raw · rawNext) (LeafCall.on_get_bind leaf · next)

/-- The machine looks at the leaf. -/
theorem rawGet {rawNext : RawLeaf → RawCall β}
    (rest : Follows index view (rawNext leaf.raw) call leaf post) :
    Follows index view (MonadState.get >>= rawNext) call leaf post :=
  rest.of_on (on_get_bind leaf.raw · rawNext) fun _ => rfl

/-- The call looks at the leaf. -/
theorem callGet {next : Leaf → LeafCall α} (rest : Follows index view raw (next leaf) leaf post) :
    Follows index view raw (MonadState.get >>= next) leaf post :=
  rest.of_on (fun _ => rfl) (LeafCall.on_get_bind leaf · next)

theorem callOk {outcome : Except Fault γ} {value : γ} {next : γ → LeafCall α}
    (known : outcome = .ok value) (rest : Follows index view raw (next value) leaf post) :
    Follows index view raw (MonadExcept.ofExcept outcome >>= next) leaf post := by
  refine rest.of_on (fun _ => rfl) ?_
  intro engine
  rw [LeafCall.on_bind, LeafCall.on_ofExcept, known]

/-- The machine makes, step by step, a change that the call makes at once. -/
theorem becomes {first : RawCall PUnit} {change : LeafCall PUnit} {rawNext : PUnit → RawCall β}
    {next : PUnit → LeafCall α} {new : Leaf}
    (makes : ∀ engine, first.on leaf.raw engine = some ((.ok ⟨⟩, new.raw), engine))
    (changes : ∀ engine, change.on leaf engine = ((.ok ⟨⟩, new), engine))
    (rest : Follows index view (rawNext ⟨⟩) (next ⟨⟩) new post) :
    Follows index view (first >>= rawNext) (change >>= next) leaf post := by
  refine rest.of_on ?_ ?_
  · intro engine
    rw [on_bind, makes]
  · intro engine
    rw [LeafCall.on_bind, changes]

/-- The machine goes on with a value that is there. -/
theorem sure {answer : Option γ} {value : γ} {rawNext : γ → RawCall β} (known : answer = some value)
    (rest : Follows index view (rawNext value) call leaf post) :
    Follows index view (RawCall.sure answer >>= rawNext) call leaf post :=
  rest.of_on (on_sure_bind leaf.raw · known rawNext) fun _ => rfl

/-- The machine finds out what the call knows. -/
theorem still {first : RawCall γ} {value : γ} {rawNext : γ → RawCall β}
    (gives : first.Gives leaf.raw (.ok value))
    (rest : Follows index view (rawNext value) call leaf post) :
    Follows index view (first >>= rawNext) call leaf post := by
  refine rest.of_on ?_ fun _ => rfl
  intro engine
  rw [on_bind, gives]

/-- A call on another leaf leaves this one alone, and both leaves are steady afterwards. -/
theorem onOther {raw : RawCall α} {call : LeafCall α} {target : Leaf} (steady : leaf.Steady index)
    (follows : Follows index id raw call target post) :
    Follows index (fun answer => (answer.1, answer.2.raw)) (raw.onOther target.raw)
      (call.onOther target) leaf
      fun answer later => later = leaf ∧ answer.2.Steady index ∧ post answer.1 answer.2 := by
  intro engine
  obtain ⟨outcome, other, after, run, rawRun, ready, holds⟩ := follows engine
  refine ⟨outcome.map (·, other), leaf, after, ?_, ?_, steady, ?_⟩
  · rw [LeafCall.on_onOther, run]
    cases outcome <;> rfl
  · show (raw.on target.raw engine).map _ = _
    rw [rawRun]
    cases outcome <;> rfl
  · intro answer ok
    cases outcome with
    | error fault => cases ok
    | ok value =>
      cases ok
      exact ⟨rfl, ready, holds value rfl⟩

theorem ite {p q : Prop} [Decidable p] [Decidable q] {rawElse : RawCall β} {callElse : LeafCall α}
    (same : p ↔ q) (yes : q → Follows index view raw call leaf post)
    (no : ¬ q → Follows index view rawElse callElse leaf post) :
    Follows index view (if p then raw else rawElse) (if q then call else callElse) leaf post := by
  by_cases decided : q
  · rw [if_pos decided, if_pos (same.mpr decided)]
    exact yes decided
  · rw [if_neg decided, if_neg (mt same.mp decided)]
    exact no decided

end Follows

end SlottedLeaf
