import SlottedLeaf.Proofs.Calls
import SlottedLeaf.Proofs.Layout
import Mathlib.Data.List.Forall2

/-!
# Looking at rows

A row is decoded when it is first looked at, and stays so. A call that only looks at rows turns the
leaf into one with some more rows decoded (`Leaf.Decodes`), counts them and does nothing else; that
is what `LeafCall.Looks` says. What a leaf shows, its entries, is the same before and after.
-/

namespace SlottedLeaf

variable {α β : Type} {index : Index}

/-! ## Leaves with more rows decoded -/

/-- The row of a slot, decoded or not. -/
def Slot.shown (decode : Nat → Except Fault Row) (slot : Slot) : Except Fault Row :=
  match slot.row with
  | some row => .ok row
  | none => decode slot.offset

/-- `later` is `slots` with `n` more rows decoded. -/
inductive Slot.Decodes (decode : Nat → Except Fault Row) : List Slot → Nat → List Slot → Prop where
  | nil : Decodes decode [] 0 []
  | keep (slot : Slot) {slots later : List Slot} {n : Nat} :
      Decodes decode slots n later → Decodes decode (slot :: slots) n (slot :: later)
  | decode {offset : Nat} {row : Row} {slots later : List Slot} {n : Nat} :
      decode offset = .ok row → Decodes decode slots n later →
        Decodes decode (⟨offset, none⟩ :: slots) (n + 1) (⟨offset, some row⟩ :: later)

namespace Slot.Decodes

variable {decode : Nat → Except Fault Row} {slots middle later : List Slot} {n m : Nat}

theorem refl (slots : List Slot) : Decodes decode slots 0 slots := by
  induction slots with
  | nil => exact .nil
  | cons slot rest ih => exact .keep slot ih

theorem trans (first : Decodes decode slots n middle) (second : Decodes decode middle m later) :
    Decodes decode slots (n + m) later := by
  induction first generalizing m later with
  | nil =>
    rw [Nat.zero_add]
    exact second
  | keep slot _ ih =>
    cases second with
    | keep _ rest => exact .keep slot (ih rest)
    | decode decoded rest => exact .decode decoded (ih rest)
  | decode decoded _ ih =>
    cases second with
    | keep _ rest =>
      rw [Nat.add_right_comm]
      exact .decode decoded (ih rest)

theorem offsets (decodes : Decodes decode slots n later) :
    later.map Slot.offset = slots.map Slot.offset := by
  induction decodes with
  | nil => rfl
  | keep slot _ ih => rw [List.map_cons, List.map_cons, ih]
  | decode _ _ ih => rw [List.map_cons, List.map_cons, ih]

theorem length (decodes : Decodes decode slots n later) : later.length = slots.length := by
  simpa using congrArg List.length decodes.offsets

theorem shown (decodes : Decodes decode slots n later) :
    later.map (Slot.shown decode) = slots.map (Slot.shown decode) := by
  induction decodes with
  | nil => rfl
  | keep slot _ ih => rw [List.map_cons, List.map_cons, ih]
  | decode decoded _ ih =>
    rw [List.map_cons, List.map_cons, ih]
    exact congrArg (· :: _) decoded.symm

theorem set {i offset : Nat} {row : Row} (here : slots[i]? = some ⟨offset, none⟩)
    (decoded : decode offset = .ok row) :
    Decodes decode slots 1 (slots.set i ⟨offset, some row⟩) := by
  induction slots generalizing i with
  | nil => simp at here
  | cons slot rest ih =>
    cases i with
    | zero =>
      simp only [List.getElem?_cons_zero, Option.some.injEq] at here
      subst here
      exact .decode decoded (refl rest)
    | succ i => exact .keep slot (ih (by simpa using here))

theorem of_decodeSlots (slots : List Slot) :
    Decodes decode slots (Leaf.decodeSlots decode slots).2.1 (Leaf.decodeSlots decode slots).1 := by
  induction slots with
  | nil => exact .nil
  | cons slot rest ih =>
    obtain ⟨offset, _ | row⟩ := slot
    · simp only [Leaf.decodeSlots]
      cases decoded : decode offset with
      | error fault => exact refl _
      | ok row => exact .decode decoded ih
    · exact .keep _ ih

end Slot.Decodes

/-- `later` is `leaf` with `n` more rows decoded. -/
structure Leaf.Decodes (index : Index) (leaf : Leaf) (n : Nat) (later : Leaf) : Prop where
  rest : later = { leaf with slots := later.slots }
  slots : Slot.Decodes (leaf.decodeAt index) leaf.slots n later.slots

namespace Leaf.Decodes

variable {leaf middle later : Leaf} {n m : Nat}

theorem refl (leaf : Leaf) : leaf.Decodes index 0 leaf := ⟨rfl, .refl _⟩

theorem id (decodes : leaf.Decodes index n later) : later.id = leaf.id := by
  rw [decodes.rest]

theorem parent (decodes : leaf.Decodes index n later) : later.parent = leaf.parent := by
  rw [decodes.rest]

theorem form (decodes : leaf.Decodes index n later) : later.form = leaf.form := by
  rw [decodes.rest]

theorem count (decodes : leaf.Decodes index n later) : later.count = leaf.count :=
  decodes.slots.length

theorem offsets (decodes : leaf.Decodes index n later) : later.offsets = leaf.offsets :=
  decodes.slots.offsets

theorem start (decodes : leaf.Decodes index n later) : later.start = leaf.start :=
  congrArg (headerLength + entryLength * ·) decodes.count

/-- Decoding rows does not change how the others decode. -/
theorem decodeAt (decodes : leaf.Decodes index n later) :
    later.decodeAt index = leaf.decodeAt index := by
  funext offset
  unfold Leaf.decodeAt
  rw [decodes.start, decodes.rest]

theorem trans (first : leaf.Decodes index n middle) (second : middle.Decodes index m later) :
    leaf.Decodes index (n + m) later := by
  refine ⟨?_, first.slots.trans ?_⟩
  · rw [second.rest, first.rest]
  · rw [← first.decodeAt]
    exact second.slots

end Leaf.Decodes

/-- What asking for the row of a slot answers. -/
def Leaf.shown (index : Index) (leaf : Leaf) (slot : Nat) : Except Fault Row :=
  (leaf.slots.map (Slot.shown (leaf.decodeAt index)))[slot]?.getD
    (.error (.invalid .slotOutOfRange))

/-- Decoding rows changes no answer. -/
theorem Leaf.Decodes.shown {leaf later : Leaf} {n : Nat} (decodes : leaf.Decodes index n later) :
    later.shown index = leaf.shown index := by
  funext slot
  unfold Leaf.shown
  rw [decodes.decodeAt, decodes.slots.shown]

/-! ## Calls that only look -/

/-- On this leaf the call has this outcome, and all it does is to decode rows and count them. -/
def LeafCall.Looks (index : Index) (call : LeafCall α) (leaf : Leaf) (outcome : Except Fault α) :
    Prop :=
  ∃ n later, leaf.Decodes index n later ∧
    ∀ engine, call.on leaf engine = ((outcome, later), engine.counted .rowsDecoded n)

namespace LeafCall.Looks

variable {leaf : Leaf}

theorem of_still {call : LeafCall α} {outcome : Except Fault α}
    (still : ∀ engine, call.on leaf engine = ((outcome, leaf), engine)) :
    call.Looks index leaf outcome :=
  ⟨0, leaf, .refl leaf, fun engine => by rw [still, Engine.counted_zero]⟩

/-- Looking twice is looking, with the outcome of the second look. -/
theorem bind {call : LeafCall α} {next : α → LeafCall β} {value : α}
    {answer : Except Fault β → Prop} (first : call.Looks index leaf (.ok value))
    (second : ∀ n later, leaf.Decodes index n later →
      ∃ outcome, (next value).Looks index later outcome ∧ answer outcome) :
    ∃ outcome, (call >>= next).Looks index leaf outcome ∧ answer outcome := by
  obtain ⟨n, middle, decodes, run⟩ := first
  obtain ⟨outcome, ⟨m, later, more, rerun⟩, answers⟩ := second n middle decodes
  refine ⟨outcome, ⟨n + m, later, decodes.trans more, ?_⟩, answers⟩
  intro engine
  rw [on_bind, run]
  simp only [rerun, Engine.counted_counted]

end LeafCall.Looks

namespace Leaf

variable {leaf : Leaf}

theorem row_on (index : Index) (slot : Nat) (leaf : Leaf) (engine : Engine) :
    (row index slot).on leaf engine =
      match leaf.slots[slot]? with
      | none => ((.error (.invalid .slotOutOfRange), leaf), engine)
      | some ⟨_, some row⟩ => ((.ok row, leaf), engine)
      | some ⟨offset, none⟩ =>
        match leaf.decodeAt index offset with
        | .error fault => ((.error fault, leaf), engine)
        | .ok row =>
          ((.ok row, { leaf with slots := leaf.slots.set slot ⟨offset, some row⟩ }),
            engine.counted .rowsDecoded 1) := by
  rcases here : leaf.slots[slot]? with _ | ⟨offset, _ | known⟩
  · simp only [row, LeafCall.on_bind, LeafCall.on_get, here, LeafCall.on_throw]
  · cases decoded : leaf.decodeAt index offset <;>
      simp only [row, LeafCall.on_bind, LeafCall.on_get, here, decoded, LeafCall.on_ofExcept,
        LeafCall.on_set, LeafCall.on_count, LeafCall.on_pure]
  · simp only [row, LeafCall.on_bind, LeafCall.on_get, here, LeafCall.on_pure]

theorem row_outcome (index : Index) (slot : Nat) (leaf : Leaf) (engine : Engine) :
    ((row index slot).on leaf engine).1.1 = leaf.shown index slot := by
  rw [row_on, shown, List.getElem?_map]
  rcases leaf.slots[slot]? with _ | ⟨offset, _ | known⟩
  · rfl
  · simp only [Option.map_some, Option.getD_some, Slot.shown]
    cases leaf.decodeAt index offset <;> rfl
  · rfl

theorem loadRows_on (index : Index) (leaf : Leaf) (engine : Engine) :
    (loadRows index).on leaf engine =
      (((decodeSlots (leaf.decodeAt index) leaf.slots).2.2,
        { leaf with slots := (decodeSlots (leaf.decodeAt index) leaf.slots).1 }),
        engine.counted .rowsDecoded (decodeSlots (leaf.decodeAt index) leaf.slots).2.1) := by
  simp [loadRows, LeafCall.on_bind]

end Leaf

/-! ## What a leaf shows -/

/-- A slot shows an entry: it is decoded, or it decodes to the entry. -/
structure Slot.Shows (decode : Nat → Except Fault Row) (slot : Slot) (entry : RowEntry) : Prop where
  offset : slot.offset = entry.offset
  row : slot.row = some entry.row ∨ slot.row = none ∧ decode entry.offset = .ok entry.row

namespace Slot.Shows

variable {decode : Nat → Except Fault Row} {slots later : List Slot} {entries : List RowEntry}

theorem of_slots (entries : List RowEntry) :
    List.Forall₂ (Shows decode) (entries.map RowEntry.slot) entries := by
  induction entries with
  | nil => exact .nil
  | cons entry rest ih => exact .cons ⟨rfl, .inl rfl⟩ ih

theorem offsets (shows : List.Forall₂ (Shows decode) slots entries) :
    slots.map Slot.offset = entries.map RowEntry.offset := by
  induction shows with
  | nil => rfl
  | cons here _ ih => rw [List.map_cons, List.map_cons, here.offset, ih]

theorem getElem? (shows : List.Forall₂ (Shows decode) slots entries) {i : Nat} {entry : RowEntry}
    (here : entries[i]? = some entry) :
    ∃ slot, slots[i]? = some slot ∧ Shows decode slot entry := by
  induction shows generalizing i with
  | nil => simp at here
  | cons first _ ih =>
    cases i with
    | zero =>
      cases here
      exact ⟨_, rfl, first⟩
    | succ i => exact ih here

theorem decodes (shows : List.Forall₂ (Shows decode) slots entries) {n : Nat}
    (decodes : Slot.Decodes decode slots n later) : List.Forall₂ (Shows decode) later entries := by
  induction decodes generalizing entries with
  | nil => exact shows
  | keep slot _ ih =>
    cases shows with
    | cons here rest => exact .cons here (ih rest)
  | @decode offset row _ _ _ decoded _ ih =>
    cases shows with
    | @cons _ entry _ _ here rest =>
      refine .cons ⟨here.offset, .inl ?_⟩ (ih rest)
      obtain ⟨same, known | ⟨_, again⟩⟩ := here
      · cases known
      · have same : offset = entry.offset := same
        rw [← same, decoded] at again
        exact congrArg some (Except.ok.inj again)

/-- Slots show what they are once decoded. -/
theorem of_decodes {n : Nat} (decodes : Slot.Decodes decode slots n (entries.map RowEntry.slot)) :
    List.Forall₂ (Shows decode) slots entries := by
  generalize same : entries.map RowEntry.slot = later at decodes
  induction decodes generalizing entries with
  | nil =>
    obtain rfl := List.map_eq_nil_iff.mp same
    exact .nil
  | keep slot _ ih =>
    obtain ⟨entry, rest, rfl, rfl, more⟩ := List.map_eq_cons_iff.mp same
    exact .cons ⟨rfl, .inl rfl⟩ (ih more)
  | decode decoded _ ih =>
    obtain ⟨entry, rest, rfl, here, more⟩ := List.map_eq_cons_iff.mp same
    cases here
    exact .cons ⟨rfl, .inr ⟨rfl, decoded⟩⟩ (ih more)

end Slot.Shows

/-- The entries of a leaf, decoded or not. -/
def Leaf.Shows (index : Index) (leaf : Leaf) (entries : List RowEntry) : Prop :=
  List.Forall₂ (Slot.Shows (leaf.decodeAt index)) leaf.slots entries

/-- The leaf with these entries, all decoded. -/
def Leaf.holding (leaf : Leaf) (entries : List RowEntry) : Leaf :=
  { leaf with slots := entries.map RowEntry.slot }

/-- The leaf once it has changed to these entries, all decoded. -/
def Leaf.changed (leaf : Leaf) (entries : List RowEntry) : Leaf :=
  { leaf with slots := entries.map RowEntry.slot, written := false }

namespace Leaf

variable (leaf : Leaf) (entries : List RowEntry)

@[simp]
theorem id_holding : (leaf.holding entries).id = leaf.id := rfl

@[simp]
theorem parent_holding : (leaf.holding entries).parent = leaf.parent := rfl

@[simp]
theorem form_holding : (leaf.holding entries).form = leaf.form := rfl

@[simp]
theorem slots_holding : (leaf.holding entries).slots = entries.map RowEntry.slot := rfl

@[simp]
theorem image_holding : (leaf.holding entries).image = leaf.image := rfl

@[simp]
theorem count_holding : (leaf.holding entries).count = entries.length := List.length_map ..

@[simp]
theorem start_holding :
    (leaf.holding entries).start = headerLength + entryLength * entries.length := by
  rw [start, count_holding]

@[simp]
theorem offsets_holding : (leaf.holding entries).offsets = entries.map RowEntry.offset := by
  simp [offsets, RowEntry.slot, Function.comp_def]

@[simp]
theorem holding_holding (others : List RowEntry) :
    (leaf.holding others).holding entries = leaf.holding entries := rfl

@[simp]
theorem changed_holding (others : List RowEntry) :
    (leaf.holding others).changed entries = leaf.changed entries := rfl

@[simp]
theorem changed_changed (others : List RowEntry) :
    (leaf.changed others).changed entries = leaf.changed entries := rfl

@[simp]
theorem id_changed : (leaf.changed entries).id = leaf.id := rfl

@[simp]
theorem count_changed : (leaf.changed entries).count = entries.length := List.length_map ..

@[simp]
theorem start_changed :
    (leaf.changed entries).start = headerLength + entryLength * entries.length := by
  rw [start, count_changed]

/-- How a leaf reads that a call sets when it has changed the slots. -/
theorem changed_mk :
    (⟨leaf.id, leaf.parent, leaf.form, entries.map RowEntry.slot, false, leaf.image⟩ : Leaf) =
      leaf.changed entries := rfl

end Leaf

namespace Leaf.Shows

variable {leaf later : Leaf} {entries : List RowEntry} {n : Nat}

theorem count (shows : leaf.Shows index entries) : leaf.count = entries.length :=
  shows.length_eq

theorem offsets (shows : leaf.Shows index entries) : leaf.offsets = entries.map RowEntry.offset :=
  Slot.Shows.offsets shows

theorem decodes (shows : leaf.Shows index entries) (decodes : leaf.Decodes index n later) :
    later.Shows index entries := by
  unfold Leaf.Shows
  rw [decodes.decodeAt]
  exact Slot.Shows.decodes shows decodes.slots

theorem of_holding (leaf : Leaf) (entries : List RowEntry) :
    (leaf.holding entries).Shows index entries :=
  Slot.Shows.of_slots entries

theorem of_changed (leaf : Leaf) (entries : List RowEntry) :
    (leaf.changed entries).Shows index entries :=
  Slot.Shows.of_slots entries

end Leaf.Shows

namespace Leaf

variable {leaf later : Leaf} {entries : List RowEntry} {n : Nat}

theorem slot_injective : Function.Injective RowEntry.slot := by
  rintro ⟨_, _⟩ ⟨_, _⟩ ⟨⟩
  rfl

theorem entries_of_holding {others : List RowEntry}
    (same : leaf.holding entries = leaf.holding others) : entries = others :=
  List.map_injective_iff.mpr slot_injective (congrArg Leaf.slots same)

/-- On a leaf with every row decoded there is nothing left to decode. -/
theorem Decodes.of_holding (decodes : (leaf.holding entries).Decodes index n later) :
    n = 0 ∧ later = leaf.holding entries := by
  have still : ∀ {entries : List RowEntry} {decode : Nat → Except Fault Row} {slots : List Slot}
      {n : Nat}, Slot.Decodes decode (entries.map RowEntry.slot) n slots →
      n = 0 ∧ slots = entries.map RowEntry.slot := by
    intro entries decode slots n decodes
    induction entries generalizing slots n with
    | nil => cases decodes; exact ⟨rfl, rfl⟩
    | cons entry rest ih =>
      cases decodes with
      | keep _ more =>
        obtain ⟨rfl, rfl⟩ := ih more
        exact ⟨rfl, rfl⟩
  obtain ⟨none, same⟩ := still decodes.slots
  refine ⟨none, ?_⟩
  rw [decodes.rest, same]
  rfl

/-- On a leaf with every row decoded a call that only looks changes nothing. -/
theorem looks_holding {call : LeafCall α} {outcome : Except Fault α}
    (looks : call.Looks index (leaf.holding entries) outcome) (engine : Engine) :
    call.on (leaf.holding entries) engine = ((outcome, leaf.holding entries), engine) := by
  obtain ⟨n, later, decodes, run⟩ := looks
  obtain ⟨rfl, rfl⟩ := decodes.of_holding
  rw [run, Engine.counted_zero]

/-- What a leaf comes to hold does not depend on which rows are decoded. -/
theorem Decodes.holding (decodes : leaf.Decodes index n later) (entries : List RowEntry) :
    later.holding entries = leaf.holding entries := by
  rw [decodes.rest]
  rfl

/-- What a leaf changes to does not depend on which rows are decoded. -/
theorem Decodes.changed (decodes : leaf.Decodes index n later) (entries : List RowEntry) :
    later.changed entries = leaf.changed entries := by
  rw [decodes.rest]
  rfl

theorem looks_changed {call : LeafCall α} {outcome : Except Fault α}
    (looks : call.Looks index (leaf.changed entries) outcome) (engine : Engine) :
    call.on (leaf.changed entries) engine = ((outcome, leaf.changed entries), engine) :=
  @looks_holding _ index { leaf with written := false } entries _ _ looks engine

private theorem decodeSlots_of_shows {decode : Nat → Except Fault Row} {slots : List Slot}
    (shows : List.Forall₂ (Slot.Shows decode) slots entries) :
    ∃ n, decodeSlots decode slots = (entries.map RowEntry.slot, n, .ok ()) := by
  induction shows with
  | nil => exact ⟨0, rfl⟩
  | @cons slot entry _ _ here _ ih =>
    obtain ⟨n, rest⟩ := ih
    obtain ⟨offset, row⟩ := slot
    obtain ⟨rfl, rfl | ⟨rfl, decoded⟩⟩ := here
    · exact ⟨n, by simp only [decodeSlots, rest]; rfl⟩
    · exact ⟨n + 1, by simp only [decodeSlots, decoded, rest]; rfl⟩

/-- Slots that all decode become entries. -/
theorem entries_of_decodeSlots {decode : Nat → Except Fault Row} {slots : List Slot}
    (decoded : (decodeSlots decode slots).2.2 = .ok ()) :
    ∃ entries : List RowEntry, (decodeSlots decode slots).1 = entries.map RowEntry.slot := by
  induction slots with
  | nil => exact ⟨[], rfl⟩
  | cons slot rest ih =>
    obtain ⟨offset, _ | row⟩ := slot
    · cases read : decode offset with
      | error fault => simp [decodeSlots, read] at decoded
      | ok row =>
        simp only [decodeSlots, read] at decoded ⊢
        obtain ⟨entries, same⟩ := ih decoded
        exact ⟨⟨offset, row⟩ :: entries, congrArg (_ :: ·) same⟩
    · obtain ⟨entries, same⟩ := ih decoded
      exact ⟨⟨offset, row⟩ :: entries, congrArg (_ :: ·) same⟩

/-- A leaf whose rows all decode shows entries, and then holds them. -/
theorem shows_of_loadRows {engine after : Engine}
    (run : (Leaf.loadRows index).on leaf engine = ((.ok (), later), after)) :
    ∃ entries, leaf.Shows index entries ∧ later = leaf.holding entries := by
  rw [loadRows_on] at run
  obtain ⟨entries, same⟩ := entries_of_decodeSlots (congrArg (·.1.1) run)
  have decodes : Slot.Decodes (leaf.decodeAt index) leaf.slots _ _ := .of_decodeSlots leaf.slots
  rw [same] at run decodes
  exact ⟨entries, Slot.Shows.of_decodes decodes, (congrArg (·.1.2) run).symm⟩

theorem Shows.loadRows (shows : leaf.Shows index entries) :
    ∃ n, leaf.Decodes index n (leaf.holding entries) ∧ ∀ engine, (loadRows index).on leaf engine =
      ((.ok (), leaf.holding entries), engine.counted .rowsDecoded n) := by
  obtain ⟨n, loaded⟩ := decodeSlots_of_shows shows
  have decodes : Slot.Decodes (leaf.decodeAt index) leaf.slots
      (decodeSlots (leaf.decodeAt index) leaf.slots).2.1
      (decodeSlots (leaf.decodeAt index) leaf.slots).1 := .of_decodeSlots leaf.slots
  rw [loaded] at decodes
  refine ⟨n, ⟨rfl, decodes⟩, ?_⟩
  intro engine
  rw [loadRows_on, loaded]
  rfl

theorem Shows.rows (shows : leaf.Shows index entries) :
    ∃ n, leaf.Decodes index n (leaf.holding entries) ∧ ∀ engine, (rows index).on leaf engine =
      ((.ok (entries.map RowEntry.row), leaf.holding entries), engine.counted .rowsDecoded n) := by
  obtain ⟨n, decodes, run⟩ := shows.loadRows
  have loaded : loadedRows (entries.map RowEntry.slot) = .ok (entries.map RowEntry.row) := by
    clear shows decodes run
    unfold loadedRows
    induction entries with
    | nil => rfl
    | cons entry rest ih =>
      rw [List.map_cons, List.mapM_cons, ih]
      rfl
  refine ⟨n, decodes, ?_⟩
  intro engine
  simp only [Leaf.rows, LeafCall.on_bind, run, LeafCall.on_get, LeafCall.on_ofExcept]
  rw [show (leaf.holding entries).slots = entries.map RowEntry.slot from rfl, loaded]

/-- Collecting the rows of the leaf gives these. -/
def Collects (index : Index) (leaf : Leaf) (collected : List Row) : Prop :=
  ∀ engine, ((rows index).on leaf engine).1.1 = .ok collected

theorem Shows.collects (shows : leaf.Shows index entries) :
    leaf.Collects index (entries.map RowEntry.row) := by
  obtain ⟨n, _, run⟩ := shows.rows
  intro engine
  rw [run]

/-- There is one list of rows to be collected. -/
theorem Collects.unique {first second : List Row} (collects : leaf.Collects index first)
    (again : leaf.Collects index second) (engine : Engine) : first = second :=
  Except.ok.inj ((collects engine).symm.trans (again engine))

theorem Shows.row (shows : leaf.Shows index entries) {slot : Nat} {entry : RowEntry}
    (here : entries[slot]? = some entry) : (row index slot).Looks index leaf (.ok entry.row) := by
  obtain ⟨⟨offset, value⟩, found, same, known⟩ := Slot.Shows.getElem? shows here
  have same : offset = entry.offset := same
  subst same
  rcases known with known | ⟨known, decoded⟩
  · have known : value = some entry.row := known
    subst known
    exact .of_still fun engine => by rw [row_on, found]
  · have known : value = none := known
    subst known
    exact ⟨1, { leaf with slots := leaf.slots.set slot ⟨entry.offset, some entry.row⟩ },
      ⟨rfl, .set found decoded⟩, fun engine => by simp only [row_on, found, decoded]⟩

theorem row_of_count_le {slot : Nat} (past : leaf.count ≤ slot) (engine : Engine) :
    (row index slot).on leaf engine = ((.error (.invalid .slotOutOfRange), leaf), engine) := by
  rw [row_on, List.getElem?_eq_none past]

end Leaf

end SlottedLeaf
