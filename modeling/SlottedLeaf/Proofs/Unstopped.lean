import SlottedLeaf.Proofs.Rendering
import SlottedLeaf.Proofs.Sessions
import SlottedLeaf.Proofs.Shelves

/-!
# No page image stops a machine

A leaf is read from whatever image: its rows may overlap, repeat, stand in any order or not decode
at all. A machine plays any sequence of calls on it, whatever the rows are looked up to meanwhile,
and never stops. Every call ends with an answer or a fault, and leaves the vectors in shape.
-/

namespace SlottedLeaf

variable {σ α : Type} {index : Index}

/-! ## Sessions on a machine -/

/-- Something done with the leaf of a session. -/
inductive Move where
  | call (call : Call)
  /-- Place the cursor on the last row of the leaf. -/
  | last
  /-- Go on to the first row after the leaf. -/
  | next
  /-- Go on to the last row before the leaf. -/
  | previous
deriving DecidableEq, Repr

/-- A move, and what rows are looked up to while it is made. -/
structure Act where
  resolve : RowPos → Except Fault Row
  move : Move

/-- Every row that the act brings in has a key of fewer than `2 ^ 63` bytes, as any key in a memory
does. -/
structure Act.Storable (act : Act) : Prop where
  answers : ∀ pos row, act.resolve pos = .ok row → row.Storable
  inserts : ∀ row, act.move = .call (.insert row) → row.Storable

namespace Session

def move (index : Index) (nodes : NodeLayer σ) (session : Session σ) :
    Move → Except Fault Unit × Session σ
  | .call call => session.perform index nodes call
  | .last => (.ok (), { session with walk := (session.leaf.last, session.walk.2) })
  | .next =>
    let (outcome, walk) := (session.leaf.nextLeaf nodes).run.run session.walk
    (outcome, { session with walk })
  | .previous =>
    let (outcome, walk) := (session.leaf.previousLeaf nodes).run.run session.walk
    (outcome, { session with walk })

/-- The outcomes of acts, one after the other, and the session after them. -/
def play (index : Index) (nodes : NodeLayer σ) (session : Session σ) :
    List Act → List (Except Fault Unit) × Session σ
  | [] => ([], session)
  | act :: rest =>
    let (outcome, next) := session.move (index.lookingUp act.resolve) nodes act.move
    let (outcomes, later) := next.play index nodes rest
    (outcome :: outcomes, later)

end Session

/-- A session on a machine. -/
structure RawSession (σ : Type) where
  leaf : RawLeaf
  engine : Engine
  walk : Cursor × σ

namespace RawSession

def run (session : RawSession σ) (call : RawCall α) :
    Option (Except Fault Unit × RawSession σ) := do
  let ((outcome, leaf), engine) ← call.on session.leaf session.engine
  return (outcome.map fun _ => (), { session with leaf, engine })

def perform (index : Index) (nodes : NodeLayer σ) (session : RawSession σ) :
    Call → Option (Except Fault Unit × RawSession σ)
  | .insert row => session.run (RawLeaf.insert index row)
  | .remove row => session.run (RawLeaf.remove index row)
  | .split point onward => do
    match ← (RawLeaf.split index point).on session.leaf session.engine with
    | ((.ok other, leaf), engine) =>
      return (.ok (), { session with leaf := if onward then other else leaf, engine })
    | ((.error fault, leaf), engine) => return (.error fault, { session with leaf, engine })
  | .setParent parent => session.run (RawLeaf.setParent parent)
  | .row slot => session.run (RawLeaf.row index slot)
  | .rows => session.run (RawLeaf.collect index)
  | .find target past => do
    match ← (RawLeaf.seek index target past).on session.leaf session.engine with
    | ((.ok landing, leaf), engine) =>
      let (outcome, walk) := (landing.follow nodes leaf.id target past).run.run session.walk
      return (outcome, ⟨leaf, engine, walk⟩)
    | ((.error fault, leaf), engine) => return (.error fault, { session with leaf, engine })
  | .write => session.run (RawLeaf.write index)

def move (index : Index) (nodes : NodeLayer σ) (session : RawSession σ) :
    Move → Option (Except Fault Unit × RawSession σ)
  | .call call => session.perform index nodes call
  | .last => return (.ok (), { session with walk := (session.leaf.last, session.walk.2) })
  | .next => do
    let (outcome, walk) := (session.leaf.nextLeaf nodes).run.run session.walk
    return (outcome, { session with walk })
  | .previous => do
    let (outcome, walk) := (session.leaf.previousLeaf nodes).run.run session.walk
    return (outcome, { session with walk })

/-- The outcomes of acts and the session after them, unless the machine stops. -/
def play (index : Index) (nodes : NodeLayer σ) (session : RawSession σ) :
    List Act → Option (List (Except Fault Unit) × RawSession σ)
  | [] => return ([], session)
  | act :: rest => do
    let (outcome, next) ← session.move (index.lookingUp act.resolve) nodes act.move
    let (outcomes, later) ← next.play index nodes rest
    return (outcome :: outcomes, later)

end RawSession

/-- The session as a machine keeps it. -/
def Session.raw (session : Session σ) : RawSession σ :=
  ⟨session.leaf.raw, session.engine, session.walk⟩

/-- The vectors are in step, and the offsets fall and lie between the offset table and the end of
the page. -/
structure RawLeaf.InShape (index : Index) (leaf : RawLeaf) : Prop where
  rows : leaf.rows.length = leaf.offsets.length
  start : leaf.start = headerLength + entryLength * leaf.offsets.length
  falls : leaf.offsets.Pairwise (· ≥ ·)
  within : ∀ offset ∈ leaf.offsets, leaf.start ≤ offset ∧ offset ≤ index.pageSize

/-! ## A machine plays every session -/

theorem Leaf.Steady.inShape {leaf : Leaf} (steady : leaf.Steady index) :
    leaf.raw.InShape index := by
  have rows : leaf.raw.rows.length = leaf.count := List.length_map ..
  refine ⟨?_, ?_, (List.pairwise_cons.mp steady.falls).2, ?_⟩
  · rw [rows, leaf.length_raw]
  · rw [leaf.length_raw]
    rfl
  · intro offset member
    exact ⟨steady.clear offset member, steady.offset_le member⟩

theorem Leaf.last_raw (leaf : Leaf) : leaf.raw.last = leaf.last := by
  unfold RawLeaf.last Leaf.last
  rw [leaf.length_raw]
  cases leaf.count with
  | zero => rfl
  | succ slot =>
    rw [Machine.sub_eq (Nat.succ_pos slot)]
    rfl

theorem Index.hosted_lookingUp (standard : index.Standard) {act : Act} (storable : act.Storable) :
    (index.lookingUp act.resolve).Hosted where
  toStandard := Index.standard_lookingUp.mpr standard
  answers := storable.answers

namespace Session

variable {session : Session σ}

/-- The machine does the same to a session, and the leaf of the session is steady then. -/
def Mirrored (index : Index) (raw : Option (Except Fault Unit × RawSession σ))
    (made : Except Fault Unit × Session σ) : Prop :=
  raw = some (made.1, made.2.raw) ∧ made.2.leaf.Steady index

theorem mirrored_run {β : Type} {view : α → β} {raw : RawCall β} {call : LeafCall α}
    {post : α → Leaf → Prop} (follows : Follows index view raw call session.leaf post) :
    Mirrored index (session.raw.run raw) (session.run call) := by
  obtain ⟨outcome, later, after, run, rawRun, steady, -⟩ := follows session.engine
  have rawRun : raw.on session.raw.leaf session.raw.engine = _ := rawRun
  refine ⟨?_, ?_⟩
  · simp only [RawSession.run, Session.run, run, rawRun]
    cases outcome <;> rfl
  · simp only [Session.run, run]
    exact steady

theorem mirrored_split (nodes : NodeLayer σ) (hosted : index.Hosted)
    (steady : session.leaf.Steady index) (point : Nat) (onward : Bool) :
    Mirrored index (session.raw.perform index nodes (.split point onward))
      (session.perform index nodes (.split point onward)) := by
  obtain ⟨outcome, later, after, run, rawRun, steady, ready⟩ :=
    Machine.split_follows hosted steady point session.engine
  have rawRun : (RawLeaf.split index point).on session.raw.leaf session.raw.engine = _ := rawRun
  cases outcome with
  | error fault =>
    simp only [Mirrored, RawSession.perform, Session.perform, run, rawRun]
    exact ⟨rfl, steady⟩
  | ok other =>
    simp only [Mirrored, RawSession.perform, Session.perform, run, rawRun]
    cases onward with
    | false => exact ⟨rfl, steady⟩
    | true => exact ⟨rfl, ready other rfl⟩

theorem mirrored_find (nodes : NodeLayer σ) (hosted : index.Hosted)
    (steady : session.leaf.Steady index) (target : Row) (past : Bool) :
    Mirrored index (session.raw.perform index nodes (.find target past))
      (session.perform index nodes (.find target past)) := by
  obtain ⟨outcome, later, after, run, rawRun, steady, -⟩ :=
    Machine.seek_follows hosted steady target past session.engine
  have rawRun : (RawLeaf.seek index target past).on session.raw.leaf session.raw.engine = _ :=
    rawRun
  cases outcome with
  | error fault =>
    simp only [Mirrored, RawSession.perform, Session.perform, Leaf.find_run, run, rawRun]
    exact ⟨rfl, steady⟩
  | ok landing =>
    simp only [Mirrored, RawSession.perform, Session.perform, Leaf.find_run, run, rawRun]
    exact ⟨rfl, steady⟩

/-- A machine makes every move that is made on a steady leaf. -/
theorem mirrored_move (nodes : NodeLayer σ) (hosted : index.Hosted)
    (steady : session.leaf.Steady index) (move : Move)
    (inserts : ∀ row, move = .call (.insert row) → row.Storable) :
    Mirrored index (session.raw.move index nodes move) (session.move index nodes move) := by
  cases move with
  | call call =>
    cases call with
    | insert row => exact mirrored_run (Machine.insert_follows hosted steady (inserts row rfl))
    | remove row => exact mirrored_run (Machine.remove_follows hosted steady row)
    | split point onward => exact mirrored_split nodes hosted steady point onward
    | setParent parent => exact mirrored_run (Machine.setParent_follows steady parent)
    | row slot =>
      rw [RawSession.move, RawSession.perform, Session.move, Session.perform]
      exact mirrored_run (Machine.row_follows hosted steady slot)
    | rows => exact mirrored_run (Machine.collect_follows hosted steady)
    | find target past => exact mirrored_find nodes hosted steady target past
    | write => exact mirrored_run (Machine.write_follows hosted steady)
  | last =>
    refine ⟨?_, steady⟩
    simp only [RawSession.move, Session.move, ← Leaf.last_raw]
    rfl
  | next => exact ⟨rfl, steady⟩
  | previous => exact ⟨rfl, steady⟩

/-- A machine plays every session that starts on a steady leaf. -/
theorem mirrored_play (standard : index.Standard) (nodes : NodeLayer σ)
    (steady : session.leaf.Steady index) {acts : List Act}
    (storable : ∀ act ∈ acts, act.Storable) :
    session.raw.play index nodes acts =
        some ((session.play index nodes acts).1, (session.play index nodes acts).2.raw) ∧
      (session.play index nodes acts).2.leaf.Steady index := by
  induction acts generalizing session with
  | nil => exact ⟨rfl, steady⟩
  | cons act rest ih =>
    rw [List.forall_mem_cons] at storable
    have hosted := Index.hosted_lookingUp standard storable.1
    -- Steadiness asks for the page size and nothing else of the index, so it passes to the index of
    -- the act and back.
    have calm : session.leaf.Steady (index.lookingUp act.resolve) :=
      ⟨steady.image, steady.falls, steady.clear, steady.storable⟩
    obtain ⟨made, later⟩ := mirrored_move nodes hosted calm act.move storable.1.inserts
    have later : Leaf.Steady index _ :=
      ⟨later.image, later.falls, later.clear, later.storable⟩
    obtain ⟨played, last⟩ := ih later storable.2
    refine ⟨?_, last⟩
    simp only [RawSession.play, made, bind, Option.bind, played]
    rfl

end Session

namespace Leaf

/-- What an image shows is steady. -/
theorem steady_of_ofImage {id : PageId} {image : Buffer} {leaf : Leaf}
    (shown : ofImage index id image = .ok leaf) : leaf.Steady index := by
  obtain ⟨sized, header, offsets, decoded, _, listed, checked, rfl⟩ := ofImage_ok shown
  have few := (OffsetTable.decodePairs_ok listed).1
  have found : (offsets.map fun offset => (⟨offset, none⟩ : Slot)).map Slot.offset = offsets := by
    simp [Function.comp_def]
  obtain ⟨within, falls⟩ := checkOffsets_ok_iff.mp checked
  refine ⟨sized, ?_, ?_, ?_⟩
  · rw [Leaf.offsets, found, ← sized]
    exact falls
  · rw [Leaf.offsets, found]
    intro offset member
    refine Nat.le_trans (Nat.le_of_eq ?_) (within offset member).1
    simp only [start, count, List.length_map, few]
    rfl
  · simp

end Leaf

namespace Session

/-- Whatever image a leaf was read from, a machine plays any acts on it, one after the other, with
rows looked up to anything in each: it never stops, and every act has the outcome and the effect
that it has on the leaf. Afterwards the vectors of the leaf are in shape. After a split the session
may go on with either leaf, so this holds of both. -/
theorem image_never_stops (standard : index.Standard) (nodes : NodeLayer σ) {id : PageId}
    {image : Buffer} {leaf : Leaf} (shown : Leaf.ofImage index id image = .ok leaf)
    (engine : Engine) (walk : Cursor × σ) {acts : List Act}
    (storable : ∀ act ∈ acts, act.Storable) :
    let session : Session σ := ⟨leaf, engine, walk⟩
    let played := session.play index nodes acts
    session.raw.play index nodes acts = some (played.1, played.2.raw) ∧
      played.2.raw.leaf.InShape index := by
  intro session played
  have steady : session.leaf.Steady index := Leaf.steady_of_ofImage shown
  obtain ⟨mirrored, steady⟩ := mirrored_play standard nodes steady storable
  exact ⟨mirrored, steady.inShape⟩

/-- A page of the smallest size with one row in two slots, and in the third a row that reaches into
it. -/
def tangled : Buffer :=
  #[0, 0, 0, 0, 0x84, 0, 0, 0, 1, 0, 3, 0, 40, 0, 40, 0, 30, 0, 0, 0, 0, 0, 0, 0, 0, 0, 0, 0,
    0, 0, 0, 0, 0, 0, 0, 0, 0, 2, 5, 0, 0, 0, 0, 0, 0, 0, 0, 1, 2, 98, 0, 0, 0, 0, 0, 0, 0, 0,
    0, 0, 0, 0, 0, 0]

/-- Calls that find no row in the table, if they look one up. -/
def tangledActs : List Act :=
  [.remove ⟨some [98], ⟨1⟩⟩, .split 1 true, .insert ⟨some [97], ⟨3⟩⟩, .write].map fun call =>
    ⟨fun _ => .error (.corruption .rowNotInTable), .call call⟩

theorem tangledActs_storable : ∀ act ∈ tangledActs, act.Storable := by
  intro act member
  obtain ⟨call, listed, rfl⟩ := List.mem_map.mp member
  refine ⟨nofun, ?_⟩
  rintro row same
  cases same
  have row : row = ⟨some [97], ⟨3⟩⟩ := by simpa using listed
  rw [row]
  show 1 < 2 ^ 63
  decide

/-- So it is when a check fails once a row has been taken off, and the session goes on. -/
theorem image_never_stops_tangled :
    ∃ (leaf : Leaf) (later : RawSession Unit), Leaf.ofImage .plain ⟨1⟩ tangled = .ok leaf ∧
      (Session.mk leaf (.inMemory 64 1) (.off, ())).raw.play .plain .idle tangledActs =
        some ([.error (.internal .rowsOverlap), .ok (), .ok (), .ok ()], later) ∧
      later.leaf.InShape .plain := by
  have shown : Leaf.ofImage .plain ⟨1⟩ tangled =
      .ok ⟨⟨1⟩, none, .full, [⟨40, none⟩, ⟨40, none⟩, ⟨30, none⟩], true, tangled⟩ := by rfl
  have outcomes : (Session.play .plain .idle ⟨⟨⟨1⟩, none, .full,
      [⟨40, none⟩, ⟨40, none⟩, ⟨30, none⟩], true, tangled⟩, .inMemory 64 1, .off, ()⟩
      tangledActs).1 = [.error (.internal .rowsOverlap), .ok (), .ok (), .ok ()] := by
    decide +kernel
  have standard : Index.plain.Standard := Index.smallest_standard _ _
  obtain ⟨played, shape⟩ := image_never_stops standard .idle shown
    (.inMemory 64 1) (.off, ()) tangledActs_storable
  rw [outcomes] at played
  exact ⟨_, _, shown, played, shape⟩

end Session

end SlottedLeaf
