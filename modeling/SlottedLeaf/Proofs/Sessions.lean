import SlottedLeaf.Proofs.Effects
import SlottedLeaf.Proofs.Splitting
import SlottedLeaf.Proofs.Walking
import SlottedLeaf.Proofs.Writing

/-!
# Sessions of calls on a leaf

A session is a leaf with what calls on it change besides: the engine, the cursor and the state of
the nodes above. Whatever is called, in whatever order, the leaf stays in order, and no call finds
its layout broken. A leaf without gaps gets none.
-/

namespace SlottedLeaf

variable {σ α β : Type} {index : Index}

/-! ## What calls keep -/

/-- A call ends without a breach of the layout, and leaves in order a leaf with these entries. -/
structure Leaf.Keeps (index : Index) (leaf : Leaf) (entries : List RowEntry)
    (outcome : Except Fault α) (later : Leaf) : Prop where
  sound : ∀ cause, outcome ≠ .error (.internal cause)
  orderly : ∃ changed, later.Holds index changed ∧
    (leaf.IsPacked index entries → later.IsPacked index changed)

namespace Leaf

variable {leaf later : Leaf} {entries : List RowEntry} {row : Row}

theorem Keeps.map {outcome : Except Fault α} (keeps : leaf.Keeps index entries outcome later)
    (f : α → β) : leaf.Keeps index entries (outcome.map f) later := by
  refine ⟨?_, keeps.orderly⟩
  intro cause failed
  cases outcome with
  | error fault => exact keeps.sound cause (congrArg Except.error (Except.error.inj failed))
  | ok value => cases failed

theorem Decodes.keeps {n : Nat} (decodes : leaf.Decodes index n later)
    (holds : leaf.Holds index entries) {outcome : Except Fault α}
    (sound : ∀ cause, outcome ≠ .error (.internal cause)) :
    leaf.Keeps index entries outcome later := by
  refine ⟨sound, entries, holds.decodes decodes, ?_⟩
  intro packed
  rw [IsPacked, decodes.form]
  exact packed

theorem checkPageId_ne_internal (id : PageId) (value : α) (cause : Breach) :
    (checkPageId id).map (fun _ => value) ≠ .error (.internal cause) := by
  unfold checkPageId
  split <;> simp [Except.map]

theorem Inserts.keeps {outcome : Except Fault Insertion}
    (inserts : leaf.Inserts index entries row outcome later) (standard : index.Standard)
    (holds : leaf.Holds index entries) : leaf.Keeps index entries outcome later := by
  obtain ⟨n, decodes, _⟩ := holds.shows.loadRows
  cases inserts with
  | refused _ _ => exact decodes.keeps holds (by simp)
  | full _ _ _ => exact decodes.keeps holds (by simp)
  | placed accepted places =>
    have gains := places.gains standard holds accepted
    exact ⟨checkPageId_ne_internal _ _, _, gains.holds, gains.packed⟩

theorem Removes.keeps {outcome : Except Fault Removal}
    (removes : leaf.Removes index entries row outcome later) (holds : leaf.Holds index entries) :
    leaf.Keeps index entries outcome later := by
  cases removes with
  | absent decodes _ => exact decodes.keeps holds (by simp)
  | only decodes _ => exact decodes.keeps holds (by simp)
  | taken split _ _ =>
    subst split
    exact ⟨checkPageId_ne_internal _ _, _, holds.loses.holds, holds.loses.packed⟩

theorem Splits.keeps {point next n : Nat} {outcome : Except Fault Leaf}
    (splits : leaf.Splits index entries point next outcome later n)
    (holds : leaf.Holds index entries) :
    leaf.Keeps index entries outcome later ∧
      ∀ other, outcome = .ok other → leaf.Keeps index entries outcome other := by
  cases splits with
  | refused _ => exact ⟨(Decodes.refl leaf).keeps holds (by simp), by simp⟩
  | exhausted _ _ => exact ⟨(Decodes.refl leaf).keeps holds (by simp), by simp⟩
  | parted split _ _ _ _ parts =>
    subst split
    refine ⟨⟨by simp, _, parts.stays, fun packed => (RowEntry.packed_append.mp packed).1⟩, ?_⟩
    rintro other same
    cases same
    exact ⟨by simp, _, parts.moves, fun _ => parts.packed⟩

theorem Writes.keeps {outcome : Except Fault Unit}
    (writes : leaf.Writes index entries outcome later) (holds : leaf.Holds index entries) :
    leaf.Keeps index entries outcome later := by
  cases writes with
  | clean _ => exact (Decodes.refl leaf).keeps holds (by simp)
  | taken _ => exact ⟨by simp, _, holds.rendered true, fun packed => packed⟩
  | refused _ cause => exact ⟨by simp, _, holds.rendered leaf.written, fun packed => packed⟩

/-! ## Calls that keep a leaf in order -/

end Leaf

/-- The call keeps the leaf in order, and hands out no page. -/
def LeafCall.KeepsOn (call : LeafCall α) (index : Index) (leaf : Leaf) (entries : List RowEntry)
    (engine : Engine) : Prop :=
  ∃ outcome later after, call.on leaf engine = ((outcome, later), after) ∧
    engine.store.Grows 0 after.store ∧ leaf.Keeps index entries outcome later

namespace Leaf

theorem insert_keeps (standard : index.Standard) (holds : leaf.Holds index entries) (row : Row)
    (engine : Engine) : (insert index row).KeepsOn index leaf entries engine := by
  obtain ⟨outcome, later, after, run, grows, inserts⟩ := insert_on standard holds row engine
  exact ⟨outcome, later, after, run, grows, inserts.keeps standard holds⟩

theorem remove_keeps (holds : leaf.Holds index entries) (row : Row) (engine : Engine) :
    (remove index row).KeepsOn index leaf entries engine := by
  obtain ⟨outcome, later, after, run, grows, removes⟩ := remove_on holds row engine
  exact ⟨outcome, later, after, run, grows, removes.keeps holds⟩

theorem write_keeps (standard : index.Standard) (holds : leaf.Holds index entries)
    (engine : Engine) : (write index).KeepsOn index leaf entries engine := by
  obtain ⟨outcome, later, after, run, grows, writes⟩ := write_on standard holds.toLays engine
  exact ⟨outcome, later, after, run, grows, writes.keeps holds⟩

theorem setParent_keeps (holds : leaf.Holds index entries) (parent : Option PageId)
    (engine : Engine) : (setParent parent).KeepsOn index leaf entries engine := by
  refine ⟨.ok (), _, engine, setParent_on parent leaf engine, .refl _, ?_⟩
  by_cases same : leaf.parent = parent
  · rw [if_pos same]
    exact (Decodes.refl leaf).keeps holds (by simp)
  · rw [if_neg same]
    exact ⟨by simp, entries, ⟨⟨holds.image, holds.shows, holds.stacked, holds.clear⟩,
      holds.ascending, holds.distinct⟩, fun packed => packed⟩

theorem row_keeps (holds : leaf.Holds index entries) (slot : Nat) (engine : Engine) :
    (row index slot).KeepsOn index leaf entries engine := by
  rcases here : entries[slot]? with _ | entry
  · have past : leaf.count ≤ slot := by
      rw [holds.shows.count]
      exact List.getElem?_eq_none_iff.mp here
    exact ⟨_, _, _, row_of_count_le past engine, .refl _,
      (Decodes.refl leaf).keeps holds (by simp)⟩
  · obtain ⟨n, later, decodes, run⟩ := holds.shows.row here
    exact ⟨_, _, _, run engine, .refl _, decodes.keeps holds (by simp)⟩

theorem rows_keeps (holds : leaf.Holds index entries) (engine : Engine) :
    (rows index).KeepsOn index leaf entries engine := by
  obtain ⟨n, decodes, run⟩ := holds.shows.rows
  exact ⟨_, _, _, run engine, .refl _, decodes.keeps holds (by simp)⟩

end Leaf

/-! ## Sessions -/

/-- A leaf, and what calls on it change besides. -/
structure Session (σ : Type) where
  leaf : Leaf
  engine : Engine
  walk : Cursor × σ

/-- A call on the leaf of a session. -/
inductive Call where
  | insert (row : Row)
  | remove (row : Row)
  /-- After the split the session goes on with the new leaf, if `onward`. -/
  | split (point : Nat) (onward : Bool)
  | setParent (parent : Option PageId)
  | row (slot : Nat)
  | rows
  | find (target : Row) (past : Bool)
  | write
deriving DecidableEq, Repr

namespace Session

def run (session : Session σ) (call : LeafCall α) : Except Fault Unit × Session σ :=
  let ((outcome, leaf), engine) := call.on session.leaf session.engine
  (outcome.map fun _ => (), { session with leaf, engine })

/-- Makes a call, and gives what it fails with if it does. -/
def perform (index : Index) (nodes : NodeLayer σ) (session : Session σ) :
    Call → Except Fault Unit × Session σ
  | .insert row => session.run (Leaf.insert index row)
  | .remove row => session.run (Leaf.remove index row)
  | .split point onward =>
    match (Leaf.split index point).on session.leaf session.engine with
    | ((.ok other, leaf), engine) =>
      (.ok (), { session with leaf := if onward then other else leaf, engine })
    | ((.error fault, leaf), engine) => (.error fault, { session with leaf, engine })
  | .setParent parent => session.run (Leaf.setParent parent)
  | .row slot => session.run (Leaf.row index slot)
  | .rows => session.run (Leaf.rows index)
  | .find target past =>
    let (((outcome, walk), leaf), engine) :=
      (((Leaf.find nodes index target past).run.run session.walk).run session.leaf).run
        session.engine
    (outcome, ⟨leaf, engine, walk⟩)
  | .write => session.run (Leaf.write index)

/-- The session once calls were made, one after the other. -/
def after (index : Index) (nodes : NodeLayer σ) (session : Session σ) : List Call → Session σ
  | [] => session
  | call :: rest => (session.perform index nodes call).2.after index nodes rest

/-- Where a fault comes from that a call on the leaf does not find itself: a find passes on what the
node above answers. -/
inductive PassesOn (nodes : NodeLayer σ) (session : Session σ) :
    Call → Except Fault Unit → Prop where
  | find {target : Row} {past : Bool} {node : PageId} (above : session.leaf.parent = some node) :
      PassesOn nodes session (.find target past)
        ((nodes.find node target past).run.run session.walk).1

/-- The leaf of the session is in order, and has no gaps if `packed`. -/
structure InOrder (index : Index) (packed : Prop) (session : Session σ) : Prop where
  serves : session.engine.Serves index
  orderly : ∃ entries, session.leaf.Holds index entries ∧
    (packed → session.leaf.IsPacked index entries)

section

variable {session : Session σ} {packed : Prop} {entries : List RowEntry}

/-- A session goes on in order with a leaf that a call kept in order. -/
theorem InOrder.of_keeps {leaf later : Leaf} {outcome : Except Fault α} {engine : Engine}
    (keeps : leaf.Keeps index entries outcome later) (tight : packed → leaf.IsPacked index entries)
    (serves : engine.Serves index) (walk : Cursor × σ) :
    (Session.mk later engine walk).InOrder index packed := by
  obtain ⟨changed, orderly, stays⟩ := keeps.orderly
  refine ⟨serves, changed, orderly, ?_⟩
  intro packed
  exact stays (tight packed)

private theorem InOrder.run (inOrder : session.InOrder index packed) {call : LeafCall α}
    (keeps : ∀ entries, session.leaf.Holds index entries →
      call.KeepsOn index session.leaf entries session.engine) (nodes : NodeLayer σ) (name : Call) :
    (session.run call).2.InOrder index packed ∧
      ∀ cause, (session.run call).1 = .error (.internal cause) →
        PassesOn nodes session name (.error (.internal cause)) := by
  obtain ⟨entries, holds, tight⟩ := inOrder.orderly
  obtain ⟨outcome, later, after, run, grows, keeps⟩ := keeps entries holds
  simp only [Session.run, run]
  constructor
  · exact .of_keeps keeps tight (inOrder.serves.grow grows) session.walk
  · intro cause failed
    exact absurd failed ((keeps.map fun _ => ()).sound cause)

private theorem InOrder.split (standard : index.Standard) (nodes : NodeLayer σ)
    (inOrder : session.InOrder index packed) (point : Nat) (onward : Bool) :
    (session.perform index nodes (.split point onward)).2.InOrder index packed ∧
      ∀ cause,
        (session.perform index nodes (.split point onward)).1 ≠ .error (.internal cause) := by
  obtain ⟨entries, holds, tight⟩ := inOrder.orderly
  obtain ⟨outcome, later, after, n, run, grows, splits⟩ :=
    Leaf.split_on standard holds point inOrder.serves
  obtain ⟨left, right⟩ := splits.keeps holds
  have serves := inOrder.serves.grow grows
  simp only [Session.perform, run]
  cases outcome with
  | error fault =>
    refine ⟨.of_keeps left tight serves session.walk, ?_⟩
    intro cause failed
    exact left.sound cause (congrArg Except.error (Except.error.inj failed))
  | ok other =>
    have chosen : session.leaf.Keeps index entries (Except.ok other)
        (if onward then other else later) := by
      cases onward
      · exact left
      · exact right other rfl
    exact ⟨.of_keeps chosen tight serves session.walk, by simp⟩

private theorem InOrder.find (nodes : NodeLayer σ) (inOrder : session.InOrder index packed)
    (target : Row) (past : Bool) :
    (session.perform index nodes (.find target past)).2.InOrder index packed ∧
      ∀ cause, (session.perform index nodes (.find target past)).1 = .error (.internal cause) →
        PassesOn nodes session (.find target past) (.error (.internal cause)) := by
  obtain ⟨entries, holds, tight⟩ := inOrder.orderly
  obtain ⟨before, _, _, _, _, n, later, decodes, run⟩ := Leaf.seek_looks target past holds
  rcases followed : ((session.leaf.landing before.length).follow nodes later.id target past).run.run
    session.walk with ⟨outcome, walk⟩
  simp only [Session.perform, Leaf.find_run, run, followed]
  have keeps : session.leaf.Keeps index entries (Except.ok ()) later :=
    decodes.keeps holds (by simp)
  have serves : (session.engine.counted .rowsDecoded n).Serves index :=
    inOrder.serves.grow (.refl _)
  constructor
  · exact .of_keeps keeps tight serves walk
  · intro cause failed
    obtain ⟨node, above, same⟩ := Leaf.follow_landing followed failed
    rw [← same]
    exact .find above

/-- A call keeps a session in order, and fails with a breach only where it passes one on. -/
theorem InOrder.perform (standard : index.Standard) (nodes : NodeLayer σ)
    (inOrder : session.InOrder index packed) (call : Call) :
    (session.perform index nodes call).2.InOrder index packed ∧
      ∀ cause, (session.perform index nodes call).1 = .error (.internal cause) →
        PassesOn nodes session call (.error (.internal cause)) := by
  cases call with
  | insert row =>
    exact inOrder.run (fun _ holds => Leaf.insert_keeps standard holds row _) nodes _
  | remove row => exact inOrder.run (fun _ holds => Leaf.remove_keeps holds row _) nodes _
  | split point onward =>
    obtain ⟨later, sound⟩ := inOrder.split standard nodes point onward
    exact ⟨later, fun cause failed => absurd failed (sound cause)⟩
  | setParent parent =>
    exact inOrder.run (fun _ holds => Leaf.setParent_keeps holds parent _) nodes _
  | row slot => exact inOrder.run (fun _ holds => Leaf.row_keeps holds slot _) nodes _
  | rows => exact inOrder.run (fun _ holds => Leaf.rows_keeps holds _) nodes _
  | find target past => exact inOrder.find nodes target past
  | write => exact inOrder.run (fun _ holds => Leaf.write_keeps standard holds _) nodes _

theorem InOrder.after (standard : index.Standard) (nodes : NodeLayer σ) (calls : List Call)
    (inOrder : session.InOrder index packed) :
    (session.after index nodes calls).InOrder index packed := by
  induction calls generalizing session with
  | nil => exact inOrder
  | cons call rest ih => exact ih (inOrder.perform standard nodes call).1

end

end Session

/-! ## Where a session starts -/

namespace Leaf

/-- A leaf that was created, as a root or under a node. -/
inductive Created (index : Index) : Leaf → Prop where
  | leaf (id : PageId) (parent : Option PageId) (form : RowForm) :
      Created index (create index id parent form)
  | root {root : Leaf} {engine later : Engine}
      (created : (createRoot index).on engine = (.ok root, later)) : Created index root

/-- The leaf is in order and without gaps. -/
def Tight (index : Index) (leaf : Leaf) : Prop :=
  ∃ entries, leaf.Holds index entries ∧ leaf.IsPacked index entries

theorem createRoot_eq (standard : index.Standard) {root : Leaf} {engine later : Engine}
    (created : (createRoot index).on engine = (.ok root, later)) :
    ∃ id, root = { (create index id none .full).rendered index [] with written := true } := by
  rw [createRoot_on] at created
  rcases allocated : Engine.allocatePage.on engine with ⟨fault | id, middle⟩
  · rw [allocated] at created
    cases created
  · obtain ⟨outcome, leaf, after, run, _, writes⟩ :=
      write_on standard (Holds.create standard id none .full).toLays middle
    simp only [allocated, run] at created
    cases writes with
    | clean unchanged => exact Bool.noConfusion unchanged
    | refused _ cause => cases created
    | taken _ =>
      cases created
      exact ⟨id, rfl⟩

theorem Created.tight {leaf : Leaf} (created : leaf.Created index) (standard : index.Standard) :
    leaf.Tight index := by
  cases created with
  | leaf id parent form => exact ⟨[], .create standard id parent form, trivial⟩
  | root created =>
    obtain ⟨id, rfl⟩ := createRoot_eq standard created
    exact ⟨[], (Holds.create standard id none .full).rendered true, trivial⟩

end Leaf

namespace Session

/-- Along every run of calls, from a leaf that was created or is in order, the leaf is in order
after every call, and no call finds its layout broken; at most a find passes on such a fault from
the node above. A leaf that was created never gets gaps. -/
theorem calls_keep_order (standard : index.Standard) (nodes : NodeLayer σ) {session : Session σ}
    (serves : session.engine.Serves index)
    (start : session.leaf.Created index ∨ session.leaf.WellFormed index) (calls : List Call) :
    (session.after index nodes calls).leaf.WellFormed index ∧
      (session.leaf.Created index → (session.after index nodes calls).leaf.Tight index) ∧
      ∀ call cause,
        ((session.after index nodes calls).perform index nodes call).1 = .error (.internal cause) →
          PassesOn nodes (session.after index nodes calls) call (.error (.internal cause)) := by
  -- One invariant does for both: that there are no gaps is kept only if the leaf was created.
  have orderly : session.InOrder index (session.leaf.Created index) := by
    refine ⟨serves, ?_⟩
    by_cases created : session.leaf.Created index
    · obtain ⟨entries, holds, packed⟩ := created.tight standard
      exact ⟨entries, holds, fun _ => packed⟩
    · obtain ⟨entries, holds⟩ := start.resolve_left created
      exact ⟨entries, holds, fun yes => absurd yes created⟩
  have later := orderly.after standard nodes calls
  obtain ⟨changed, holds, packed⟩ := later.orderly
  exact ⟨⟨changed, holds⟩, fun created => ⟨changed, holds, packed created⟩,
    fun call => (later.perform standard nodes call).2⟩

/-- So it is along a run from an empty leaf on a page of the smallest size. -/
theorem calls_keep_order_smallest :
    let index := Index.smallest ⟨true, true⟩ (fun _ => .error (.corruption .rowNotInTable))
    let nodes : NodeLayer Unit := ⟨fun _ _ _ => pure (), fun _ _ => pure (), fun _ _ => pure ()⟩
    let session : Session Unit :=
      ⟨Leaf.create index ⟨1⟩ none .full, .inMemory 64 1, .off, ()⟩
    let calls : List Call :=
      [.insert ⟨some [98], ⟨2⟩⟩, .insert ⟨some [97], ⟨1⟩⟩, .split 1 true, .write,
        .find ⟨none, ⟨0⟩⟩ true]
    (session.after index nodes calls).leaf.Tight index := by
  intro index nodes session calls
  exact (calls_keep_order (Index.smallest_standard _ _) nodes (Engine.inMemory_serves index 1)
    (.inl (.leaf ⟨1⟩ none .full)) calls).2.1 (.leaf ⟨1⟩ none .full)

end Session

end SlottedLeaf
