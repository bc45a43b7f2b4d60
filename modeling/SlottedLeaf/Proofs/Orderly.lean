import SlottedLeaf.Proofs.Effects

/-!
# What calls do with the engine

A call on a leaf has few ways to use the engine, and `LeafCall.Orderly` lists them: it looks at
rows, which counts those that it decodes; it asks the store for something; and it advances a count
by one together with the event of that count. What holds of each of these ways, whatever comes
before and after it, holds of every call on a leaf.
-/

namespace SlottedLeaf

variable {α β : Type} {index : Index}

/-- The message of the event that goes with a count; decoding a row has none. -/
def Counter.message? : Counter → Option String
  | .rowsInserted => "btree.leaf.insert"
  | .rowsRemoved => "btree.leaf.remove_row"
  | .splitSignals => "btree.leaf.split_signal"
  | .splits => "btree.leaf.split"
  | .compactions => "btree.leaf.compact"
  | .rowsDecoded => none
  | .pagesRead => "btree.leaf.read"
  | .pagesWritten => "btree.leaf.write"

namespace Engine

/-- The engine once a count went up by one, and its event was reported. -/
def tallied (engine : Engine) (counter : Counter) (event : Event) : Engine :=
  (engine.counted counter 1).reported event

end Engine

namespace LeafCall

/-- A call that uses the engine in these ways alone. -/
inductive Orderly : {α : Type} → LeafCall α → Prop where
  /-- Rows are looked at. -/
  | look {α : Type} {call : LeafCall α}
      (looks : ∀ leaf, ∃ made n, ∀ engine,
        call.on leaf engine = (made, engine.counted .rowsDecoded n)) : Orderly call
  | bind {α β : Type} {call : LeafCall α} {next : α → LeafCall β} (first : Orderly call)
      (second : ∀ value, Orderly (next value)) : Orderly (call >>= next)
  /-- A call is made on another leaf. -/
  | onOther {α : Type} {call : LeafCall α} (calls : Orderly call) (other : Leaf) :
      Orderly (call.onOther other)
  | allocate : Orderly (liftM Engine.allocatePage : LeafCall PageId)
  | note (page : PageId) : Orderly (liftM (Engine.notePage page) : LeafCall Unit)
  | write (page : PageId) (image : Buffer) :
      Orderly (liftM (Engine.writePage page image) : LeafCall Unit)
  /-- A count goes up by one, and the event of that count is reported. -/
  | tally {α : Type} {counter : Counter} {event : Event} {next : LeafCall α}
      (named : counter.message? = some event.message) (rest : Orderly next) :
      Orderly (do
        liftM (Engine.count counter 1)
        liftM (Engine.report event)
        next)
  /-- The only row of a leaf was to be removed. -/
  | emptied (page : PageId) :
      Orderly (liftM (Engine.report (.leafEmptied page)) : LeafCall Unit)

theorem Peeks.orderly {call : LeafCall α} (peeks : call.Peeks index) : call.Orderly := by
  refine .look ?_
  intro leaf
  obtain ⟨outcome, n, later, _, run⟩ := peeks leaf
  exact ⟨(outcome, later), n, run⟩

/-- A call that leaves the engine alone. -/
theorem Orderly.of_still {call : LeafCall α} (made : Leaf → Except Fault α × Leaf)
    (still : ∀ leaf engine, call.on leaf engine = (made leaf, engine)) : call.Orderly := by
  refine .look ?_
  intro leaf
  exact ⟨made leaf, 0, fun engine => by rw [still, Engine.counted_zero]⟩

theorem Orderly.ite {condition : Prop} [Decidable condition] {call other : LeafCall α}
    (first : call.Orderly) (second : other.Orderly) :
    (if condition then call else other).Orderly := by
  by_cases holds : condition
  · rw [if_pos holds]
    exact first
  · rw [if_neg holds]
    exact second

/-- A call that may end early is orderly if the rest of it is. -/
theorem Orderly.unless {condition : Prop} [Decidable condition] {fault : Fault}
    {rest : PUnit → LeafCall α} (orderly : (rest ⟨⟩).Orderly) :
    (if condition then (throw fault : LeafCall PUnit) >>= rest else rest ⟨⟩).Orderly :=
  .ite (.of_still (fun leaf => (.error fault, leaf)) fun _ _ => rfl) orderly

/-- A count and its event may be the last that a call does. -/
theorem Orderly.tally_last {counter : Counter} {event : Event}
    (named : counter.message? = some event.message) :
    (do
      liftM (Engine.count counter 1)
      liftM (Engine.report event) : LeafCall Unit).Orderly := by
  have rest : (pure () : LeafCall Unit).Orderly := .of_still _ fun _ _ => rfl
  have tally := Orderly.tally named rest
  rwa [bind_pure_unit] at tally

section

variable (value : α) (leaf : Leaf) (fault : Fault)

theorem orderly_pure : (pure value : LeafCall α).Orderly := .of_still _ fun _ _ => rfl

theorem orderly_throw : (throw fault : LeafCall α).Orderly := .of_still _ fun _ _ => rfl

theorem orderly_get : (get : LeafCall Leaf).Orderly := .of_still _ fun _ _ => rfl

theorem orderly_set : (set leaf : LeafCall PUnit).Orderly := .of_still _ fun _ _ => rfl

theorem orderly_modify (change : Leaf → Leaf) : (modify change : LeafCall PUnit).Orderly :=
  .of_still _ fun _ _ => rfl

theorem orderly_ofExcept (outcome : Except Fault α) :
    (MonadExcept.ofExcept outcome : LeafCall α).Orderly :=
  .of_still (fun leaf => (outcome, leaf)) fun _ _ => on_ofExcept ..

end

end LeafCall

open LeafCall

namespace Leaf

theorem setParent_orderly (parent : Option PageId) : (setParent parent).Orderly :=
  orderly_get.bind fun _ => .ite (orderly_set _) (orderly_pure _)

theorem place_orderly (index : Index) (slot : Nat) (row : Row) :
    (place index slot row).Orderly := by
  refine orderly_get.bind fun leaf => (orderly_ofExcept _).bind fun slots => ?_
  refine (orderly_set _).bind fun _ => orderly_get.bind fun placed => ?_
  exact (orderly_ofExcept _).bind fun _ => (Orderly.note leaf.id).bind fun _ => .tally_last rfl

theorem compact_orderly (index : Index) : (compact index).Orderly := by
  refine orderly_get.bind fun former => (orderly_modify _).bind fun _ => ?_
  refine (orderly_ofExcept _).bind fun slots => (orderly_modify _).bind fun _ => ?_
  exact .ite (.tally_last rfl) (orderly_pure _)

theorem insert_orderly (index : Index) (row : Row) : (insert index row).Orderly := by
  refine (loadRows_peeks index).orderly.bind fun _ => ?_
  refine (search_peeks index .insertion row).orderly.bind fun slot => ?_
  refine orderly_get.bind fun leaf => ?_
  apply Orderly.ite
  · exact (place_orderly _ _ _).bind fun _ => orderly_pure _
  apply Orderly.ite
  · exact .tally rfl (orderly_pure _)
  refine (compact_orderly index).bind fun _ => orderly_get.bind fun turned => ?_
  exact .unless ((place_orderly _ _ _).bind fun _ => orderly_pure _)

theorem removeAt_orderly (index : Index) (slot : Nat) : (removeAt index slot).Orderly := by
  refine (loadRows_peeks index).orderly.bind fun _ => orderly_get.bind fun leaf => ?_
  refine .unless (.unless ((orderly_ofExcept _).bind fun span => (orderly_set _).bind fun _ => ?_))
  exact orderly_get.bind fun removed => (orderly_ofExcept _).bind fun _ => .tally_last rfl

theorem remove_orderly (index : Index) (target : Row) : (remove index target).Orderly := by
  refine (search_peeks index .removal target).orderly.bind fun slot => ?_
  refine (holds_peeks index slot target).orderly.bind fun held => ?_
  apply Orderly.ite
  · exact orderly_get.bind fun leaf => orderly_throw _
  refine orderly_get.bind fun leaf => ?_
  apply Orderly.ite
  · refine (row_peeks index slot).orderly.bind fun only => orderly_get.bind fun leaf => ?_
    exact (Orderly.emptied leaf.id).bind fun _ => orderly_pure _
  refine (removeAt_orderly index slot).bind fun _ => orderly_get.bind fun leaf => ?_
  refine (Orderly.note leaf.id).bind fun _ => orderly_get.bind fun leaf => ?_
  apply Orderly.ite
  · exact (row_peeks index (slot - 1)).orderly.bind fun last => orderly_pure _
  · exact orderly_pure _

theorem moveRows_orderly (index : Index) (slot n : Nat) (target : Leaf) :
    (moveRows index slot n target).Orderly := by
  induction n generalizing target with
  | zero => exact orderly_pure _
  | succ n ih =>
    refine (row_peeks index slot).orderly.bind fun moving => ?_
    refine ((insert_orderly index moving).onOther target).bind ?_
    rintro ⟨_ | point, target⟩
    · exact (removeAt_orderly index slot).bind fun _ => ih target
    · exact orderly_throw _

theorem split_orderly (index : Index) (point : Nat) : (split index point).Orderly := by
  refine orderly_get.bind fun leaf => .unless (Orderly.allocate.bind fun id => ?_)
  refine (loadRows_peeks index).orderly.bind fun _ =>
    (moveRows_orderly index _ _ _).bind fun right => ?_
  exact .tally rfl (orderly_pure _)

theorem render_orderly (index : Index) : (render index).Orderly := by
  refine (loadRows_peeks index).orderly.bind fun _ => orderly_get.bind fun leaf => ?_
  exact .unless ((orderly_set _).bind fun _ => orderly_ofExcept _)

theorem write_orderly (index : Index) : (write index).Orderly := by
  refine orderly_get.bind fun leaf => .ite ?_ (orderly_pure _)
  refine (render_orderly index).bind fun _ => orderly_get.bind fun rendered => ?_
  exact (Orderly.write _ _).bind fun _ => (orderly_set _).bind fun _ => .tally_last rfl

end Leaf

end SlottedLeaf
