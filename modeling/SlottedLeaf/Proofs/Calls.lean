import SlottedLeaf.Leaf.Basic

/-!
# How calls run

`LeafCall.on` runs a call on a leaf and an engine. These lemmas say what that is for each part that
calls are put together from, so that a call is followed step by step. Calls that work on the engine
alone change it by `counted`, `reported` and what the store says.
-/

namespace SlottedLeaf

variable {α β : Type}

/-- What succeeds went through a first part that did. -/
theorem except_bind_ok {first : Except Fault α} {next : α → Except Fault β} {answer : β}
    (run : first >>= next = .ok answer) : ∃ value, first = .ok value ∧ next value = .ok answer := by
  cases first with
  | error fault => cases run
  | ok value => exact ⟨value, rfl, run⟩

/-- What succeeds was not refused. -/
theorem except_guard_ok {refused : Prop} [Decidable refused] {fault : Fault} {rest : Except Fault α}
    {answer : α} (run : (if refused then .error fault else rest) = .ok answer) :
    ¬ refused ∧ rest = .ok answer := by
  by_cases holds : refused
  · rw [if_pos holds] at run
    cases run
  · rw [if_neg holds] at run
    exact ⟨holds, run⟩

namespace Engine

def counted (engine : Engine) (counter : Counter) (amount : Nat) : Engine :=
  { engine with stats := engine.stats.add counter amount }

def reported (engine : Engine) (event : Event) : Engine :=
  { engine with events := engine.events ++ [event] }

@[simp]
theorem store_counted (engine : Engine) (counter : Counter) (amount : Nat) :
    (engine.counted counter amount).store = engine.store := rfl

@[simp]
theorem store_reported (engine : Engine) (event : Event) :
    (engine.reported event).store = engine.store := rfl

@[simp]
theorem counted_zero (engine : Engine) (counter : Counter) : engine.counted counter 0 = engine := by
  cases counter <;> rfl

theorem counted_counted (engine : Engine) (counter : Counter) (first second : Nat) :
    (engine.counted counter first).counted counter second =
      engine.counted counter (first + second) := by
  cases counter <;> simp [counted, Stats.add, Nat.add_assoc]

end Engine

namespace EngineCall

/-- The outcome of a call, and the engine after it. -/
def on {α : Type} (call : EngineCall α) (engine : Engine) : Except Fault α × Engine :=
  call.run.run engine

section

variable {α β : Type} (engine : Engine)

theorem on_bind (call : EngineCall α) (next : α → EngineCall β) :
    (call >>= next).on engine =
      match call.on engine with
      | (.ok value, engine) => (next value).on engine
      | (.error fault, engine) => (.error fault, engine) := by
  simp only [on, ExceptT.run_bind, StateT.run_bind]
  rcases call.run.run engine with ⟨outcome, engine⟩
  cases outcome <;> rfl

theorem on_bind_pure (call : EngineCall α) (f : α → β) :
    (call >>= fun value => pure (f value)).on engine =
      ((call.on engine).1.map f, (call.on engine).2) := by
  rw [on_bind]
  rcases call.on engine with ⟨outcome, engine⟩
  cases outcome <;> rfl

@[simp]
theorem on_pure (value : α) : (pure value : EngineCall α).on engine = (.ok value, engine) := rfl

@[simp]
theorem on_throw (fault : Fault) :
    (throw fault : EngineCall α).on engine = (.error fault, engine) := rfl

@[simp]
theorem on_get : (get : EngineCall Engine).on engine = (.ok engine, engine) := rfl

@[simp]
theorem on_modify (change : Engine → Engine) :
    (modify change : EngineCall PUnit).on engine = (.ok ⟨⟩, change engine) := rfl

@[simp]
theorem on_ofExcept (outcome : Except Fault α) :
    (MonadExcept.ofExcept outcome : EngineCall α).on engine = (outcome, engine) := by
  cases outcome <;> rfl

@[simp]
theorem on_count (counter : Counter) (amount : Nat) :
    (liftM (Engine.count counter amount) : EngineCall Unit).on engine =
      (.ok (), engine.counted counter amount) := rfl

@[simp]
theorem on_report (event : Event) :
    (liftM (Engine.report event) : EngineCall Unit).on engine =
      (.ok (), engine.reported event) := rfl

end

end EngineCall

namespace LeafCall

variable {α β : Type} (leaf : Leaf) (engine : Engine)

theorem on_bind (call : LeafCall α) (next : α → LeafCall β) :
    (call >>= next).on leaf engine =
      match call.on leaf engine with
      | ((.ok value, leaf), engine) => (next value).on leaf engine
      | ((.error fault, leaf), engine) => ((.error fault, leaf), engine) := by
  simp only [on, ExceptT.run_bind, StateT.run_bind]
  rcases (call.run.run leaf).run engine with ⟨⟨outcome, leaf⟩, engine⟩
  cases outcome <;> rfl

@[simp]
theorem on_pure (value : α) :
    (pure value : LeafCall α).on leaf engine = ((.ok value, leaf), engine) := rfl

@[simp]
theorem on_throw (fault : Fault) :
    (throw fault : LeafCall α).on leaf engine = ((.error fault, leaf), engine) := rfl

@[simp]
theorem on_get : (get : LeafCall Leaf).on leaf engine = ((.ok leaf, leaf), engine) := rfl

@[simp]
theorem on_set (new : Leaf) :
    (set new : LeafCall PUnit).on leaf engine = ((.ok ⟨⟩, new), engine) := rfl

@[simp]
theorem on_modify (change : Leaf → Leaf) :
    (modify change : LeafCall PUnit).on leaf engine = ((.ok ⟨⟩, change leaf), engine) := rfl

@[simp]
theorem on_ofExcept (outcome : Except Fault α) :
    (MonadExcept.ofExcept outcome : LeafCall α).on leaf engine = ((outcome, leaf), engine) := by
  cases outcome <;> rfl

@[simp]
theorem on_count (counter : Counter) (amount : Nat) :
    (liftM (Engine.count counter amount) : LeafCall Unit).on leaf engine =
      ((.ok (), leaf), engine.counted counter amount) := rfl

@[simp]
theorem on_report (event : Event) :
    (liftM (Engine.report event) : LeafCall Unit).on leaf engine =
      ((.ok (), leaf), engine.reported event) := rfl

theorem on_engine (call : EngineCall α) :
    (liftM call : LeafCall α).on leaf engine =
      (((call.on engine).1, leaf), (call.on engine).2) := rfl

/-- A call on another leaf leaves this one alone. -/
theorem on_onOther (call : LeafCall α) (other : Leaf) :
    (call.onOther other).on leaf engine =
      match call.on other engine with
      | ((.ok value, other), engine) => ((.ok (value, other), leaf), engine)
      | ((.error fault, _), engine) => ((.error fault, leaf), engine) := by
  simp only [on, onOther, ExceptT.run_mk, StateT.run_bind, StateT.run_lift]
  show (match (call.run.run other).run engine with
    | (pair, engine) => ((pair.1.map (·, pair.2), leaf), engine)) = _
  rcases (call.run.run other).run engine with ⟨⟨outcome, other⟩, engine⟩
  cases outcome <;> rfl

end LeafCall

end SlottedLeaf
