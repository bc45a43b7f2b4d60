import SlottedLeaf.Proofs.Benches

/-!
# Counts and events

A count goes up by one with each event of its message, and no two counts have one message. So every
count that has a message is the number of events with it, over whatever leaves and whatever is done
with them, and whether it fails or not.
-/

namespace SlottedLeaf

open LeafCall

variable {σ α : Type} {engine after : Engine}

/-! ## Counts and events -/

/-- No two counts have one message. -/
theorem Counter.eq_of_message? {counter other : Counter} {name : String}
    (named : counter.message? = some name) (same : other.message? = some name) :
    counter = other := by
  have both := named.trans same.symm
  have some : counter.message?.isSome := by rw [named]; rfl
  clear named same
  revert both some
  cases counter <;> cases other <;> decide

/-- No count is named for a page that is handed out or for a leaf whose only row stays. -/
theorem Counter.unnamed {name : String}
    (listed : name ∈ ["mem_store.allocate", "file_store.allocate", "btree.leaf.emptied"])
    (counter : Counter) : counter.message? ≠ some name := by
  intro named
  simp only [List.mem_cons, List.not_mem_nil, or_false] at listed
  rcases listed with rfl | rfl | rfl <;> cases counter <;> simp [message?] at named

namespace Engine

/-- Every count that has a message is the number of events with it. -/
def Tallies (engine : Engine) : Prop :=
  ∀ counter name, counter.message? = some name →
    engine.stats.get counter = engine.events.countP fun event => event.message = name

theorem tallies_start (store : Store) : (start store).Tallies := by
  intro counter name _
  cases counter <;> rfl

namespace Tallies

theorem decoded (tallies : engine.Tallies) (n : Nat) :
    (engine.counted .rowsDecoded n).Tallies := by
  intro counter name named
  have other : counter ≠ .rowsDecoded := by
    rintro rfl
    cases named
  show (engine.stats.add .rowsDecoded n).get counter = _
  rw [Stats.get_add, if_neg other]
  exact tallies counter name named

/-- An event that no count is named for. -/
theorem reported (tallies : engine.Tallies) {event : Event}
    (unnamed : ∀ counter, Counter.message? counter ≠ some event.message) :
    (engine.reported event).Tallies := by
  intro counter name named
  have other : event.message ≠ name := by
    rintro rfl
    exact unnamed counter named
  show engine.stats.get counter = (engine.events ++ [event]).countP _
  rw [List.countP_append, List.countP_cons_of_neg (by simpa using other)]
  exact tallies counter name named

/-- A count goes up by one with its event. -/
theorem tallied (tallies : engine.Tallies) {counter : Counter} {event : Event}
    (named : counter.message? = some event.message) :
    (engine.tallied counter event).Tallies := by
  intro other name same
  show (engine.stats.add counter 1).get other = (engine.events ++ [event]).countP _
  rw [Stats.get_add, List.countP_append, tallies other name same]
  by_cases here : event.message = name
  · obtain rfl := Counter.eq_of_message? same (here ▸ named)
    rw [if_pos rfl, List.countP_cons_of_pos (by simpa using here), List.countP_nil]
  · have apart : other ≠ counter := by
      rintro rfl
      exact here (Option.some.inj (named.symm.trans same))
    rw [if_neg apart, List.countP_cons_of_neg (by simpa using here), List.countP_nil]

end Tallies

theorem allocatePage_tallies (tallies : engine.Tallies) :
    (allocatePage.on engine).2.Tallies := by
  simp only [allocatePage, EngineCall.on_bind, EngineCall.on_get, EngineCall.on_ofExcept]
  cases engine.store.allocate with
  | error fault => exact tallies
  | ok answer =>
    obtain ⟨page, store⟩ := answer
    have stored : (engine.stored store).Tallies := tallies
    cases store with
    | memory _ => exact stored.reported (Counter.unnamed (.head _))
    | file _ => exact stored.reported (Counter.unnamed (.tail _ (.head _)))

theorem notePage_tallies (tallies : engine.Tallies) (page : PageId) :
    ((notePage page).on engine).2.Tallies := by
  obtain ⟨store, noted, _⟩ := engine.notePage_on page
  rw [noted]
  exact tallies

theorem writePage_tallies (tallies : engine.Tallies) (page : PageId) (image : Buffer) :
    ((writePage page image).on engine).2.Tallies := by
  rw [writePage_on]
  cases engine.store.write page image with
  | error fault => exact tallies
  | ok store => exact tallies

theorem ask_tallies (tallies : engine.Tallies) (call : StoreCall) :
    ((ask call).on engine).2.Tallies := by
  cases call with
  | allocate =>
    rw [ask, EngineCall.on_bind_pure]
    exact allocatePage_tallies tallies
  | note page =>
    rw [ask, EngineCall.on_bind_pure]
    exact notePage_tallies tallies page
  | write page image =>
    rw [ask, EngineCall.on_bind_pure]
    exact writePage_tallies tallies page image
  | read page =>
    rw [ask, EngineCall.on_bind_pure, readPage, EngineCall.on_bind, EngineCall.on_get]
    simp only [EngineCall.on_ofExcept]
    exact tallies
  | listDirty => exact tallies

end Engine

/-- Whatever a call on a leaf does, counts and events keep in step. -/
theorem LeafCall.Orderly.tallies {call : LeafCall α} (orderly : call.Orderly) (leaf : Leaf)
    (before : engine.Tallies) : (call.on leaf engine).2.Tallies := by
  induction orderly generalizing leaf engine with
  | look looks =>
    obtain ⟨made, n, run⟩ := looks leaf
    rw [run]
    exact before.decoded n
  | @bind _ _ call next _ _ first second =>
    have middle := first leaf before
    rw [on_bind]
    rcases run : call.on leaf engine with ⟨⟨fault | value, later⟩, between⟩ <;> rw [run] at middle
    · exact middle
    · exact second value later middle
  | @onOther _ call _ other calls =>
    have middle := calls other before
    rw [on_onOther]
    rcases run : call.on other engine with ⟨⟨fault | value, later⟩, between⟩ <;> rw [run] at middle
    · exact middle
    · exact middle
  | allocate => exact Engine.allocatePage_tallies before
  | note page => exact Engine.notePage_tallies before page
  | write page image => exact Engine.writePage_tallies before page image
  | @tally _ counter event next named _ rest =>
    rw [on_count_bind, on_report_bind]
    exact rest leaf (before.tallied named)
  | emptied page => exact before.reported (Counter.unnamed (.tail _ (.tail _ (.head _))))

namespace Leaf

theorem read_tallies (index : Index) (page : PageId) (image : Buffer) (before : engine.Tallies) :
    ((read index page image).on engine).2.Tallies := by
  rw [read_on]
  cases ofImage index page image with
  | error fault => exact before
  | ok leaf => exact before.tallied rfl

theorem load_tallies (index : Index) (page : PageId) (before : engine.Tallies) :
    ((load index page).on engine).2.Tallies := by
  rw [load_on]
  cases engine.store.read page with
  | error fault => exact before
  | ok image => exact read_tallies index page image before

theorem createRoot_tallies (index : Index) (before : engine.Tallies) :
    ((createRoot index).on engine).2.Tallies := by
  have allocated := Engine.allocatePage_tallies before
  rw [createRoot_on]
  rcases run : Engine.allocatePage.on engine with ⟨fault | page, middle⟩ <;> rw [run] at allocated
  · exact allocated
  · exact (write_orderly index).tallies (create index page none .full) allocated

end Leaf

namespace Bench

theorem take_tallies (bench : Bench σ) {call : EngineCall Leaf}
    (tallies : (call.on bench.engine).2.Tallies) : (bench.take call).2.engine.Tallies := by
  rw [take]
  rcases run : call.on bench.engine with ⟨fault | leaf, engine⟩ <;> rw [run] at tallies
  · exact tallies
  · exact tallies

theorem perform_tallies (index : Index) (nodes : NodeLayer σ) (bench : Bench σ) (chore : Chore)
    (before : bench.engine.Tallies) : (bench.perform index nodes chore).2.engine.Tallies := by
  cases chore with
  | ask call => exact Engine.ask_tallies before call
  | create page parent form => exact bench.take_tallies before
  | createRoot => exact bench.take_tallies (Leaf.createRoot_tallies index before)
  | read page image => exact bench.take_tallies (Leaf.read_tallies index page image before)
  | load page => exact bench.take_tallies (Leaf.load_tallies index page before)
  | handle number deed =>
    exact withLeaf_of (·.2.engine.Tallies) before fun leaf _ =>
      (deed.call_orderly index).tallies leaf before
  | find number target past =>
    refine withLeaf_of (·.2.engine.Tallies) before fun leaf _ => ?_
    have sought := (Leaf.seek_peeks index target past).orderly.tallies leaf before
    rw [find_eq]
    rcases run : (Leaf.seek index target past).on leaf bench.engine with
      ⟨⟨fault | landing, later⟩, engine⟩ <;> rw [run] at sought
    · exact sought
    · exact sought
  | turn number course => exact withLeaf_of (·.2.engine.Tallies) before fun leaf _ => before

theorem after_tallies (index : Index) (nodes : NodeLayer σ) {bench : Bench σ} (jobs : List Job)
    (before : bench.engine.Tallies) : (bench.after index nodes jobs).engine.Tallies := by
  induction jobs generalizing bench with
  | nil => exact before
  | cons job rest ih =>
    exact ih (perform_tallies (index.lookingUp job.resolve) nodes bench job.chore before)

end Bench

end SlottedLeaf
