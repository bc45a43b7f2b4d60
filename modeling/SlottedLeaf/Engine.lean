import SlottedLeaf.Event
import SlottedLeaf.Store.Basic

/-!
# What the leaves of an index share

Calls on leaves change more than the leaf: they use the page store, advance the counters of the
index and report events. A call that fails keeps what it did up to the failure.
-/

namespace SlottedLeaf

/-- The page store, the counts of an index and the events reported so far, oldest first. -/
structure Engine where
  store : Store
  stats : Stats
  events : List Event
deriving Repr

/-- A call that works on the shared state and may fail. -/
abbrev EngineCall (α : Type) := ExceptT Fault (StateM Engine) α

namespace Engine

/-- The engine over a store, with nothing counted and nothing reported. -/
def start (store : Store) : Engine := ⟨store, .zero, []⟩

def report (event : Event) : StateM Engine Unit :=
  modify fun engine => { engine with events := engine.events ++ [event] }

def count (counter : Counter) (amount : Nat) : StateM Engine Unit :=
  modify fun engine => { engine with stats := engine.stats.add counter amount }

def allocatePage : EngineCall PageId := do
  let (page, store) ← MonadExcept.ofExcept (← get).store.allocate
  modify fun engine => { engine with store }
  match store with
  | .memory _ => report (.memoryPageAllocated page)
  | .file _ => report (.filePageAllocated page)
  return page

def notePage (page : PageId) : EngineCall Unit := do
  let store ← MonadExcept.ofExcept ((← get).store.note page)
  modify fun engine => { engine with store }

def writePage (page : PageId) (image : Buffer) : EngineCall Unit := do
  let store ← MonadExcept.ofExcept ((← get).store.write page image)
  modify fun engine => { engine with store }

def readPage (page : PageId) : EngineCall Buffer := do
  MonadExcept.ofExcept ((← get).store.read page)

def reportStats : StateM Engine Unit := do
  report (.statsReported (← get).stats)

end Engine

end SlottedLeaf
