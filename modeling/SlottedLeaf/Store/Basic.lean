import SlottedLeaf.Store.Memory
import SlottedLeaf.Store.File

/-!
# Page stores

A store hands out pages, takes notes of pages that changed, and writes and reads whole page images.
Both kinds answer alike; they differ in where the images are kept.
-/

namespace SlottedLeaf

/-- A page store. -/
inductive Store where
  | memory (store : MemoryStore)
  | file (store : FileStore)
deriving DecidableEq, Repr

namespace Store

def pageSize : Store → Nat
  | memory store => store.pageSize
  | file store => store.pageSize

def allocate : Store → Except Fault (PageId × Store)
  | memory store => store.allocate.map fun (page, store) => (page, memory store)
  | file store => store.allocate.map fun (page, store) => (page, file store)

def note (store : Store) (page : PageId) : Except Fault Store :=
  match store with
  | memory store => memory <$> store.note page
  | file store => file <$> store.note page

def write (store : Store) (page : PageId) (image : Buffer) : Except Fault Store :=
  match store with
  | memory store => memory <$> store.write page image
  | file store => file <$> store.write page image

def read (store : Store) (page : PageId) : Except Fault Buffer :=
  match store with
  | memory store => store.read page
  | file store => store.read page

/-- Pages noted as changed and not written since. -/
def dirty : Store → PageSet
  | memory store => store.dirty
  | file store => store.dirty

end Store

end SlottedLeaf
