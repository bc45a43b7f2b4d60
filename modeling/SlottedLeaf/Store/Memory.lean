import SlottedLeaf.Page.Size
import SlottedLeaf.Store.PageSet

/-!
# The memory store

A memory store keeps the image of every page that was written. It hands out pages in ascending order
from page 1 on, so how many there are tells which.
-/

namespace SlottedLeaf

/-- A page store without a file. -/
structure MemoryStore where
  pageSize : Nat
  /-- How many pages were handed out. -/
  allocated : Nat
  /-- The images of the pages that were written, one to a page, the latest first. -/
  images : List (PageId × Buffer)
  /-- Pages noted as changed and not written since. -/
  dirty : PageSet
  /-- How often a page was noted as changed. -/
  updates : Nat
  /-- How often a page was written. -/
  writes : Nat
deriving DecidableEq, Repr

namespace MemoryStore

def create (pageSize : Nat) : Except Fault MemoryStore := do
  checkPageSize pageSize
  return ⟨pageSize, 0, [], .empty, 0, 0⟩

/-- Whether the page, if it is not the reserved one, was handed out. -/
def isAllocated (store : MemoryStore) (page : PageId) : Bool :=
  page.number.toNat ≤ store.allocated

def contains (store : MemoryStore) (page : PageId) : Bool := (store.images.lookup page).isSome

def allocate (store : MemoryStore) : Except Fault (PageId × MemoryStore) :=
  let next := store.allocated + 1
  if next < pageIdLimit then .ok (⟨UInt32.ofNat next⟩, { store with allocated := next })
  else .error (.invalid .pagesExhausted)

def note (store : MemoryStore) (page : PageId) : Except Fault MemoryStore := do
  checkPageId page
  return { store with dirty := store.dirty.insert page, updates := store.updates + 1 }

def write (store : MemoryStore) (page : PageId) (image : Buffer) : Except Fault MemoryStore := do
  checkPageId page
  checkImageLength store.pageSize image
  if !store.isAllocated page then
    throw (.invalid .writeUnallocated)
  return { store with
    images := (page, image) :: store.images.filter fun entry => entry.1 ≠ page
    dirty := store.dirty.erase page
    writes := store.writes + 1 }

/-- The image of a page; zeros if it was never written. -/
def read (store : MemoryStore) (page : PageId) : Except Fault Buffer := do
  checkPageId page
  if !store.isAllocated page then
    throw (.invalid .readUnallocated)
  return (store.images.lookup page).getD (.zeros store.pageSize)

end MemoryStore

end SlottedLeaf
