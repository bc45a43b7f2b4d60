import SlottedLeaf.Page.Size
import SlottedLeaf.Store.PageSet
import SlottedLeaf.Store.SparseFile

/-!
# The file store

A file store keeps page `n` at byte `n * pageSize` of one file. Page 0 stays in the file and is
never handed out. The store counts its pages itself; when it is opened, the length of the file tells
how many there are.
-/

namespace SlottedLeaf

/-- A page store in a file. -/
structure FileStore where
  pageSize : Nat
  file : SparseFile
  /-- The number of pages, page 0 included, and so the page that is handed out next. -/
  pageCount : Nat
  /-- Pages noted as changed and not written since. -/
  dirty : PageSet
deriving DecidableEq, Repr

namespace FileStore

/-- The store in a file. A file without pages gets page 0. -/
def ofFile (pageSize : Nat) (file : SparseFile) : Except Fault FileStore := do
  checkPageSize pageSize
  if file.length % pageSize ≠ 0 then
    throw (.corruption .fileLength)
  let pages := file.length / pageSize
  if UInt32.size ≤ pages then
    throw (.corruption .tooManyPages)
  return ⟨pageSize, if pages = 0 then file.resize pageSize else file, max pages 1, .empty⟩

def isAllocated (store : FileStore) (page : PageId) : Bool :=
  page.number.toNat < store.pageCount

def offset (store : FileStore) (page : PageId) : Nat := page.number.toNat * store.pageSize

/-- Hands out the next page, which extends the file by a page of zeros. -/
def allocate (store : FileStore) : Except Fault (PageId × FileStore) :=
  let next := store.pageCount
  if next < pageIdLimit then
    .ok (⟨UInt32.ofNat next⟩,
      { store with
        file := store.file.extend ((next + 1) * store.pageSize)
        pageCount := next + 1 })
  else .error (.invalid .pagesExhausted)

def note (store : FileStore) (page : PageId) : Except Fault FileStore := do
  checkPageId page
  return { store with dirty := store.dirty.insert page }

def write (store : FileStore) (page : PageId) (image : Buffer) : Except Fault FileStore := do
  checkPageId page
  checkImageLength store.pageSize image
  if !store.isAllocated page then
    throw (.invalid .writeUnallocated)
  return { store with
    file := store.file.write (store.offset page) image
    dirty := store.dirty.erase page }

def read (store : FileStore) (page : PageId) : Except Fault Buffer := do
  checkPageId page
  if !store.isAllocated page then
    throw (.invalid .readUnallocated)
  return store.file.window (store.offset page) store.pageSize

end FileStore

end SlottedLeaf
