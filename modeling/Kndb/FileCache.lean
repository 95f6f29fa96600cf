import Kndb.IOHandler
import Kndb.PageCache.Format

/-!
# The page cache over the handler of the file

`PageCache.cpp` and `PageCache.tpp` with the `IOHandler` that they call.  `ftruncate` does not fail.
-/

namespace Kndb

open Imp Imp.Prog

/-- A cache and the handler of its file.  What the cache knows of blocks is only in the handler. -/
structure FileCache where
  cache : PageCache Page Unit
  ioHandler : IOHandler

namespace FileCache

abbrev FileM (α : Type) := Code FileCache α

variable {α : Type}

def new (capacity : ℕ) (ioHandler : IOHandler) (objects : ℕ → Page) (junk : ℕ → Junk) : FileCache :=
  { cache := .new capacity 0 (fun _ => ()) objects junk, ioHandler }

def onCache (p : PageCache.CacheM Page Unit α) : FileM α :=
  zoom FileCache.cache (fun c s => { s with cache := c }) p

def onFile (p : Code IOHandler α) : FileM α :=
  zoom FileCache.ioHandler (fun io s => { s with ioHandler := io }) p

/-- The buffer that a page fills. -/
def toBuffer (J : Junk) (p : Page) : Option Buffer :=
  (Page.format.toBytes J p).attach.map fun b => ⟨b.1, Page.format_length b.2⟩

/-- `PgArr<byte> buf`, before anything is read to it. -/
def uninitialised (s : FileCache) : Buffer :=
  ⟨fillBlock (s.cache.junk s.cache.uses) [], fillBlock_length (show List.length [] ≤ PG_SZ from Nat.zero_le _) _⟩

def writePage (pageID : ℕ) : FileM Unit := do
  let page ← onCache (PageCache.derefMap pageID)
  let p ← gets fun s => s.cache.objects page
  match toBuffer (← onCache PageCache.useJunk) p with
  | none => halt "page cannot be written"
  | some buf => onFile (IOHandler.writeBlock buf pageID)

/-- Step 4 of `updateLRU`. -/
def evictBack : FileM Unit := fun s =>
  if s.cache.list.length ≤ s.cache.capacity then
    .ok () s
  else
    match (s.cache.list.getLast?).bind ListNode.page with
    | none => .abort "null page"
    | some back =>
      let backPageID := (s.cache.objects back).pageID
      (do writePage backPageID
          onCache (change fun c => { c with
            map := Function.update c.map backPageID none, list := c.list.dropLast })) s

def updateLRU (page : ℕ) : FileM Unit := do
  let pageID ← gets fun s => (s.cache.objects page).pageID
  onCache (change (PageCache.eraseNode pageID))
  onCache (change (PageCache.pushFront page pageID))
  evictBack

def insertPage (p : Page) : FileM Unit := do
  updateLRU (← onCache (PageCache.makePage p))

/-- The `else` branch of `retrievePage`. -/
def readPage (T : PageType) (pageID : ℕ) : FileM ℕ := do
  let buf ← onFile (IOHandler.readBlock (← gets uninitialised) pageID)
  match Page.format.ofBytes (← onCache PageCache.useJunk) T pageID buf with
  | none => halt "page cannot be read"
  | some p => onCache (PageCache.makePage p)

def retrievePage (T : PageType) (pageID : ℕ) : FileM ℕ := do
  if (← gets fun s => (s.cache.map pageID).isSome) then
    updateLRU (← onCache (PageCache.moveOut pageID))
  else
    updateLRU (← readPage T pageID)
  let page ← onCache (PageCache.derefMap pageID)
  if (← gets fun s => s.cache.objects page).type = T then
    return page
  else
    raise .badCast

/-- The loop of the destructor over the entries of the map. -/
def flush : List ℕ → FileM Unit
  | [] => pure ()
  | pageID :: pageIDs => do
    writePage pageID
    flush pageIDs

/-- What the classes over the cache use of it and of the handler. -/
def cacheOps : CacheOps ℕ FileCache where
  retrievePage := retrievePage
  insertPage := insertPage
  load page s := s.cache.objects page
  store page p s := { s with cache := s.cache.store page p }
  getNumBlocks s := s.ioHandler.blocks
  createMultipleBlocks n := onFile (IOHandler.createMultipleBlocks false n)

end FileCache
end Kndb
