import Kndb.Bytes
import Kndb.Page

/-!
# The page cache

`PageCache.cpp` and `PageCache.tpp` over a block file, for any format of the pages.  A reference to a
page is the address of its object.  An object that has left the cache keeps its contents, but nothing
reads or writes it except through references that were taken before.
-/

namespace Kndb

open Imp Imp.Prog

/-- How pages of type `P` are written to a block and constructed from it; `none` when a check of the
code stops the process. -/
structure PageFormat (P B : Type) where
  pageID : P → ℕ
  type : P → PageType
  toBytes : Junk → P → Option B
  ofBytes : Junk → PageType → ℕ → B → Option P
  pageID_ofBytes : ∀ {J T id b p}, ofBytes J T id b = some p → pageID p = id
  type_ofBytes : ∀ {J T id b p}, ofBytes J T id b = some p → type p = T

/-- A node of `m_list`: its identity, which is what iterators are compared by, and the page object it
owns, unless the pointer has been moved out of it. -/
structure ListNode where
  it : ℕ
  page : Option ℕ
deriving DecidableEq

/-- The cache, the page objects by their addresses, and the file.  An iterator in `m_map` is `none`
if it is `list_it()`.  `junk` is what uninitialised memory holds at each use. -/
structure PageCache (P B : Type) where
  capacity : ℕ
  list : List ListNode
  map : ℕ → Option (Option ℕ)
  objects : ℕ → P
  nextIt : ℕ
  nextObject : ℕ
  numBlocks : ℕ
  blocks : ℕ → B
  junk : ℕ → Junk
  uses : ℕ

namespace PageCache

variable {P B : Type} (F : PageFormat P B)

abbrev CacheM (P B α : Type) := Code (PageCache P B) α

/-- How writing a block may fail.  Where `pwrite` does, the block is left with some contents, and where
`fsync` does, it has been written. -/
inductive WriteFault (B : Type) where
  | pwrite (left : B)
  | fsync

def new (capacity numBlocks : ℕ) (blocks : ℕ → B) (objects : ℕ → P) (junk : ℕ → Junk) :
    PageCache P B :=
  { capacity, numBlocks, blocks, objects, junk
    list := [], map := fun _ => none, nextIt := 0, nextObject := 0, uses := 0 }

def useJunk : CacheM P B Junk := fun s => .ok (s.junk s.uses) { s with uses := s.uses + 1 }

def getNumBlocks (s : PageCache P B) : ℕ := s.numBlocks

def createMultipleBlocks (n : ℕ) : CacheM P B ℕ := do
  require (0 < n) "Cannot allocate non-positive number of blocks"
  change fun s => { s with numBlocks := s.numBlocks + n }
  return (← gets getNumBlocks) - n

def setBlock (blockNo : ℕ) (block : B) (s : PageCache P B) : PageCache P B :=
  { s with blocks := Function.update s.blocks blockNo block }

def pwrite (fault : Option (WriteFault B)) (block : B) (blockNo : ℕ) : CacheM P B Unit :=
  match fault with
  | some (.pwrite left) => do
    change (setBlock blockNo left)
    raise (.runtimeError "error while writing file")
  | _ => change (setBlock blockNo block)

def fsync (fault : Option (WriteFault B)) : CacheM P B Unit :=
  match fault with
  | some .fsync => raise (.runtimeError "Error while fsyncing file")
  | _ => pure ()

def writeBlock (fault : Option (WriteFault B)) (block : B) (blockNo : ℕ) : CacheM P B Unit := do
  if (← gets getNumBlocks) ≤ blockNo then
    raise (.runtimeError "BlockNo out of bounds")
  pwrite fault block blockNo
  fsync fault

def readBlock (blockNo : ℕ) : CacheM P B B := do
  if (← gets getNumBlocks) ≤ blockNo then
    raise (.runtimeError "BlockNo out of bounds")
  gets fun s => s.blocks blockNo

def node (s : PageCache P B) (it : ℕ) : Option ListNode := s.list.find? (·.it == it)

/-- `**m_map[pageID]`.  Without an entry, `operator[]` makes one that holds `list_it()`, which cannot
be dereferenced. -/
def derefMap (pageID : ℕ) : CacheM P B ℕ := fun s =>
  match s.map pageID with
  | some (some it) =>
    match (s.node it).bind ListNode.page with
    | some page => .ok page s
    | none => .abort "null page"
  | _ => .abort "dereferenced list_it()"

/-- `std::move(*m_map[pageID])`. -/
def moveOut (pageID : ℕ) : CacheM P B ℕ := do
  let page ← derefMap pageID
  change fun s => { s with
    list := s.list.map fun n => if n.page = some page then { n with page := none } else n }
  return page

def makePage (p : P) : CacheM P B ℕ := fun s =>
  .ok s.nextObject
    { s with objects := Function.update s.objects s.nextObject p, nextObject := s.nextObject + 1 }

/-- The code compares the iterator with `list_it()` only after it has dereferenced it. -/
def writePage (fault : Option (WriteFault B)) (pageID : ℕ) : CacheM P B Unit := do
  let page ← derefMap pageID
  let p ← gets fun s => s.objects page
  match F.toBytes (← useJunk) p with
  | none => halt "page cannot be written"
  | some buf => writeBlock fault buf pageID

/-- `m_list.erase(m_map[pageID])`. -/
def eraseNode (pageID : ℕ) (s : PageCache P B) : PageCache P B :=
  { s with list := match s.map pageID with
    | some (some it) => s.list.filter (·.it != it)
    | _ => s.list }

/-- Steps 2 and 3 of `updateLRU`. -/
def pushFront (page pageID : ℕ) (s : PageCache P B) : PageCache P B :=
  { s with
    list := ⟨s.nextIt, some page⟩ :: s.list
    map := Function.update s.map pageID (some (some s.nextIt))
    nextIt := s.nextIt + 1 }

/-- Step 4 of `updateLRU`. -/
def evictBack (fault : Option (WriteFault B)) : CacheM P B Unit := fun s =>
  if s.list.length ≤ s.capacity then
    .ok () s
  else
    match (s.list.getLast?).bind ListNode.page with
    | none => .abort "null page"
    | some back =>
      let backPageID := F.pageID (s.objects back)
      (do writePage F fault backPageID
          change fun s => { s with
            map := Function.update s.map backPageID none, list := s.list.dropLast }) s

def updateLRU (fault : Option (WriteFault B)) (page : ℕ) : CacheM P B Unit := do
  let pageID ← gets fun s => F.pageID (s.objects page)
  change (eraseNode pageID)
  change (pushFront page pageID)
  evictBack F fault

def insertPage (fault : Option (WriteFault B)) (p : P) : CacheM P B Unit := do
  updateLRU F fault (← makePage p)

/-- The `else` branch of `retrievePage`. -/
def readPage (T : PageType) (pageID : ℕ) : CacheM P B ℕ := do
  let buf ← readBlock pageID
  match F.ofBytes (← useJunk) T pageID buf with
  | none => halt "page cannot be read"
  | some p => makePage p

def retrievePage (fault : Option (WriteFault B)) (T : PageType) (pageID : ℕ) : CacheM P B ℕ := do
  if (← gets fun s => (s.map pageID).isSome) then
    updateLRU F fault (← moveOut pageID)
  else
    updateLRU F fault (← readPage F T pageID)
  let page ← derefMap pageID
  if F.type (← gets fun s => s.objects page) = T then
    return page
  else
    raise .badCast

/-- The loop of the destructor over the entries of the map, of which each is written. -/
def flush : List ℕ → CacheM P B Unit
  | [] => pure ()
  | pageID :: pageIDs => do
    writePage F none pageID
    flush pageIDs

def store (page : ℕ) (p : P) (s : PageCache P B) : PageCache P B :=
  { s with objects := Function.update s.objects page p }

end PageCache
end Kndb
