import Kndb.Page

namespace Kndb.FreeSpaceMap

open Imp.Prog FSMPage

variable {Ref σ : Type} (C : CacheOps Ref σ)

def isFull : Code σ Bool := do
  let firstFSMPage ← C.deref FSMPage (← C.retrieve FSMPage 0)
  return firstFSMPage.freeBlocks == 0 && firstFSMPage.nextPageID == PGID_INVALID

def isFree (pageID : ℕ) : Code σ Bool := do
  let fsm_pgid := pageID / getBlocksInPage
  let bit := pageID % getBlocksInPage
  let fsm_page ← C.retrieve FSMPage (fsm_pgid * getBlocksInPage)
  C.call fsm_page (FSMPage.isFree bit)

/-- The end of `allocBit`: a bitmap that has become full leaves the chain. -/
def popIfFull (firstFSMPage nextFSMPage : Ref) : Code σ Unit := do
  let next ← C.deref FSMPage nextFSMPage
  if next.freeBlocks = 0 then
    C.call firstFSMPage (change (FSMPage.setNextPageID next.nextPageID))

/-- The id that is returned is computed as a `u32`. -/
def allocBit : Code σ ℕ := do
  require (!(← isFull C)) "There is no bitmap with free space left"
  let firstFSMPage ← C.retrieve FSMPage 0
  if (← C.deref FSMPage firstFSMPage).freeBlocks ≠ 0 then
    let bit ← C.call firstFSMPage FSMPage.findNextFree
    C.call firstFSMPage (FSMPage.allocBit bit)
    return bit
  else
    let nextFSMPageID := (← C.deref FSMPage firstFSMPage).nextPageID
    let nextFSMPage ← C.retrieve FSMPage nextFSMPageID
    let bit ← C.call nextFSMPage FSMPage.findNextFree
    C.call nextFSMPage (FSMPage.allocBit bit)
    popIfFull C firstFSMPage nextFSMPage
    return (nextFSMPageID + bit) % 2 ^ 32

/-- Put a bitmap in front of the chain. -/
def push (firstFSMPage fsmPage : Ref) (pageID : ℕ) : Code σ Unit := do
  let prevNextPageNo := (← C.deref FSMPage firstFSMPage).nextPageID
  C.call firstFSMPage (change (FSMPage.setNextPageID pageID))
  C.call fsmPage (change (FSMPage.setNextPageID prevNextPageNo))

/-- The end of `freeBit`: a bitmap other than page 0 joins the chain if it was full. -/
def pushIfFreed (firstFSMPage currFSMPage : Ref) : Code σ Unit := do
  let curr ← C.deref FSMPage currFSMPage
  if curr.pageID ≠ 0 ∧ curr.freeBlocks = 1 then
    push C firstFSMPage currFSMPage curr.pageID

def freeBit (pageID : ℕ) : Code σ Unit := do
  require (!(← isFree C pageID)) "That page is already freed"
  let fsm_pgid := pageID / getBlocksInPage
  let bit := pageID % getBlocksInPage
  let currFSMPage ← C.retrieve FSMPage (fsm_pgid * getBlocksInPage)
  let firstFSMPage ← C.retrieve FSMPage 0
  C.call currFSMPage (FSMPage.freeBit bit)
  pushIfFreed C firstFSMPage currFSMPage

def linkFSMPage (newFSMPageID : ℕ) : Code σ Unit := do
  let firstFsmPage ← C.retrieve FSMPage 0
  let newFsmPage ← C.retrieve FSMPage newFSMPageID
  push C firstFsmPage newFsmPage newFSMPageID

end Kndb.FreeSpaceMap
