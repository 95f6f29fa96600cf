import Kndb.Btree
import Kndb.FreeSpaceMap

namespace Kndb.Pager

open Imp.Prog FSMPage

variable {Ref σ : Type} (C : CacheOps Ref σ)

/-- What `createNewPage` throws when the file has its last page. -/
def sizeLimit : Exn := .runtimeError "DB has reached maximum size limit"

def getPage (T : PageType) (pageID : ℕ) : Code σ Ref := do
  require (pageID < (← gets C.getNumBlocks)) "PageID is out of bounds"
  require (!(← FreeSpaceMap.isFree C pageID)) "That page is freed"
  C.retrievePage T pageID

/-- The part of `createNewPage` that adds a bitmap and the blocks it stands for. -/
def createFSMPage : Code σ Unit := do
  let numFSMPages := (← gets C.getNumBlocks) / getBlocksInPage
  if numFSMPages = MAX_FSMPAGES then
    raise sizeLimit
  let newFsmPageNo ← C.createMultipleBlocks getBlocksInPage
  C.insertPage (.fsm (.new newFsmPageNo))
  if newFsmPageNo ≠ 0 then
    FreeSpaceMap.linkFSMPage C newFsmPageNo

/-- The condition of `createNewPage`; `||` does not ask the free space map of an empty file. -/
def fsmPageNeeded : Code σ Bool := do
  if (← gets C.getNumBlocks) = 0 then
    return true
  else
    FreeSpaceMap.isFull C

/-- The first half of `createNewPage`. -/
def allocPageID : Code σ ℕ := do
  if ← fsmPageNeeded C then
    createFSMPage C
  FreeSpaceMap.allocBit C

def createNewPage (args : PageArgs) : Code σ Ref := do
  let newPageNo ← allocPageID C
  let newPage ← args.construct newPageNo
  C.insertPage newPage
  getPage C args.type newPageNo

/-- `createNewPage` with a page that is already made but for its id. -/
def placePage (T : PageType) (mk : ℕ → Page) : Code σ Ref := do
  let newPageNo ← allocPageID C
  C.insertPage (mk newPageNo)
  getPage C T newPageNo

/-- What `Btree<Vec<Vari>>` uses of its pager. -/
def nodeOps : PagerOps Ref σ Tuple where
  getPage := getPage C .node
  createNewPage mk := placePage C .node fun id => .node (mk id)
  load r s := (PageClass.cast (C.load r s)).getD (.new 0 0 false false 0)
  store r n s := C.store r (.node n) s

def isFree (pageID : ℕ) : Code σ Bool := do
  if (← gets C.getNumBlocks) ≤ pageID then
    return true
  else
    FreeSpaceMap.isFree C pageID

def freePage (pageID : ℕ) : Code σ Unit := do
  require (pageID < (← gets C.getNumBlocks)) "PageID is out of bounds"
  require (!(← FreeSpaceMap.isFree C pageID)) "That page is freed already"
  FreeSpaceMap.freeBit C pageID

end Kndb.Pager
