import Kndb.BtreeNodePage

/-!
# The B-tree

`Btree.tpp` over any pager.  `getPage` and `createNewPage` return references; what a reference
reads and writes is left to the pager, so that the same code runs over pages that stay in memory
and over pages that a cache may drop.
-/

namespace Kndb

/-- What `Btree<T>` uses of its pager. -/
structure PagerOps (Ref σ T : Type) where
  getPage : ℕ → Code σ Ref
  /-- The argument is the constructor of the new page, still to be given its page id. -/
  createNewPage : (ℕ → BtreeNodePage T) → Code σ Ref
  load : Ref → σ → BtreeNodePage T
  store : Ref → BtreeNodePage T → σ → σ

/-- `m_rootPageID` next to the state of the pager. -/
structure BtreeState (σ : Type) where
  pager : σ
  rootPageID : ℕ
deriving DecidableEq

def CELLID_INVALID : ℕ := 2 ^ 32 - 1

structure RowPos where
  pageID : ℕ
  cellID : ℕ
deriving DecidableEq, Repr

namespace Btree

open Imp.Prog

variable {Ref σ T : Type} (P : PagerOps Ref σ T)

abbrev BtreeM (σ α : Type) := Code (BtreeState σ) α

def onPager {α : Type} (p : Code σ α) : BtreeM σ α :=
  zoom BtreeState.pager (fun s st => { st with pager := s }) p

def B_NODE (id : ℕ) : BtreeM σ Ref := onPager (P.getPage id)

def B_NEW (deg par : ℕ) (root leaf : Bool) : BtreeM σ Ref :=
  onPager (P.createNewPage (BtreeNodePage.new deg par root leaf))

def deref (r : Ref) : BtreeM σ (BtreeNodePage T) := gets fun st => P.load r st.pager

def modify (r : Ref) (f : BtreeNodePage T → BtreeNodePage T) : BtreeM σ Unit :=
  change fun st => { st with pager := P.store r (f (P.load r st.pager)) st.pager }

/-- The loop `while (idx < cells.size() && cells[idx].key < key) idx++`. -/
def scan (key : Vari) : List (Cell T) → ℕ
  | [] => 0
  | c :: cs => if c.key.lt key then scan key cs + 1 else 0

def searchRowPtr (targ_key : Vari) : ℕ → ℕ → BtreeM σ RowPos
  | 0, _ => outOfFuel
  | fuel + 1, currPageID => do
    let node ← deref P (← B_NODE P currPageID)
    require (!node.leaf || node.children.isEmpty) "Leaf node should have no children"
    require (!(!node.leaf && node.root) || node.cells.isEmpty ||
      node.children.length == node.cells.length + 1) "Root node has incorrect number of cells"
    require (!(!node.leaf && !node.root) ||
      (node.children.length == node.cells.length + 1 && !node.cells.isEmpty))
      "Intermediate node has incorrect number of cells, or is empty (intermediate nodes cannot be empty)"
    let idx := scan targ_key node.cells
    if node.cells[idx]?.any (fun c => targ_key.eq c.key) then
      return { pageID := currPageID, cellID := idx }
    else if node.leaf then
      return { pageID := currPageID, cellID := CELLID_INVALID }
    else
      searchRowPtr targ_key fuel (← at? node.children idx)

def search (fuel : ℕ) (key : Vari) : BtreeM σ (Option T) := do
  let row ← searchRowPtr P key fuel (← gets BtreeState.rootPageID)
  if row.cellID = CELLID_INVALID then
    return none
  else
    let node ← deref P (← B_NODE P row.pageID)
    let cell ← at? node.cells row.cellID
    return some cell.value

def update (fuel : ℕ) (values : T) (key : Vari) : BtreeM σ Bool := do
  let row ← searchRowPtr P key fuel (← gets BtreeState.rootPageID)
  if row.cellID = CELLID_INVALID then
    return false
  else
    let ref ← B_NODE P row.pageID
    let cell ← at? (← deref P ref).cells row.cellID
    modify P ref fun n => n.setCells (n.cells.set row.cellID { cell with value := values })
    return true

/-- The loop `for (auto pg: n_children) B_NODE(pg).setParent(newNode.getPageID())`. -/
def setParents (newParent : ℕ) : List ℕ → BtreeM σ Unit
  | [] => pure ()
  | pg :: pgs => do
    modify P (← B_NODE P pg) (·.setParent newParent)
    setParents newParent pgs

/-- The part of `split` that both branches share: the cells from `median` on go to the new node,
and so do the children right of `median` unless the node is a leaf. -/
def moveRightHalf (node newNode : Ref) (median : ℕ) : BtreeM σ Unit := do
  let n ← deref P node
  require (median ≤ n.cells.length) "cells iterator out of range"
  modify P newNode (·.setCells (n.cells.drop median))
  modify P node (·.setCells (n.cells.take median))
  if !n.leaf then
    require (median + 1 ≤ n.children.length) "children iterator out of range"
    modify P newNode (·.setChildren (n.children.drop (median + 1)))
    let n_children := (← deref P newNode).children
    setParents P (← deref P newNode).pageID n_children
    modify P node (fun n => n.setChildren (n.children.take (median + 1)))

/-- Step 2 of `split`. -/
def splitNonRoot (m_degree : ℕ) (node : Ref) (currPageID : ℕ) : BtreeM σ Unit := do
  let parent ← B_NODE P (← deref P node).parentID
  let idx := (← deref P parent).children.idxOf currPageID
  require (idx < (← deref P parent).children.length) "Node not found in parent's list of children"
  let cells := (← deref P node).cells
  let median := cells.length / 2
  let cell ← at? cells median
  require (idx ≤ (← deref P parent).cells.length) "insert position out of range"
  modify P parent fun p => p.setCells (p.cells.insertIdx idx cell)
  modify P node fun n => n.setCells (n.cells.eraseIdx median)
  let newNode ← B_NEW P m_degree (← deref P parent).pageID false (← deref P node).leaf
  moveRightHalf P node newNode median
  let newID := (← deref P newNode).pageID
  require (idx + 1 ≤ (← deref P parent).children.length) "insert position out of range"
  modify P parent fun p => p.setChildren (p.children.insertIdx (idx + 1) newID)

/-- Step 3 of `split`. -/
def splitRoot (m_degree : ℕ) (node : Ref) (currPageID : ℕ) : BtreeM σ Unit := do
  let newRoot ← B_NEW P m_degree PGID_INVALID true false
  let newRootID := (← deref P newRoot).pageID
  change fun st => { st with rootPageID := newRootID }
  modify P node (·.setRoot false)
  modify P node (·.setParent newRootID)
  let cells := (← deref P node).cells
  let median := cells.length / 2
  let cell ← at? cells median
  modify P newRoot fun p => p.setCells (p.cells ++ [cell])
  modify P node fun n => n.setCells (n.cells.eraseIdx median)
  let leaf := (← deref P (← B_NODE P currPageID)).leaf
  let newNode ← B_NEW P m_degree newRootID false leaf
  moveRightHalf P node newNode median
  modify P newRoot fun p => p.setChildren (p.children ++ [currPageID])
  let newID := (← deref P newNode).pageID
  modify P newRoot fun p => p.setChildren (p.children ++ [newID])

/-- Step 2 or step 3, and then the rest of `split`. -/
def splitFull (m_degree : ℕ) (node : Ref) (currPageID : ℕ) (root : Bool) : BtreeM σ Unit :=
  if !root then
    splitNonRoot P m_degree node currPageID
  else
    splitRoot P m_degree node currPageID

def split (m_degree : ℕ) : ℕ → ℕ → BtreeM σ Unit
  | 0, _ => outOfFuel
  | fuel + 1, currPageID => do
    let node ← B_NODE P currPageID
    let n ← deref P node
    if n.cells.length < n.maxKeys then
      return ()
    else
      splitFull P m_degree node currPageID n.root
      let n ← deref P node
      if !n.root then
        split m_degree fuel n.parentID

def insert (m_degree fuel : ℕ) (values : T) (key : Vari) : BtreeM σ Bool := do
  let row ← searchRowPtr P key fuel (← gets BtreeState.rootPageID)
  if row.cellID ≠ CELLID_INVALID then
    return false
  else
    let leaf := (← deref P (← B_NODE P row.pageID)).leaf
    require leaf "Attempting to insert into non-leaf node"
    let ref ← B_NODE P row.pageID
    modify P ref fun n => n.setCells (n.cells.insertIdx (scan key n.cells) { key, value := values })
    split P m_degree fuel row.pageID
    return true

end Btree
end Kndb
