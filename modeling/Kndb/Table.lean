import Kndb.Pager

namespace Kndb

open Imp.Prog

/-- The members of a `Table`; its `m_btree` is a degree and a root page. -/
structure Table where
  name : List Byte
  tablePageID : ℕ
  degree : ℕ
  rootPageID : ℕ
deriving DecidableEq, Repr

structure TableState (σ : Type) where
  pager : σ
  table : Table
deriving DecidableEq

namespace Table

variable {Ref σ α : Type} (C : CacheOps Ref σ)

abbrev TableM (σ α : Type) := Code (TableState σ) α

def onPager (p : Code σ α) : TableM σ α :=
  zoom TableState.pager (fun s st => { st with pager := s }) p

def onBtree (p : Btree.BtreeM σ α) : TableM σ α :=
  zoom (fun st => ⟨st.pager, st.table.rootPageID⟩)
    (fun b st => ⟨b.pager, { st.table with rootPageID := b.rootPageID }⟩) p

/-- Read `T_PAGE`. -/
def readTablePage (tablePageID : ℕ) : Code σ TablePage := do
  C.deref TablePage (← Pager.getPage C .table tablePageID)

/-- Change `T_PAGE`. -/
def changeTablePage (tablePageID : ℕ) (f : TablePage → TablePage) : Code σ Unit := do
  C.call (← Pager.getPage C .table tablePageID) (change f)

/-- `T_PAGE`, in a member function. -/
def tablePage : TableM σ TablePage := do
  onPager (readTablePage C (← gets TableState.table).tablePageID)

/-- `calculateDegree(T_PAGE.getTypes()[0], T_PAGE.getTypes())`. -/
def readDegree (tablePageID : ℕ) : Code σ ℕ := do
  let key ← at? (← readTablePage C tablePageID).types 0
  return calculateDegree key (← readTablePage C tablePageID).types

/-- The constructor for a table that has its page. -/
def load (name : List Byte) (tablePageID : ℕ) : Code σ Table := do
  let degree ← readDegree C tablePageID
  let rootPageID := (← readTablePage C tablePageID).btreePageID
  return { name, tablePageID, degree, rootPageID }

/-- The second half of the constructor of a new table: the root of its tree. -/
def createRoot (name : List Byte) (tablePageID : ℕ) : Code σ Table := do
  let degree ← readDegree C tablePageID
  let node ← Pager.createNewPage C (.node degree PGID_INVALID true true)
  let btree_pg := (← C.deref (BtreeNodePage Tuple) node).pageID
  changeTablePage C tablePageID (·.setBtreePageID btree_pg)
  let rootPageID := (← readTablePage C tablePageID).btreePageID
  return { name, tablePageID, degree, rootPageID }

/-- The constructor of a new table. -/
def create (name : List Byte) (types : Tuple) : Code σ Table := do
  let page ← Pager.createNewPage C (.table types PGID_INVALID)
  createRoot C name (← C.deref TablePage page).pageID

def badCount : Exn := .runtimeError "Tuple has incorrect number of values."
def badTypes : Exn := .runtimeError "Tuple has one or more incorrect types."
def badKey : Exn := .runtimeError "Key is incorrect type."

/-- The loop over the values from index `i` on. -/
def checkTypes : Tuple → ℕ → TableM σ Unit
  | [], _ => pure ()
  | value :: values, i => do
    let type ← at? (← tablePage C).types i
    if variant_to_type_id value ≠ variant_to_type_id type then
      raise badTypes
    checkTypes values (i + 1)

/-- The checks of `insertTuple` and `updateTuple`. -/
def checkTuple (values : Tuple) : TableM σ Unit := do
  if values.length ≠ (← tablePage C).types.length then
    raise badCount
  checkTypes C values 0

/-- The end of `insertTuple`, after a successful insertion. -/
def recordInsert (og_root : ℕ) : TableM σ Unit := do
  let table ← gets TableState.table
  onPager (changeTablePage C table.tablePageID TablePage.addTuple)
  if table.rootPageID ≠ og_root then
    onPager (changeTablePage C table.tablePageID (·.setBtreePageID table.rootPageID))

def insertTuple (fuel : ℕ) (values : Tuple) : TableM σ Bool := do
  checkTuple C values
  let table ← gets TableState.table
  let key ← at? values 0
  let success ← onBtree (Btree.insert (Pager.nodeOps C) table.degree fuel values key)
  if success then
    recordInsert C table.rootPageID
  return success

/-- The check of `readTuple` and `deleteTuple`. -/
def checkKey (key : Vari) : TableM σ Unit := do
  let type ← at? (← tablePage C).types 0
  if variant_to_type_id type ≠ variant_to_type_id key then
    raise badKey

def readTuple (fuel : ℕ) (key : Vari) : TableM σ (Option Tuple) := do
  checkKey C key
  onBtree (Btree.search (Pager.nodeOps C) fuel key)

def updateTuple (fuel : ℕ) (values : Tuple) : TableM σ Bool := do
  checkTuple C values
  let key ← at? values 0
  onBtree (Btree.update (Pager.nodeOps C) fuel values key)

/-- `Btree::remove` is not implemented and returns false. -/
def deleteTuple (key : Vari) : TableM σ Bool := do
  checkKey C key
  return false

def getNumTuples : TableM σ ℕ := do return (← tablePage C).numTuples

def getTypes : TableM σ Tuple := do return (← tablePage C).types

end Table
end Kndb
