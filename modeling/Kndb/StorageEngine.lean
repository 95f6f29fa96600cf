import Kndb.Table

namespace Kndb

open Imp.Prog

/-- The members of a `StorageEngine` and the state of its pager. -/
structure StorageEngine (σ : Type) where
  pager : σ
  tables : List Table
  schemaPageID : ℕ
deriving DecidableEq

namespace StorageEngine

variable {Ref σ α : Type} (C : CacheOps Ref σ)

abbrev EngineM (σ α : Type) := Code (StorageEngine σ) α

def onPager (p : Code σ α) : EngineM σ α :=
  zoom StorageEngine.pager (fun s e => { e with pager := s }) p

/-- Call a member function of `S_PAGE`. -/
def onSchemaPage (p : Code SchemaPage α) : EngineM σ α := do
  let id := (← gets StorageEngine.schemaPageID)
  onPager (do C.call (← Pager.getPage C .schema id) p)

/-- The loop over the entries of the schema page. -/
def loadTables : List (List Byte × ℕ) → Code σ (List Table)
  | [] => return []
  | (name, pageID) :: entries => do
    let table ← Table.load C name pageID
    return table :: (← loadTables entries)

/-- The tables of an engine that is opened on a schema page. -/
def readTables (schemaPageID : ℕ) : Code σ (List Table) := do
  let page ← C.deref SchemaPage (← Pager.getPage C .schema schemaPageID)
  loadTables C page.tables

def nameTooLong : Exn := .invalidArgument "Name is too long"
def nameEmpty : Exn := .invalidArgument "Name cannot be empty"
def nameInUse : Exn := .invalidArgument "Table with that name already exists"
def nameUnknown : Exn := .invalidArgument "Table name not found in schema."

/-- The checks of `createTable`. -/
def checkName (tableName : List Byte) : EngineM σ Unit := do
  if MAX_STR_SZ < tableName.length + 1 then
    raise nameTooLong
  if tableName.isEmpty then
    raise nameEmpty
  if (← gets StorageEngine.tables).any fun t => t.name == tableName then
    raise nameInUse

def createTable (tableName : List Byte) (types : Tuple) : EngineM σ Unit := do
  checkName tableName
  let table ← onPager (Table.create C tableName types)
  change fun e => { e with tables := e.tables ++ [table] }
  onSchemaPage C (SchemaPage.addTable table.name table.tablePageID)

/-- The loop of `dropTable`, which keeps the last index. -/
def lastIndex (tableName : List Byte) : List Table → Option ℕ
  | [] => none
  | t :: ts =>
    match lastIndex tableName ts with
    | some i => some (i + 1)
    | none => if t.name = tableName then some 0 else none

/-- `Table::drop` does nothing. -/
def dropTable (tableName : List Byte) : EngineM σ Unit := do
  match lastIndex tableName (← gets StorageEngine.tables) with
  | none => raise nameUnknown
  | some idx => do
    onSchemaPage C (SchemaPage.removeTable tableName)
    change fun e => { e with tables := e.tables.eraseIdx idx }

def getTableNames : EngineM σ (List (List Byte)) := do
  return (← onSchemaPage C (gets SchemaPage.tables)).map Prod.fst

/-- Call a member function of the first table with the name, if there is one. -/
def onTable (tableName : List Byte) (p : Table.TableM σ α) : EngineM σ (Option α) := do
  let tables ← gets StorageEngine.tables
  match tables.findIdx? fun t => t.name == tableName with
  | none => return none
  | some i => do
    let table ← at? tables i
    let a ← zoom (fun e => ⟨e.pager, table⟩)
      (fun st e => { e with pager := st.pager, tables := e.tables.set i st.table }) p
    return some a

def getTableTypes (tableName : List Byte) : EngineM σ (Option Tuple) :=
  onTable tableName (Table.getTypes C)

def getNumTuples (tableName : List Byte) : EngineM σ (Option ℕ) :=
  onTable tableName (Table.getNumTuples C)

def insertTuple (fuel : ℕ) (tableName : List Byte) (values : Tuple) : EngineM σ Bool := do
  return (← onTable tableName (Table.insertTuple C fuel values)).getD false

def updateTuple (fuel : ℕ) (tableName : List Byte) (values : Tuple) : EngineM σ Bool := do
  return (← onTable tableName (Table.updateTuple C fuel values)).getD false

def removeTuple (tableName : List Byte) (key : Vari) : EngineM σ Bool := do
  return (← onTable tableName (Table.deleteTuple C key)).getD false

def getTuple (fuel : ℕ) (tableName : List Byte) (key : Vari) : EngineM σ (Option Tuple) := do
  return (← onTable tableName (Table.readTuple C fuel key)).join

end StorageEngine
end Kndb
