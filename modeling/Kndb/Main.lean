import Kndb.StorageEngine

namespace Kndb

open Imp Imp.Prog

/-- The page that a database is opened on. -/
def SCHEMA_ID : ℕ := 1

/-- The capacity of the cache that `main` makes. -/
def CACHE_SZ : ℕ := 100000

namespace StorageEngine

variable {Ref σ : Type} (C : CacheOps Ref σ)

def badSchema : Exn := .runtimeError "Error while creating schema page"

/-- A schema page is created in an empty file, and an engine is opened on it. -/
def openNew : Code σ (List Table) := do
  let page ← Pager.createNewPage C .schema
  if (← C.deref SchemaPage page).pageID ≠ SCHEMA_ID then
    raise badSchema
  readTables C SCHEMA_ID

/-- The loop that inserts the rows. -/
def insertAll (fuel : ℕ) (tableName : List Byte) : List Tuple → EngineM σ Unit
  | [] => return ()
  | values :: rows => do
    require (← insertTuple C fuel tableName values) "Failed to insert tuple"
    insertAll fuel tableName rows

def students : List Byte := [83, 116, 117, 100, 101, 110, 116, 115]

def studentTypes : Tuple := [.int 0, .int 0, .double 0]

/-- The row `{i, i * 2, i * 3.0 / 0.5}`, whose last value is calculated in floating point. -/
def student (third : ℕ → BitVec 64) (i : ℕ) : Tuple :=
  [.int (.ofNat 32 i), .int (.ofNat 32 (i * 2)), .double (third i)]

/-- The queries of `main` with `n` rows. -/
def queries (fuel : ℕ) (third : ℕ → BitVec 64) (n : ℕ) : EngineM σ Unit := do
  createTable C students studentTypes
  insertAll C fuel students ((List.range n).map (student third))
  require ((← getNumTuples C students) = some n) "There should be 1 million tuples"

end StorageEngine
end Kndb
