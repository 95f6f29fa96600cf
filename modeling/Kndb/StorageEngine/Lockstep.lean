import Kndb.Main
import Kndb.Pager.Lockstep
import Kndb.StorageEngine.Operations

namespace Kndb

open Imp Imp.Prog CacheOps Pager

variable {Ref σ τ α : Type} {R : σ → τ → Prop} {C : CacheOps Ref σ} {D : CacheOps Ref τ}

namespace Table

/-- The same table over pagers that are related. -/
structure Alongside (R : σ → τ → Prop) (st : TableState σ) (st' : TableState τ) : Prop where
  pager : R st.pager st'.pager
  table : st.table = st'.table

theorem lockstep_onPager {p : Code σ α} {q : Code τ α} (h : Lockstep R p q) :
    Lockstep (Alongside R) (onPager p) (onPager q) :=
  h.zoom (fun _ _ hst => hst.pager) fun _ _ _ _ hst hs => ⟨hs, hst.table⟩

theorem lockstep_onBtree {p : Btree.BtreeM σ α} {q : Btree.BtreeM τ α} (h : Lockstep (Btree.Alongside R) p q) :
    Lockstep (Alongside R) (onBtree p) (onBtree q) := by
  refine h.zoom (fun st st' hst => ⟨hst.pager, by rw [hst.table]⟩) fun st st' b b' hst hb => ⟨hb.pager, ?_⟩
  rw [hst.table, hb.root]

theorem lockstep_table : Lockstep (Alongside R) (gets TableState.table : TableM σ Table) (gets TableState.table) :=
  lockstep_gets fun _ _ hst => hst.table

section

variable (h : C.Lockstep R D)
include h

theorem lockstep_readTablePage (id : ℕ) : Lockstep R (readTablePage C id) (readTablePage D id) :=
  (lockstep_getPage h .table id).bind fun r => lockstep_deref h r

theorem lockstep_changeTablePage (id : ℕ) (f : TablePage → TablePage) :
    Lockstep R (changeTablePage C id f) (changeTablePage D id f) :=
  (lockstep_getPage h .table id).bind fun r => lockstep_call h r _

theorem lockstep_tablePage : Lockstep (Alongside R) (tablePage C) (tablePage D) :=
  lockstep_table.bind fun t => lockstep_onPager (lockstep_readTablePage h t.tablePageID)

theorem lockstep_readDegree (id : ℕ) : Lockstep R (readDegree C id) (readDegree D id) := by
  refine (lockstep_readTablePage h id).bind fun p => (lockstep_at? ..).bind fun key => ?_
  exact (lockstep_readTablePage h id).map _

theorem lockstep_load (name : List Byte) (id : ℕ) : Lockstep R (load C name id) (load D name id) :=
  (lockstep_readDegree h id).bind fun _ => (lockstep_readTablePage h id).map _

theorem lockstep_createRoot (name : List Byte) (id : ℕ) : Lockstep R (createRoot C name id) (createRoot D name id) := by
  refine (lockstep_readDegree h id).bind fun degree => (lockstep_createNewPage h _).bind fun node => ?_
  refine (lockstep_deref h node).bind fun n => (lockstep_changeTablePage h id _).bind fun _ => ?_
  exact (lockstep_readTablePage h id).map _

theorem lockstep_create (name : List Byte) (types : Tuple) :
    Lockstep R (create C name types) (create D name types) := by
  refine (lockstep_createNewPage h _).bind fun page => (lockstep_deref h page).bind fun p => ?_
  exact lockstep_createRoot h name _

theorem lockstep_checkTypes (values : Tuple) (i : ℕ) :
    Lockstep (Alongside R) (checkTypes C values i) (checkTypes D values i) := by
  induction values generalizing i with
  | nil => exact lockstep_pure _
  | cons value values ih =>
    refine (lockstep_tablePage h).bind fun p => (lockstep_at? ..).bind fun type => ?_
    exact .guard (ih _)

theorem lockstep_checkTuple (values : Tuple) : Lockstep (Alongside R) (checkTuple C values) (checkTuple D values) := by
  refine (lockstep_tablePage h).bind fun p => ?_
  exact .guard (lockstep_checkTypes h values 0)

theorem lockstep_recordInsert (og_root : ℕ) :
    Lockstep (Alongside R) (recordInsert C og_root) (recordInsert D og_root) := by
  refine lockstep_table.bind fun t => (lockstep_onPager (lockstep_changeTablePage h _ _)).bind fun _ => ?_
  exact .ite (lockstep_onPager (lockstep_changeTablePage h _ _)) (lockstep_pure _)

theorem lockstep_insertTuple (fuel : ℕ) (values : Tuple) :
    Lockstep (Alongside R) (insertTuple C fuel values) (insertTuple D fuel values) := by
  refine (lockstep_checkTuple h values).bind fun _ => lockstep_table.bind fun t => (lockstep_at? ..).bind fun key => ?_
  refine (lockstep_onBtree (Btree.lockstep_insert (lockstep_nodeOps h) _ _ _ _)).bind fun success => ?_
  exact .ite ((lockstep_recordInsert h _).bind fun _ => lockstep_pure _) (lockstep_pure _)

theorem lockstep_checkKey (key : Vari) : Lockstep (Alongside R) (checkKey C key) (checkKey D key) := by
  refine (lockstep_tablePage h).bind fun p => (lockstep_at? ..).bind fun type => ?_
  exact .ite (lockstep_raise _) (lockstep_pure _)

theorem lockstep_readTuple (fuel : ℕ) (key : Vari) :
    Lockstep (Alongside R) (readTuple C fuel key) (readTuple D fuel key) :=
  (lockstep_checkKey h key).bind fun _ => lockstep_onBtree (Btree.lockstep_search (lockstep_nodeOps h) _ _)

theorem lockstep_updateTuple (fuel : ℕ) (values : Tuple) :
    Lockstep (Alongside R) (updateTuple C fuel values) (updateTuple D fuel values) := by
  refine (lockstep_checkTuple h values).bind fun _ => (lockstep_at? ..).bind fun key => ?_
  exact lockstep_onBtree (Btree.lockstep_update (lockstep_nodeOps h) _ _ _)

theorem lockstep_deleteTuple (key : Vari) : Lockstep (Alongside R) (deleteTuple C key) (deleteTuple D key) :=
  (lockstep_checkKey h key).bind fun _ => lockstep_pure _

end
end Table

namespace StorageEngine

/-- The same tables over pagers that are related. -/
structure Alongside (R : σ → τ → Prop) (e : StorageEngine σ) (e' : StorageEngine τ) : Prop where
  pager : R e.pager e'.pager
  tables : e.tables = e'.tables
  schemaPageID : e.schemaPageID = e'.schemaPageID

theorem lockstep_onPager {p : Code σ α} {q : Code τ α} (h : Lockstep R p q) :
    Lockstep (Alongside R) (onPager p) (onPager q) :=
  h.zoom (fun _ _ he => he.pager) fun _ _ _ _ he hs => ⟨hs, he.tables, he.schemaPageID⟩

theorem lockstep_tables :
    Lockstep (Alongside R) (gets StorageEngine.tables : EngineM σ (List Table)) (gets StorageEngine.tables) :=
  lockstep_gets fun _ _ he => he.tables

theorem lockstep_changeTables (f : List Table → List Table) : Lockstep (Alongside R)
    (change (fun e => { e with tables := f e.tables }) : EngineM σ Unit)
    (change fun e => { e with tables := f e.tables }) :=
  lockstep_change fun _ _ he => ⟨he.pager, congrArg f he.tables, he.schemaPageID⟩

theorem lockstep_checkName (name : List Byte) :
    Lockstep (Alongside R) (checkName name : EngineM σ Unit) (checkName name) := by
  rw [checkName, checkName]
  refine .guard (.guard (lockstep_tables.bind fun tables => ?_))
  exact .ite (lockstep_raise _) (lockstep_pure _)

theorem lockstep_onTable {p : Table.TableM σ α} {q : Table.TableM τ α} (h : Lockstep (Table.Alongside R) p q)
    (name : List Byte) : Lockstep (Alongside R) (onTable name p) (onTable name q) := by
  refine lockstep_tables.bind fun tables => ?_
  cases tables.findIdx? fun t => t.name == name with
  | none => exact lockstep_pure _
  | some i =>
    refine (lockstep_at? ..).bind fun table => (h.zoom ?_ ?_).map _
    · exact fun e e' he => ⟨he.pager, rfl⟩
    · intro e e' st st' he hst
      refine ⟨hst.pager, ?_, he.schemaPageID⟩
      change e.tables.set i st.table = e'.tables.set i st'.table
      rw [he.tables, hst.table]

section

variable (h : C.Lockstep R D)
include h

theorem lockstep_onSchemaPage (p : Code SchemaPage α) :
    Lockstep (Alongside R) (onSchemaPage C p) (onSchemaPage D p) := by
  refine (lockstep_gets fun _ _ he => he.schemaPageID).bind fun id => lockstep_onPager ?_
  exact (lockstep_getPage h .schema id).bind fun r => lockstep_call h r p

theorem lockstep_loadTables (entries : List (List Byte × ℕ)) :
    Lockstep R (loadTables C entries) (loadTables D entries) := by
  induction entries with
  | nil => exact lockstep_pure _
  | cons entry entries ih => exact (Table.lockstep_load h _ _).bind fun table => ih.map _

theorem lockstep_readTables (id : ℕ) : Lockstep R (readTables C id) (readTables D id) := by
  refine (lockstep_getPage h .schema id).bind fun r => (lockstep_deref h r).bind fun p => ?_
  exact lockstep_loadTables h p.tables

theorem lockstep_createTable (name : List Byte) (types : Tuple) :
    Lockstep (Alongside R) (createTable C name types) (createTable D name types) := by
  refine (lockstep_checkName name).bind fun _ => ?_
  refine (lockstep_onPager (Table.lockstep_create h name types)).bind fun t => ?_
  exact (lockstep_changeTables fun tables => tables ++ [t]).bind fun _ => lockstep_onSchemaPage h _

theorem lockstep_dropTable (name : List Byte) :
    Lockstep (Alongside R) (dropTable C name) (dropTable D name) := by
  refine lockstep_tables.bind fun tables => ?_
  cases lastIndex name tables with
  | none => exact lockstep_raise _
  | some i =>
    exact (lockstep_onSchemaPage h _).bind fun _ => lockstep_changeTables fun tables => tables.eraseIdx i

theorem lockstep_insertTuple (fuel : ℕ) (name : List Byte) (values : Tuple) :
    Lockstep (Alongside R) (insertTuple C fuel name values) (insertTuple D fuel name values) :=
  (lockstep_onTable (Table.lockstep_insertTuple h fuel values) name).map _

theorem lockstep_getTuple (fuel : ℕ) (name : List Byte) (key : Vari) :
    Lockstep (Alongside R) (getTuple C fuel name key) (getTuple D fuel name key) :=
  (lockstep_onTable (Table.lockstep_readTuple h fuel key) name).map _

theorem lockstep_getNumTuples (name : List Byte) :
    Lockstep (Alongside R) (getNumTuples C name) (getNumTuples D name) :=
  lockstep_onTable ((Table.lockstep_tablePage h).map _) name

/-- Every call does the same over both caches. -/
theorem EngineOp.lockstep_run (fuel : ℕ) (op : EngineOp) :
    Lockstep (Alongside R) (op.run C fuel) (op.run D fuel) := by
  cases op with
  | createTable name types => exact (lockstep_createTable h name types).map _
  | dropTable name => exact (lockstep_dropTable h name).map _
  | getTableNames => exact ((lockstep_onSchemaPage h _).map _).map _
  | getTableTypes name => exact (lockstep_onTable ((Table.lockstep_tablePage h).map _) name).map _
  | getNumTuples name => exact (lockstep_getNumTuples h name).map _
  | insertTuple name values => exact (lockstep_insertTuple h fuel name values).map _
  | updateTuple name values => exact ((lockstep_onTable (Table.lockstep_updateTuple h fuel values) name).map _).map _
  | removeTuple name key => exact ((lockstep_onTable (Table.lockstep_deleteTuple h key) name).map _).map _
  | getTuple name key => exact (lockstep_getTuple h fuel name key).map _

theorem lockstep_openNew : Lockstep R (openNew C) (openNew D) := by
  refine (lockstep_createNewPage h _).bind fun r => (lockstep_deref h r).bind fun p => ?_
  exact .guard (lockstep_readTables h _)

theorem lockstep_insertAll (fuel : ℕ) (name : List Byte) (rows : List Tuple) :
    Lockstep (Alongside R) (insertAll C fuel name rows) (insertAll D fuel name rows) := by
  induction rows with
  | nil => exact lockstep_pure _
  | cons values rows ih =>
    exact (lockstep_insertTuple h fuel name values).bind fun _ => (lockstep_require ..).bind fun _ => ih

theorem lockstep_queries (fuel : ℕ) (third : ℕ → BitVec 64) (n : ℕ) :
    Lockstep (Alongside R) (queries C fuel third n) (queries D fuel third n) := by
  refine (lockstep_createTable h _ _).bind fun _ => (lockstep_insertAll h _ _ _).bind fun _ => ?_
  exact (lockstep_getNumTuples h students).bind fun _ => lockstep_require ..

end

end StorageEngine
end Kndb
