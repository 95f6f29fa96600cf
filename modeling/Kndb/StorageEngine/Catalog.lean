import Kndb.StorageEngine.Operations
import Kndb.Table.Invariant

namespace Kndb.StorageEngine

open Imp Btree Pager Table

/-- The columns of a table and its rows, by the ranks of their keys. -/
structure Content where
  types : Tuple
  rows : Rank → Option Tuple

abbrev Catalog := List Byte → Option Content

/-- What is wrong with the name of a new table, if anything is. -/
def Catalog.nameError (K : Catalog) (tableName : List Byte) : Option Exn :=
  if MAX_STR_SZ < tableName.length + 1 then some nameTooLong
  else if tableName.isEmpty then some nameEmpty
  else if (K tableName).isSome then some nameInUse
  else none

def ofReply : Except Exn (Reply Tuple) → Except Exn EngineReply
  | .ok (.changed b) => .ok (.changed b)
  | .ok (.found v) => .ok (.row v)
  | .error x => .error x

/-- A call on the rows of a table, which is `missing` where there is no table of the name. -/
def Catalog.onTable (K : Catalog) (tableName : List Byte) (op : TupleOp) (missing : EngineReply) :
    Except Exn EngineReply × Catalog :=
  match K tableName with
  | none => (.ok missing, K)
  | some c => (ofReply (op.onRows c.types c.rows).1,
      Function.update K tableName (some { c with rows := (op.onRows c.types c.rows).2 }))

namespace EngineOp

def onCatalog : EngineOp → Catalog → Catalog
  | createTable name types, K =>
    if K.nameError name = none then Function.update K name (some ⟨types, fun _ => none⟩) else K
  | dropTable name, K => Function.update K name none
  | insertTuple name values, K => (K.onTable name (.insert values) (.changed false)).2
  | updateTuple name values, K => (K.onTable name (.update values) (.changed false)).2
  | _, K => K

/-- What a call answers.  Names are listed in any order, and rows are never removed. -/
def Answers : EngineOp → Catalog → Except Exn EngineReply → Prop
  | createTable name _, K, r => r = match K.nameError name with
    | some x => .error x
    | none => .ok .done
  | dropTable name, K, r => r = if (K name).isSome then .ok .done else .error nameUnknown
  | getTableNames, K, r => ∃ l, r = .ok (.names l) ∧ l.Nodup ∧ ∀ name, name ∈ l ↔ (K name).isSome
  | getTableTypes name, K, r => r = .ok (.types ((K name).map Content.types))
  | getNumTuples name, K, r => r = .ok (.count ((K name).map fun c => (keys c.rows).ncard))
  | insertTuple name values, K, r => r = (K.onTable name (.insert values) (.changed false)).1
  | updateTuple name values, K, r => r = (K.onTable name (.update values) (.changed false)).1
  | removeTuple name key, K, r => r = match (K name).bind fun c => keyError c.types key with
    | some x => .error x
    | none => .ok (.changed false)
  | getTuple name key, K, r => r = (K.onTable name (.read key) (.row none)).1

/-- The calls that the engine is made for: no NaN is a key, at most 31 tables exist at a time, and the
columns fit a table page and make a degree of at least 2. -/
def Admissible : EngineOp → Catalog → Prop
  | createTable name types, K => TablePage.Accepts types ∧ 2 ≤ tableDegree types ∧
      (K.nameError name = none → {name | (K name).isSome}.ncard < 31)
  | insertTuple _ values, _ => (values.headD (.int 0)).isNaN = false
  | updateTuple _ values, _ => (values.headD (.int 0)).isNaN = false
  | getTuple _ key, _ => key.isNaN = false
  | _, _ => True

end EngineOp

variable {K : Catalog} {op : EngineOp}

/-- What a call reports when it is refused. -/
def refusals : List Exn := [nameTooLong, nameEmpty, nameInUse, nameUnknown, badCount, badTypes, badKey]

theorem Catalog.nameError_mem {name : List Byte} {x : Exn} (h : K.nameError name = some x) : x ∈ refusals := by
  rw [Catalog.nameError] at h
  split_ifs at h <;> cases h <;> decide

theorem tupleError_mem {types values : Tuple} {x : Exn} (h : tupleError types values = some x) : x ∈ refusals := by
  rw [tupleError] at h
  split_ifs at h <;> cases h <;> decide

theorem keyError_mem {types : Tuple} {key : Vari} {x : Exn} (h : keyError types key = some x) : x ∈ refusals := by
  cases types with
  | nil =>
    cases h
    decide
  | cons type types =>
    rw [keyError] at h
    split_ifs at h
    cases h
    decide

theorem Catalog.onTable_mem {name : List Byte} {op : TupleOp} {missing : EngineReply} {x : Exn}
    (h : (K.onTable name op missing).1 = .error x) : x ∈ refusals := by
  rw [Catalog.onTable] at h
  cases hc : K name with
  | none =>
    rw [hc] at h
    cases h
  | some c =>
    rw [hc] at h
    dsimp only at h
    cases herr : op.error c.types with
    | none =>
      rw [TupleOp.onRows_of_none herr] at h
      cases hreply : (op.treeOp.onMap c.rows).1 <;> rw [hreply] at h <;> cases h
    | some y =>
      rw [show op.onRows c.types c.rows = (.error y, c.rows) by rw [TupleOp.onRows, herr]] at h
      obtain rfl : y = x := Except.error.inj h
      cases op with
      | insert values => exact tupleError_mem herr
      | update values => exact tupleError_mem herr
      | read key => exact keyError_mem herr

theorem EngineOp.Answers.mem_refusals {x : Exn} (h : op.Answers K (.error x)) : x ∈ refusals := by
  cases op with
  | createTable name types =>
    rw [EngineOp.Answers] at h
    cases herr : K.nameError name with
    | none =>
      rw [herr] at h
      cases h
    | some y =>
      rw [herr] at h
      cases h
      exact Catalog.nameError_mem herr
  | dropTable name =>
    rw [EngineOp.Answers] at h
    split_ifs at h
    cases h
    decide
  | getTableNames =>
    obtain ⟨l, heq, -⟩ := h
    cases heq
  | getTableTypes name => cases h
  | getNumTuples name => cases h
  | insertTuple name values => exact Catalog.onTable_mem (Eq.symm h)
  | updateTuple name values => exact Catalog.onTable_mem (Eq.symm h)
  | removeTuple name key =>
    rw [EngineOp.Answers] at h
    cases hc : (K name).bind fun c => keyError c.types key with
    | none =>
      rw [hc] at h
      cases h
    | some y =>
      rw [hc] at h
      cases h
      obtain ⟨c, -, hkey⟩ := Option.bind_eq_some_iff.mp hc
      exact keyError_mem hkey
  | getTuple name key => exact Catalog.onTable_mem (Eq.symm h)

/-- The catalog has room for everything. -/
theorem EngineOp.Answers.ne_sizeLimit {r : Except Exn EngineReply} (h : op.Answers K r) : r ≠ .error sizeLimit := by
  rintro rfl
  exact absurd h.mem_refusals (by decide)

end Kndb.StorageEngine
