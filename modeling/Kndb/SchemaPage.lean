import Kndb.Types

namespace Kndb

open Imp.Prog

structure SchemaPage where
  pageID : ℕ
  /-- `m_tables`, an `unordered_map`: names are distinct and their order means nothing. -/
  tables : List (List Byte × ℕ)
deriving DecidableEq, Repr

/-- `unordered_map::emplace`: a key that is there keeps its value. -/
def emplace (name : List Byte) (pageID : ℕ) (l : List (List Byte × ℕ)) : List (List Byte × ℕ) :=
  if name ∈ l.map Prod.fst then l else l ++ [(name, pageID)]

namespace SchemaPage

def new (pageID : ℕ) : SchemaPage := { pageID, tables := [] }

/-- The space of one entry, `db_sizeof<string>() + db_sizeof<pgid_t>()`. -/
def entrySize : ℕ := MAX_STR_SZ + 4

/-- `freeSpace`; `used` and the result are `u16`s. -/
def freeSpace (p : SchemaPage) : ℕ :=
  (PG_SZ + 2 ^ 16 - (2 + p.tables.length * entrySize) % 2 ^ 16) % 2 ^ 16

def addTable (name : List Byte) (pageID : ℕ) : Code SchemaPage Unit := do
  require (name.length ≤ MAX_STR_LEN) "Name is too long"
  require (!name.isEmpty) "Name cannot be empty"
  require (entrySize ≤ (← gets id).freeSpace)
    "There is not enough space in this page to add another table"
  change fun p => { p with tables := emplace name pageID p.tables }

def removeTable (targ_name : List Byte) : Code SchemaPage Unit := do
  require (targ_name.length ≤ MAX_STR_LEN) "Name is too long"
  require (!targ_name.isEmpty) "Name cannot be empty"
  require (targ_name ∈ (← gets id).tables.map Prod.fst) "Table with that name does not exist"
  change fun p => { p with tables := p.tables.filter fun e => e.1 ≠ targ_name }

/-- Names that both the engine and the page accept. -/
def NameOk (name : List Byte) : Prop := name ≠ [] ∧ name.length ≤ MAX_STR_LEN

instance (name : List Byte) : Decidable (NameOk name) := inferInstanceAs (Decidable (_ ∧ _))

theorem entrySize_le_freeSpace {p : SchemaPage} (h : p.tables.length < 31) :
    entrySize ≤ p.freeSpace := by
  have hused : (2 + p.tables.length * entrySize) % 2 ^ 16 = 2 + p.tables.length * 132 :=
    Nat.mod_eq_of_lt (by simp only [entrySize, MAX_STR_SZ]; omega)
  have hrest : PG_SZ + 2 ^ 16 - (2 + p.tables.length * 132) =
      2 ^ 16 + (4094 - p.tables.length * 132) := by
    simp only [PG_SZ]
    omega
  rw [freeSpace, hused, hrest, Nat.add_mod_left, Nat.mod_eq_of_lt (by omega), entrySize, MAX_STR_SZ]
  omega

theorem addTable_eq {name : List Byte} {pageID : ℕ} {p : SchemaPage} (hname : NameOk name)
    (hnew : name ∉ p.tables.map Prod.fst) (hlen : p.tables.length < 31) :
    addTable name pageID p = .ok () { p with tables := p.tables ++ [(name, pageID)] } := by
  have h1 : (!name.isEmpty) = true := by simpa using hname.1
  unfold addTable
  rw [bind_ok (require_ok _ _ (decide_eq_true hname.2)), bind_ok (require_ok _ _ h1),
    bind_ok (show gets id p = .ok p p from rfl),
    bind_ok (require_ok _ _ (decide_eq_true (entrySize_le_freeSpace hlen)))]
  change Imp.Outcome.ok () { p with tables := emplace name pageID p.tables } = _
  rw [emplace, if_neg hnew]

theorem removeTable_eq {name : List Byte} {p : SchemaPage} (hname : NameOk name)
    (hmem : name ∈ p.tables.map Prod.fst) :
    removeTable name p = .ok () { p with tables := p.tables.filter fun e => e.1 ≠ name } := by
  have h1 : (!name.isEmpty) = true := by simpa using hname.1
  unfold removeTable
  rw [bind_ok (require_ok _ _ (decide_eq_true hname.2)), bind_ok (require_ok _ _ h1),
    bind_ok (show gets id p = .ok p p from rfl),
    bind_ok (require_ok _ _ (decide_eq_true hmem))]
  rfl

end SchemaPage
end Kndb
