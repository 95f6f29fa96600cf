import Kndb.Utility

namespace Kndb

open Imp.Prog

structure TablePage where
  pageID : ℕ
  types : Tuple
  btreePageID : ℕ
  numTuples : ℕ
deriving DecidableEq, Repr

namespace TablePage

def new {σ : Type} (types : Tuple) (btreePageID pageID : ℕ) : Code σ TablePage := do
  require (!types.isEmpty) "There cannot be 0 types in a TablePage"
  require (types.length ≤ PG_SZ - 100) "TablePage cannot support that many types"
  return { pageID, types, btreePageID, numTuples := 0 }

def setBtreePageID (btreePageID : ℕ) (p : TablePage) : TablePage := { p with btreePageID }

/-- `m_numTuples++` on a `u64`. -/
def addTuple (p : TablePage) : TablePage := { p with numTuples := (p.numTuples + 1) % 2 ^ 64 }

def removeTuple : Code TablePage Unit := do
  require (0 < (← gets numTuples)) "Table has no tuples left to remove"
  change fun p => { p with numTuples := p.numTuples - 1 }

/-- The lists of types that the constructor takes. -/
def Accepts (types : Tuple) : Prop := types ≠ [] ∧ types.length ≤ PG_SZ - 100

theorem new_of_accepts {σ : Type} {types : Tuple} (h : Accepts types) (btreePageID pageID : ℕ)
    (s : σ) : new types btreePageID pageID s =
      .ok { pageID, types, btreePageID, numTuples := 0 } s := by
  have h1 : (!types.isEmpty) = true := by simpa using h.1
  have h2 : decide (types.length ≤ PG_SZ - 100) = true := decide_eq_true h.2
  rw [new, h1, h2]
  rfl

theorem new_of_not_accepts {σ : Type} {types : Tuple} (h : ¬Accepts types)
    (btreePageID pageID : ℕ) (s : σ) : ∃ m, new types btreePageID pageID s = .abort m := by
  by_cases h1 : types = []
  · subst h1
    exact ⟨_, rfl⟩
  · have h2 : ¬types.length ≤ PG_SZ - 100 := fun h2 => h ⟨h1, h2⟩
    have h1' : (!types.isEmpty) = true := by simpa using h1
    rw [new, h1', decide_eq_false h2]
    exact ⟨_, rfl⟩

end TablePage
end Kndb
