import Kndb.TablePage
import Kndb.Btree.FiniteMap
import Kndb.Btree.Termination

namespace Kndb

open Btree Imp

/-- The degree that the constructor of `Table` computes. -/
def tableDegree : Tuple → ℕ
  | [] => 0
  | key :: columns => calculateDegree key (key :: columns)

/-- In every state of the tree of a table, `split` ends after at most one call per level of the
tree and one more, whatever well-typed tuple is inserted. -/
def SplitEnds (types : Tuple) : Prop :=
  ∀ (σ : Type) (P : LawfulPager σ Tuple) (st₀ st : BtreeState σ),
    EmptyTree P (tableDegree types) st₀ → Survives P (tableDegree types) st₀ st →
      ∃ d, LeavesAt (P.view st.pager) d st.rootPageID ∧
        ∀ key columns, sameTypes (key :: columns) types = true → ∀ fuel, d + 2 ≤ fuel →
          insert P.toPagerOps (tableDegree types) fuel (key :: columns) key st ≠ .timeout

theorem tableDegree_le (types : Tuple) : tableDegree types ≤ 500 := by
  cases types with
  | nil => simp [tableDegree]
  | cons key columns => exact calculateDegree_le key _

/-- Degree 1 is the only one of a table at which one cell is too many. -/
theorem effectiveDegree_tableDegree (types : Tuple) :
    effectiveDegree (tableDegree types) = 1 ↔ tableDegree types = 1 := by
  have := tableDegree_le types
  rw [effectiveDegree]
  omega

theorem splitEnds_of_ne {types : Tuple} (hne : tableDegree types ≠ 1) : SplitEnds types := by
  intro σ P st₀ st hempty hst
  have hu : effectiveDegree (tableDegree types) ≠ 1 := by
    rwa [ne_eq, effectiveDegree_tableDegree]
  obtain ⟨ok, L, ht⟩ := hst.intact hu hempty
  refine ⟨L.height st.rootPageID, ht.leavesAt ht.root_mem rfl, fun key columns _ fuel hfuel => ?_⟩
  exact Prog.ne_timeout_of_wp (Runs.start ok (Intact.runs_insert hu ht hfuel)) (by simp)

theorem not_splitEnds {key : Vari} {columns : Tuple} (h : tableDegree (key :: columns) = 1) :
    ¬SplitEnds (key :: columns) := by
  intro hends
  have hempty := emptyTree_emptyMemory (T := Tuple) (tableDegree (key :: columns)) none
  obtain ⟨d, -, hd⟩ := hends _ memoryPager _ _ hempty .start
  refine hd key columns (by simp [sameTypes]) (d + 2) le_rfl ?_
  exact insert_timeout ((effectiveDegree_tableDegree _).mpr h) _ _ _

/-- The insertions of a table end exactly if its degree is not 1. -/
theorem splitEnds_iff {types : Tuple} (h : TablePage.Accepts types) :
    SplitEnds types ↔ tableDegree types ≠ 1 := by
  refine ⟨fun hends hone => ?_, splitEnds_of_ne⟩
  cases types with
  | nil => exact h.1 rfl
  | cons key columns => exact not_splitEnds hone hends

theorem splitEnds_int : SplitEnds [.int 0] ↔ tableDegree [.int 0] ≠ 1 :=
  splitEnds_iff ⟨by simp, by decide⟩

/-- Ten columns of strings: the first insertion does not end for any number of calls. -/
theorem splitEnds_counterexample :
    TablePage.Accepts (List.replicate 10 (.string [])) ∧
    ¬SplitEnds (List.replicate 10 (.string [])) ∧
    ∀ fuel, insert memoryPager.toPagerOps (tableDegree (List.replicate 10 (.string []))) fuel
      (List.replicate 10 (.string [])) (.string [])
      (emptyMemory Tuple (tableDegree (List.replicate 10 (.string []))) none) = .timeout := by
  have h : tableDegree (List.replicate 10 (.string [])) = 1 := by decide
  exact ⟨⟨by simp, by decide⟩, not_splitEnds h,
    insert_timeout ((effectiveDegree_tableDegree _).mpr h) _ _⟩

end Kndb
