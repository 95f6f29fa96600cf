import Kndb.Btree.DegreeOne
import Kndb.Btree.Fuel
import Kndb.Btree.MemoryPager

namespace Kndb.Btree

open Imp.Prog

variable {σ T : Type} {P : LawfulPager σ T} {t : ℕ} {ops : List (TreeOp T)} {o : Prop}
variable {st₀ st : BtreeState σ}

/-- The run `ops` has turned the empty tree of `st₀` into the tree of `st`. -/
structure Reaches (P : LawfulPager σ T) (t : ℕ) (st₀ : BtreeState σ) (ops : List (TreeOp T))
    (rs : List (Reply T)) (st : BtreeState σ) : Prop where
  empty : EmptyTree P t st₀
  run : ∃ fuel, runOps P.toPagerOps t fuel ops st₀ = .ok rs st

variable {rs : List (Reply T)}

theorem Reaches.run_of_le (h : Reaches P t st₀ ops rs st) (n : ℕ) :
    ∃ fuel, n ≤ fuel ∧ runOps P.toPagerOps t fuel ops st₀ = .ok rs st := by
  obtain ⟨f, hf⟩ := h.run
  refine ⟨max n f, le_max_left _ _, ?_⟩
  rw [(runOps_approx _ (le_max_right n f) t ops).eq (by rw [hf]; exact nofun), hf]

theorem Reaches.runPost (h : Reaches P t st₀ ops rs st) (hu : 2 ≤ effectiveDegree t)
    (hkey : o → ∀ op ∈ ops, op.key.isNaN = false) :
    P.Ok st.pager ∧ P.Frame st₀.pager st.pager ∧ ∃ L, RunPost o t (effectiveDegree t)
      (heap P st₀) (.single st₀.rootPageID) ops rs (heap P st) L := by
  obtain ⟨ok, par, hn⟩ := h.empty
  obtain ⟨fuel, hle, hrun⟩ := h.run_of_le (ops.length + 1)
  have hfuel : (Layout.single st₀.rootPageID).height st₀.rootPageID + ops.length + 1 ≤ fuel := by
    simp only [Layout.single]
    omega
  exact (wp_of_ok hrun).mp (Runs.start ok
    (runs_runOps (A := fun _ => False) rfl hu hkey (balanced_single rfl hn) hfuel))

/-- At effective degree 1 only the empty tree is reachable. -/
theorem Reaches.heap_eq (h : Reaches P t st₀ ops rs st) (hu : effectiveDegree t = 1) :
    P.Ok st.pager ∧ heap P st = heap P st₀ := by
  obtain ⟨ok, par, hn⟩ := h.empty
  obtain ⟨fuel, hle, hrun⟩ := h.run_of_le 1
  obtain ⟨fuel, rfl⟩ : ∃ f, fuel = f + 1 := ⟨fuel - 1, by omega⟩
  obtain ⟨ok', -, he⟩ := (wp_of_ok hrun).mp (Runs.start ok (runs_runOps_degreeOne hu hn))
  exact ⟨ok', he⟩

theorem ne_abort_of_approx {α : Type} {p : ℕ → BtreeM σ α} (hp : ∀ m n, m ≤ n → Approx (p m) (p n))
    {N : ℕ} (hN : ∀ n, N ≤ n → ∀ m, p n st ≠ .abort m) (fuel : ℕ) (m : String) :
    p fuel st ≠ .abort m := by
  intro ha
  have heq := (hp fuel (max N fuel) (le_max_right _ _)).eq (s := st) (by rw [ha]; exact nofun)
  exact hN _ (le_max_left _ _) m (heq.trans ha)

theorem EmptyTree.runOps_ne_abort (hempty : EmptyTree P t st₀) (ht : 2 ≤ t) (ht' : t < 2 ^ 16)
    (ops : List (TreeOp T)) (fuel : ℕ) (m : String) :
    runOps P.toPagerOps t fuel ops st₀ ≠ .abort m := by
  obtain ⟨ok, par, hn⟩ := hempty
  apply ne_abort_of_approx (fun m n h => runOps_approx P.toPagerOps h t ops) (N := ops.length + 1)
  intro n hle m ha
  rcases effectiveDegree_cases ht ht' with ⟨-, hu⟩ | ⟨-, hu⟩
  · have hfuel : (Layout.single st₀.rootPageID).height st₀.rootPageID + ops.length + 1 ≤ n := by
      simp only [Layout.single]
      omega
    exact (wp_of_abort ha).mp (Runs.start ok
      (runs_runOps (o := False) (A := fun _ => False) rfl hu False.elim (balanced_single rfl hn) hfuel))
  · obtain ⟨n, rfl⟩ : ∃ k, n = k + 1 := ⟨n - 1, by omega⟩
    have hstop : Imp.Stop.abort = .timeout :=
      (wp_of_abort ha).mp (Runs.start ok (runs_runOps_degreeOne hu hn))
    cases hstop

/-- No run of operations on an empty tree fails a check of the code, in the middle of a cascade
or elsewhere: it returns, throws because no page is left, or is still running.  The one position
that needs no check is where a new cell goes. -/
theorem runOps_in_range (ht : 2 ≤ t) (ht' : t < 2 ^ 16) (hempty : EmptyTree P t st₀)
    (ops : List (TreeOp T)) (fuel : ℕ) :
    (∀ m, runOps P.toPagerOps t fuel ops st₀ ≠ .abort m) ∧
      ∀ key (cells : List (Cell T)), scan key cells ≤ cells.length :=
  ⟨hempty.runOps_ne_abort ht ht' ops fuel, scan_le⟩

theorem runOps_in_range_two :
    (∀ m, runOps memoryPager.toPagerOps 2 9 [.insert 10 (.int 1), .insert 20 (.int 2)]
      (emptyMemory ℕ 2 none) ≠ .abort m) ∧ ∀ key (cells : List (Cell ℕ)), scan key cells ≤ cells.length :=
  runOps_in_range (by decide) (by decide) (emptyTree_emptyMemory 2 none) _ 9

end Kndb.Btree
