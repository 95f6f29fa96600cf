import Kndb.Btree.DegreeOne
import Kndb.Btree.MemoryPager

namespace Kndb.Btree

open Imp Imp.Prog

/-- Every run from the empty tree returns, and answers as the map from keys to values does.  One
call per level and one more suffices, and a run of `n` operations reaches at most `n` levels. -/
def RefinesMap (t : ℕ) : Prop :=
  ∀ (σ T : Type) (P : LawfulPager σ T) (st : BtreeState σ), EmptyTree P t st →
    P.avail st.pager = ⊤ → ∀ ops : List (TreeOp T), (∀ op ∈ ops, op.key.isNaN = false) →
      ∀ fuel, ops.length + 2 ≤ fuel →
        ∃ st', runOps P.toPagerOps t fuel ops st = .ok (mapReplies ops fun _ => none) st'

theorem refinesMap_of_effectiveDegree {t : ℕ} (hu : 2 ≤ effectiveDegree t) : RefinesMap t := by
  rintro σ T P st ⟨ok, par, hn⟩ havail ops hkey fuel hfuel
  have hb : Balanced True t (effectiveDegree t) (heap P st) (.single st.rootPageID) none :=
    balanced_single rfl hn
  have hfuel' : (Layout.single st.rootPageID).height st.rootPageID + ops.length + 1 ≤ fuel := by
    simp only [Layout.single]
    omega
  obtain ⟨rs, st', hrs, -, -, L', hpost⟩ := ok_of_wp (wp_mono
    (Runs.start ok (runs_runOps (A := fun _ => False) rfl hu (fun _ => hkey) hb hfuel'))
    (fun _ _ hq => hq) (fun _ _ hr => hr.2.2 havail) fun _ hA => hA)
  obtain ⟨rfl, -⟩ := hpost.map trivial _ (represents_single hn)
  exact ⟨st', hrs⟩

/-- The first insertion into a tree whose new roots are full at once does not return. -/
theorem insert_timeout {t : ℕ} (hu : effectiveDegree t = 1) {T : Type} (v : T) (key : Vari)
    (fuel : ℕ) :
    insert memoryPager.toPagerOps t fuel v key (emptyMemory T t none) = .timeout := by
  obtain ⟨ok, par, hn⟩ := emptyTree_emptyMemory (T := T) t none
  refine timeout_of_wp (wp_mono (Runs.start ok (runs_insert_degreeOne hu fuel v key hn))
    (fun _ _ hq => hq.2.2) (fun _ _ hr => hr.2.2.1 rfl) fun _ hA => hA.1)

theorem runOps_timeout {t : ℕ} (hu : effectiveDegree t = 1) (fuel : ℕ) :
    runOps memoryPager.toPagerOps t fuel [.insert 0 (.int 0)] (emptyMemory ℕ t none) =
      .timeout := by
  have hins := insert_timeout hu (0 : ℕ) (.int 0) fuel
  rw [runOps, TreeOp.onTree, bind_apply, seq, bind_apply, seq, hins]

theorem not_refinesMap {t : ℕ} (hu : effectiveDegree t = 1) : ¬RefinesMap t := by
  intro href
  obtain ⟨st', hst⟩ := href _ ℕ memoryPager _ (emptyTree_emptyMemory t none) rfl
    [.insert 0 (.int 0)] (by simp [TreeOp.key, Vari.isNaN]) 3 (by simp)
  exact absurd ((runOps_timeout hu 3).symm.trans hst) (by simp)

/-- The trees of all degrees but one are finite maps. -/
theorem refinesMap_iff {t : ℕ} (ht : 2 ≤ t) (ht' : t < 2 ^ 16) : RefinesMap t ↔ t ≠ 32769 := by
  rcases effectiveDegree_cases ht ht' with ⟨hne, hu⟩ | ⟨rfl, hu⟩
  · exact iff_of_true (refinesMap_of_effectiveDegree hu) hne
  · exact iff_of_false (not_refinesMap hu) (by simp)

theorem refinesMap_three : RefinesMap 3 ↔ 3 ≠ 32769 := refinesMap_iff (by decide) (by decide)

/-- At degree 32769 no amount of fuel is enough for one insertion. -/
theorem refinesMap_counterexample : ¬RefinesMap 32769 ∧
    ∀ fuel, insert memoryPager.toPagerOps 32769 fuel 0 (.int 0) (emptyMemory ℕ 32769 none) =
      .timeout :=
  ⟨not_refinesMap (by decide), insert_timeout (by decide) 0 (.int 0)⟩

end Kndb.Btree
