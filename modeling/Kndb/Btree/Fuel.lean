import Kndb.Btree.Session

namespace Kndb.Btree

open Imp.Prog

variable {Ref σ T : Type} (P : PagerOps Ref σ T) {m n : ℕ}

theorem searchRowPtr_approx (h : m ≤ n) (key : Vari) (id : ℕ) :
    Approx (searchRowPtr P key m id) (searchRowPtr P key n id) := by
  induction m generalizing n id with
  | zero => exact approx_outOfFuel _
  | succ m ih =>
    obtain ⟨n, rfl⟩ : ∃ k, n = k + 1 := ⟨n - 1, by omega⟩
    rw [searchRowPtr, searchRowPtr]
    refine (Approx.refl _).bind fun _ => (Approx.refl _).bind fun _ => (Approx.refl _).bind fun _ =>
      (Approx.refl _).bind fun _ => (Approx.refl _).bind fun _ => ?_
    refine Approx.ite (.refl _) (Approx.ite (.refl _) ?_)
    exact (Approx.refl _).bind fun _ => ih (by omega) _

theorem split_approx (h : m ≤ n) (deg id : ℕ) : Approx (split P deg m id) (split P deg n id) := by
  induction m generalizing n id with
  | zero => exact approx_outOfFuel _
  | succ m ih =>
    obtain ⟨n, rfl⟩ : ∃ k, n = k + 1 := ⟨n - 1, by omega⟩
    rw [split, split]
    refine (Approx.refl _).bind fun _ => (Approx.refl _).bind fun _ => Approx.ite (.refl _) ?_
    refine (Approx.refl _).bind fun _ => (Approx.refl _).bind fun _ => Approx.ite ?_ (.refl _)
    exact ih (by omega) _

theorem search_approx (h : m ≤ n) (key : Vari) : Approx (search P m key) (search P n key) :=
  (Approx.refl _).bind fun _ => (searchRowPtr_approx P h key _).bind fun _ => .refl _

theorem update_approx (h : m ≤ n) (v : T) (key : Vari) :
    Approx (update P m v key) (update P n v key) :=
  (Approx.refl _).bind fun _ => (searchRowPtr_approx P h key _).bind fun _ => .refl _

theorem insert_approx (h : m ≤ n) (deg : ℕ) (v : T) (key : Vari) :
    Approx (insert P deg m v key) (insert P deg n v key) := by
  refine (Approx.refl _).bind fun _ => (searchRowPtr_approx P h key _).bind fun _ => ?_
  refine Approx.ite (.refl _) ((Approx.refl _).bind fun _ => (Approx.refl _).bind fun _ => ?_)
  refine (Approx.refl _).bind fun _ => (Approx.refl _).bind fun _ => (Approx.refl _).bind fun _ => ?_
  exact (split_approx P h deg _).bind fun _ => .refl _

theorem onTree_approx (h : m ≤ n) (deg : ℕ) (op : TreeOp T) :
    Approx (op.onTree P deg m) (op.onTree P deg n) := by
  cases op with
  | insert v k => exact (insert_approx P h deg v k).bind fun _ => .refl _
  | update v k => exact (update_approx P h v k).bind fun _ => .refl _
  | search k => exact (search_approx P h k).bind fun _ => .refl _

theorem runOps_approx (h : m ≤ n) (deg : ℕ) (ops : List (TreeOp T)) :
    Approx (runOps P deg m ops) (runOps P deg n ops) := by
  induction ops with
  | nil => exact .refl _
  | cons op ops ih => exact (onTree_approx P h deg op).bind fun _ => ih.bind fun _ => .refl _

/-- `search` returns `r`. -/
def Answers (st : BtreeState σ) (key : Vari) (r : Option T) : Prop :=
  ∃ fuel st', search P fuel key st = .ok r st'

variable {P}

theorem Answers.eq {st : BtreeState σ} {key : Vari} {r : Option T} (ha : Answers P st key r)
    {fuel : ℕ} (hne : search P fuel key st ≠ .timeout) : ∃ st', search P fuel key st = .ok r st' := by
  obtain ⟨f, st', hf⟩ := ha
  have := eq_of_approx (fun m n h => search_approx P h key) hne (hf ▸ nofun : search P f key st ≠ _)
  exact ⟨st', this.trans hf⟩

end Kndb.Btree
