import Mathlib.Data.List.Dedup
import Mathlib.Data.List.Nodup

namespace Recency

variable {α : Type} [DecidableEq α] {l : List α} {x y : α}

/-- The elements of a history in the order of their last use, the latest first. -/
def byLastUse (history : List α) : List α := history.dedup.reverse

/-- The order after `x` has been used. -/
def touch (x : α) (l : List α) : List α := x :: l.filter fun y => y ≠ x

theorem dedup_concat (l : List α) (x : α) :
    (l ++ [x]).dedup = (l.dedup.filter fun y => y ≠ x) ++ [x] := by
  induction l with
  | nil => rfl
  | cons y l ih =>
    rw [List.cons_append]
    by_cases hx : y = x
    · subst hx
      rw [List.dedup_cons_of_mem (by simp), ih]
      by_cases hl : y ∈ l
      · rw [List.dedup_cons_of_mem hl]
      · rw [List.dedup_cons_of_notMem hl, List.filter_cons_of_neg (by simp)]
    · by_cases hl : y ∈ l
      · rw [List.dedup_cons_of_mem (by simp [hl]), List.dedup_cons_of_mem hl, ih]
      · rw [List.dedup_cons_of_notMem (by simp [hl, hx]), List.dedup_cons_of_notMem hl, ih,
          List.filter_cons_of_pos (by simpa using hx), List.cons_append]

theorem byLastUse_concat (history : List α) (x : α) :
    byLastUse (history ++ [x]) = touch x (byLastUse history) := by
  rw [byLastUse, dedup_concat, List.reverse_append, List.reverse_singleton, List.singleton_append,
    ← List.filter_reverse]
  rfl

theorem nodup_byLastUse (history : List α) : (byLastUse history).Nodup :=
  List.nodup_reverse.mpr history.nodup_dedup

theorem take_filter_take (hl : l.Nodup) (c : ℕ) :
    ((l.take (c + 1)).filter fun y => y ≠ x).take c = (l.filter fun y => y ≠ x).take c := by
  induction l generalizing c with
  | nil => simp
  | cons y l ih =>
    obtain ⟨hy, hl⟩ := List.nodup_cons.mp hl
    by_cases hyx : y = x
    · subst hyx
      have hfilter : ∀ k : List α, y ∉ k → (k.filter fun z => z ≠ y) = k := by
        intro k hk
        rw [List.filter_eq_self]
        intro z hz
        apply decide_eq_true
        rintro rfl
        exact hk hz
      rw [List.take_succ_cons, List.filter_cons_of_neg (by simp), List.filter_cons_of_neg (by simp),
        hfilter _ hy, hfilter _ fun hin => hy (List.mem_of_mem_take hin), List.take_take, Nat.min_self]
    · rw [List.take_succ_cons, List.filter_cons_of_pos (by simpa using hyx),
        List.filter_cons_of_pos (by simpa using hyx)]
      cases c with
      | zero => rfl
      | succ c => rw [List.take_succ_cons, List.take_succ_cons, ih hl]

/-- What lies behind the first `c` does not matter. -/
theorem take_touch (hl : l.Nodup) (c : ℕ) (x : α) :
    (touch x (l.take c)).take c = (touch x l).take c := by
  cases c with
  | zero => rfl
  | succ c => rw [touch, touch, List.take_succ_cons, List.take_succ_cons, take_filter_take hl]

end Recency
