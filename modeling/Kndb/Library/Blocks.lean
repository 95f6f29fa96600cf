import Mathlib.Algebra.BigOperators.Group.List.Basic
import Mathlib.Algebra.GroupWithZero.Nat
import Mathlib.Algebra.Order.Group.Nat

namespace Blocks

variable {α : Type} {k i : ℕ} {bs : List (List α)}

theorem sum_take_length (h : ∀ b ∈ bs, b.length = k) (hi : i ≤ bs.length) :
    ((bs.map List.length).take i).sum = i * k := by
  rw [List.map_eq_replicate_iff.mpr h, List.take_replicate, Nat.min_eq_left hi, List.sum_replicate_nat]

theorem drop_flatten (h : ∀ b ∈ bs, b.length = k) (hi : i ≤ bs.length) :
    bs.flatten.drop (i * k) = (bs.drop i).flatten := by
  rw [← sum_take_length h hi, List.drop_sum_flatten]

theorem take_flatten (h : ∀ b ∈ bs, b.length = k) (hi : i ≤ bs.length) :
    bs.flatten.take (i * k) = (bs.take i).flatten := by
  rw [← sum_take_length h hi, List.take_sum_flatten]

theorem flatten_length (h : ∀ b ∈ bs, b.length = k) : bs.flatten.length = bs.length * k := by
  rw [List.length_flatten, ← sum_take_length h le_rfl, List.take_of_length_le (List.length_map ..).le]

theorem take_drop_flatten (h : ∀ b ∈ bs, b.length = k) (hi : i < bs.length) :
    (bs.flatten.drop (i * k)).take k = bs[i] := by
  rw [drop_flatten h hi.le, List.drop_eq_getElem_cons hi, List.flatten_cons, ← h bs[i] (List.getElem_mem hi),
    List.take_left]

theorem splice_flatten (h : ∀ b ∈ bs, b.length = k) (hi : i < bs.length) (b : List α) :
    bs.flatten.take (i * k) ++ b ++ bs.flatten.drop (i * k + k) = (bs.set i b).flatten := by
  rw [← Nat.succ_mul, drop_flatten h hi, take_flatten h hi.le, List.set_eq_take_append_cons_drop, if_pos hi,
    List.flatten_append, List.flatten_cons, List.append_assoc]

end Blocks
