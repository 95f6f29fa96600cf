import Mathlib.Algebra.BigOperators.Ring.Finset
import Mathlib.Algebra.Order.BigOperators.Group.Finset
import Kndb.Btree.Height
import Kndb.Btree.Operations

namespace Kndb.Btree

open Ascending

variable {T : Type} {nodes : ℕ → Option (BtreeNodePage T)} {root deg u : ℕ} {L : Layout} {ovf : Option ℕ}

def numCells (nodes : ℕ → Option (BtreeNodePage T)) (p : ℕ) : ℕ := (nodes p).elim 0 (·.cells.length)

theorem numCells_of_eq {p : ℕ} {n : BtreeNodePage T} (hn : nodes p = some n) : numCells nodes p = n.cells.length := by
  rw [numCells, hn]
  rfl

theorem Linked.length_inorder_eq (h : Linked deg nodes root L) (ho : Occupied u nodes root L ovf) {k p : ℕ}
    (hp : p ∈ L.pages) (hk : L.height p = k) :
    (inorder nodes k p).length = ((reached nodes k p).map (numCells nodes)).sum := by
  induction k generalizing p with
  | zero =>
    obtain ⟨n, hn, -⟩ := h.link p hp
    rw [inorder_zero p hn, reached, List.map_singleton, List.sum_singleton, numCells_of_eq hn]
  | succ k ih =>
    obtain ⟨n, hn, ok⟩ := h.link p hp
    have harity := ho.arity p hp n hn (ok.leaf_eq_false (by omega))
    have hkids : ∀ q ∈ n.children, (inorder nodes k q).length = ((reached nodes k q).map (numCells nodes)).sum := by
      intro q hq
      obtain ⟨hm, hh, -⟩ := ok.kids q hq
      exact ih hm (by omega)
    rw [inorder_succ k p hn, length_weave _ _ _ harity, reached_succ hn, List.map_cons, List.sum_cons,
      numCells_of_eq hn, List.flatMap, List.map_flatten, List.sum_flatten, List.map_map, List.map_map,
      List.map_congr_left hkids]
    rfl

theorem Linked.length_inorder_root (h : Linked deg nodes root L) (ho : Occupied u nodes root L ovf) :
    (inorder nodes (L.height root) root).length = ∑ p ∈ L.pages, numCells nodes p := by
  have hnodup := h.reached_nodup h.root_mem rfl
  have hpages : (reached nodes (L.height root) root).toFinset = L.pages := by
    ext q
    rw [List.mem_toFinset, h.mem_reached_iff]
  rw [h.length_inorder_eq ho h.root_mem rfl, ← hpages, List.sum_toFinset _ hnodup]

theorem Linked.two_pow_le_reached (h : Linked deg nodes root L) (hs : Sized u nodes root L ovf) (hu : 2 ≤ u) {k p : ℕ}
    (hp : p ∈ L.pages) (hk : L.height p = k) : 2 ^ (k + 1) ≤ (reached nodes k p).length + 1 := by
  induction k generalizing p with
  | zero => rfl
  | succ k ih =>
    obtain ⟨n, hn, ok⟩ := h.link p hp
    have hleaf := ok.leaf_eq_false (by omega)
    have hcells : 1 ≤ n.cells.length := by
      by_cases hroot : p = root
      · subst hroot
        exact hs.root_nonempty n hn hleaf
      · have := hs.lower p hp hroot n hn
        omega
    have harity := hs.arity p hp n hn hleaf
    have hkids : ∀ x ∈ n.children.map (List.length ∘ reached nodes k), 2 ^ (k + 1) - 1 ≤ x := by
      intro x hx
      obtain ⟨q, hq, rfl⟩ := List.mem_map.mp hx
      obtain ⟨hm, hh, -⟩ := ok.kids q hq
      exact Nat.sub_le_of_le_add (ih hm (by omega))
    have hsum := List.card_nsmul_le_sum _ _ hkids
    rw [List.length_map, harity] at hsum
    change (n.cells.length + 1) * (2 ^ (k + 1) - 1) ≤ _ at hsum
    have htwo : 2 * (2 ^ (k + 1) - 1) ≤ (n.cells.length + 1) * (2 ^ (k + 1) - 1) := Nat.mul_le_mul_right _ (by omega)
    rw [reached_succ hn, List.length_cons, List.length_flatMap, Nat.pow_succ']
    have hpos := Nat.one_le_two_pow (n := k + 1)
    change _ ≤ (n.children.map (List.length ∘ reached nodes k)).sum + 1 + 1
    omega

theorem Linked.two_pow_le_card (h : Linked deg nodes root L) (hs : Sized u nodes root L ovf) (hu : 2 ≤ u) :
    2 ^ (L.height root + 1) ≤ L.pages.card + 1 := by
  have hsub : (reached nodes (L.height root) root).toFinset ⊆ L.pages := fun q hq =>
    (h.mem_reached_iff q).mp (List.mem_toFinset.mp hq)
  have hcard := Finset.card_le_card hsub
  rw [List.toFinset_card_of_nodup (h.reached_nodup h.root_mem rfl)] at hcard
  exact (h.two_pow_le_reached hs hu h.root_mem rfl).trans (Nat.succ_le_succ hcard)

theorem Linked.exists_full (h : Linked deg nodes root L) (hdeg : effectiveDegree deg = u) (hu : 2 ≤ u) (k : ℕ) {id : ℕ}
    (hid : id ∈ L.pages) : ∃ S ⊆ L.pages, (∀ p ∈ S, 2 * (u - 1) ≤ numCells nodes p ∧ L.height id ≤ L.height p) ∧
      splitsNeeded nodes k id = (S.card + if root ∈ S then 1 else 0 : ℕ) := by
  induction k generalizing id with
  | zero => exact ⟨∅, Finset.empty_subset _, nofun, rfl⟩
  | succ k ih =>
    obtain ⟨n, hn, ok⟩ := h.link id hid
    have hmax := maxKeys_eq n
    rw [ok.degree, hdeg] at hmax
    rw [splitsNeeded, hn, Option.elim_some, hmax]
    by_cases hroom : n.cells.length + 1 < 2 * u - 1
    · rw [if_pos hroom]
      exact ⟨∅, Finset.empty_subset _, nofun, rfl⟩
    have hfull : 2 * (u - 1) ≤ numCells nodes id := by
      rw [numCells_of_eq hn]
      omega
    rw [if_neg hroom]
    by_cases hroot : n.root = true
    · obtain rfl := ok.root_iff.mp hroot
      refine ⟨{id}, Finset.singleton_subset_iff.mpr hid, fun p hp => ?_, ?_⟩
      · rw [Finset.mem_singleton.mp hp]
        exact ⟨hfull, le_rfl⟩
      · rw [if_pos hroot, if_pos (Finset.mem_singleton_self id), Finset.card_singleton, rootSplitNeeds, hmax,
          if_pos (by omega)]
        rfl
    -- the page above is split next, and the heights tell the pages apart
    · have hne : id ≠ root := mt ok.root_iff.mpr hroot
      obtain ⟨-, -, -, hh⟩ := h.attached hid hne hn
      obtain ⟨S, hS, hSfull, hneeds⟩ := ih (ok.listed hne).1
      have hnot : id ∉ S := by
        intro hmem
        have := (hSfull id hmem).2
        omega
      refine ⟨Insert.insert id S, Finset.insert_subset hid hS, fun p hp => ?_, ?_⟩
      · rcases Finset.mem_insert.mp hp with rfl | hp
        · exact ⟨hfull, le_rfl⟩
        · exact ⟨(hSfull p hp).1, by have := (hSfull p hp).2; omega⟩
      · have hmem : root ∈ Insert.insert id S ↔ root ∈ S :=
          Finset.mem_insert.trans (or_iff_right fun heq => hne heq.symm)
        rw [if_neg hroot, hneeds, Finset.card_insert_of_notMem hnot, if_congr hmem rfl rfl, Nat.add_right_comm]
        exact (Nat.cast_succ _).symm

/-- The pages of a tree and those that an insertion would create, but for one, have `u - 1` keys each. -/
theorem Linked.exists_splits (h : Linked deg nodes root L) (ho : Occupied u nodes root L ovf)
    (hdeg : effectiveDegree deg = u) (hu : 2 ≤ u) (k : ℕ) {id : ℕ} (hid : id ∈ L.pages) : ∃ j : ℕ,
      splitsNeeded nodes k id = j ∧
        (L.pages.card - 1 + j) * (u - 1) ≤ (inorder nodes (L.height root) root).length := by
  obtain ⟨S, hS, hSfull, hneeds⟩ := h.exists_full hdeg hu k hid
  refine ⟨_, hneeds, ?_⟩
  have hcells : ∀ p ∈ L.pages, ((if p = root then 0 else 1) + (if p ∈ S then 1 else 0) +
      if p = root then if root ∈ S then 1 else 0 else 0) * (u - 1) ≤ numCells nodes p := by
    intro p hp
    obtain ⟨n, hn, -⟩ := h.link p hp
    by_cases hpS : p ∈ S
    · have hfull := (hSfull p hpS).1
      by_cases hpr : p = root
      · subst hpr
        simpa [hpS] using hfull
      · simpa [hpS, hpr] using hfull
    · by_cases hpr : p = root
      · subst hpr
        simp [hpS]
      · have hlow := ho.lower p hp hpr n hn
        rw [← numCells_of_eq hn] at hlow
        simpa [hpS, hpr] using hlow
  have hroots : ∑ p ∈ L.pages, (if p = root then 0 else 1) = L.pages.card - 1 := by
    rw [← Finset.card_erase_of_mem h.root_mem, ← Finset.filter_ne', Finset.card_filter]
    exact Finset.sum_congr rfl fun p _ => by by_cases hp : p = root <;> simp [hp]
  have hsplits : ∑ p ∈ L.pages, (if p ∈ S then 1 else 0) = S.card := by
    rw [← Finset.card_filter, Finset.filter_mem_eq_inter, Finset.inter_eq_right.mpr hS]
  have htop : ∑ p ∈ L.pages, (if p = root then if root ∈ S then 1 else 0 else 0) = if root ∈ S then 1 else 0 := by
    rw [Finset.sum_ite_eq', if_pos h.root_mem]
  calc (L.pages.card - 1 + (S.card + if root ∈ S then 1 else 0)) * (u - 1)
      = (∑ p ∈ L.pages, ((if p = root then 0 else 1) + (if p ∈ S then 1 else 0) +
        if p = root then if root ∈ S then 1 else 0 else 0)) * (u - 1) := by
          rw [Finset.sum_add_distrib, Finset.sum_add_distrib, hroots, hsplits, htop, Nat.add_assoc]
    _ ≤ ∑ p ∈ L.pages, numCells nodes p := by
      rw [Finset.sum_mul]
      exact Finset.sum_le_sum hcells
    _ = (inorder nodes (L.height root) root).length := (h.length_inorder_root ho).symm

theorem Linked.exists_insertNeeds (h : Linked deg nodes root L) (ho : Occupied u nodes root L ovf)
    (hdeg : effectiveDegree deg = u) (hu : 2 ≤ u) (key : Vari) (k : ℕ) : ∃ j : ℕ,
      insertNeeds nodes root key k = j ∧
        (L.pages.card - 1 + j) * (u - 1) ≤ (inorder nodes (L.height root) root).length := by
  rw [insertNeeds]
  cases hleaf : leafOf nodes key k root with
  | none => exact h.exists_splits ho hdeg hu 0 h.root_mem
  | some id => exact h.exists_splits ho hdeg hu k (leafOf_mem h h.root_mem hleaf).1

end Kndb.Btree
