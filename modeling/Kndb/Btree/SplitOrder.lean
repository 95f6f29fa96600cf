import Kndb.Btree.Grow

namespace Kndb.Btree

open Ascending

variable {T : Type} {deg : ℕ} {nodes : ℕ → Option (BtreeNodePage T)} {root : ℕ} {L : Layout}
variable {c : Cut T} {k q : ℕ} {n : BtreeNodePage T}

namespace SplitAt

theorem inorder_halves (h : SplitAt deg nodes root L c) (ha : Arity nodes L) (hk : L.height c.id = k + 1)
    (ih : ∀ r ∈ c.n.children, inorder (splitNodes nodes c) k r = inorder nodes k r) :
    inorder (splitNodes nodes c) (k + 1) c.id ++ c.m :: inorder (splitNodes nodes c) (k + 1) c.new =
      inorder nodes (k + 1) c.id := by
  have hleaf : c.n.leaf = false := h.linkn.leaf_eq_false (by omega)
  have hlen := ha _ h.mem c.n h.node hleaf
  rw [h.cells, List.length_append] at hlen
  have hsame : ∀ l : List ℕ, l.Sublist c.n.children →
      l.map (inorder (splitNodes nodes c) k) = l.map (inorder nodes k) :=
    fun l hl => List.map_congr_left fun r hr => ih r (hl.mem hr)
  rw [inorder_succ k _ SplitAt.at_id, inorder_succ k _ h.at_new, inorder_succ k _ h.node, h.cells,
    weave_append_cons _ _ _ _ (by rw [List.length_map]; omega), ← List.map_take, ← List.map_drop]
  simp only [Cut.leftNode, Cut.rightNode]
  rw [hsame _ (List.take_sublist ..), hsame _ (List.drop_sublist ..)]

theorem inorder_split (h : SplitAt deg nodes root L c) (ha : Arity nodes L) (hAC : c.A.length = c.C.length)
    (hq : q ∈ L.pages) (hk : L.height q = k) (hid : q ≠ c.id) :
    inorder (splitNodes nodes c) k q = inorder nodes k q := by
  induction k using Nat.strong_induction_on generalizing q with
  | h k ih =>
  obtain ⟨n, hn, ok⟩ := h.linked.link q hq
  by_cases hpid : q = c.n.parentID
  · subst hpid
    obtain rfl : c.p = n := Option.some.inj (h.parent.symm.trans hn)
    have hh := h.height_pid
    obtain ⟨k, rfl⟩ : ∃ j, k = j + 1 := ⟨k - 1, by omega⟩
    obtain ⟨hA, hB⟩ := h.siblings_ne
    have hkid : ∀ r ∈ c.p.children, r ≠ c.id → inorder (splitNodes nodes c) k r = inorder nodes k r := by
      intro r hr hrid
      obtain ⟨hm, hhr, -⟩ := ok.kids r hr
      exact ih k (Nat.lt_succ_self k) hm (by omega) hrid
    have hkidA : c.A.map (inorder (splitNodes nodes c) k) = c.A.map (inorder nodes k) :=
      List.map_congr_left fun r hr => hkid r (by simp [h.p_children, hr]) fun he => hA (he ▸ hr)
    have hkidB : c.B.map (inorder (splitNodes nodes c) k) = c.B.map (inorder nodes k) :=
      List.map_congr_left fun r hr => hkid r (by simp [h.p_children, hr]) fun he => hB (he ▸ hr)
    have hhalves : inorder (splitNodes nodes c) k c.id ++ c.m :: inorder (splitNodes nodes c) k c.new =
        inorder nodes k c.id := by
      rcases hk' : k with _ | j
      · rw [inorder_zero _ SplitAt.at_id, inorder_zero _ h.at_new, inorder_zero _ h.node, h.cells]
        rfl
      · refine h.inorder_halves ha (by omega) fun r hr => ?_
        obtain ⟨hm, hhr, hrid, -⟩ := h.child hr
        exact ih j (by omega) hm (by omega) hrid
    rw [inorder_succ k _ h.at_pid, inorder_succ k _ h.parent, h.p_children, h.p_cells]
    simp only [Cut.parentNode, List.map_append, List.map_cons]
    rw [hkidA, hkidB, weave_insert _ _ _ _ _ _ _ (by rw [List.length_map, hAC]), hhalves]
  · obtain ⟨n', hn', hcells, hchildren⟩ : ∃ n', splitNodes nodes c q = some n' ∧ n'.cells = n.cells ∧
        n'.children = n.children := by
      refine ⟨_, h.at_rest hq hid hpid hn, ?_⟩
      split_ifs <;> exact ⟨rfl, rfl⟩
    rcases k with _ | k
    · rw [inorder_zero q hn', inorder_zero q hn, hcells]
    · rw [inorder_succ k q hn', inorder_succ k q hn, hcells, hchildren]
      congr 1
      apply List.map_congr_left
      intro r hr
      obtain ⟨hm, hrid, -⟩ := h.other_child ok hid hpid hr
      exact ih k (Nat.lt_succ_self k) hm (by have := (ok.kids r hr).2.1; omega) hrid

end SplitAt

theorem Linked.inorder_grow {r : ℕ} (h : Linked deg nodes root L) (hn : nodes root = some n) (hr : nodes r = none)
    (hq : q ∈ L.pages) (hk : L.height q = k) :
    inorder (growNodes nodes deg root r n) k q = inorder nodes k q := by
  induction k generalizing q with
  | zero =>
    obtain ⟨m, hm, -⟩ := h.link q hq
    by_cases hqr : q = root
    · subst hqr
      rw [inorder_zero q growNodes_root, inorder_zero q hn]
      rfl
    · rw [inorder_zero q ((growNodes_other hqr (h.ne_fresh hr hq)).trans hm), inorder_zero q hm]
  | succ k ih =>
    obtain ⟨m, hm, ok⟩ := h.link q hq
    have hkids : m.children.map (inorder (growNodes nodes deg root r n) k) = m.children.map (inorder nodes k) :=
      List.map_congr_left fun s hs => ih (ok.kids s hs).1 (by have := (ok.kids s hs).2.1; omega)
    by_cases hqr : q = root
    · subst hqr
      obtain rfl : n = m := Option.some.inj (hn.symm.trans hm)
      rw [inorder_succ k q growNodes_root, inorder_succ k q hn, ← hkids]
      rfl
    · rw [inorder_succ k q ((growNodes_other hqr (h.ne_fresh hr hq)).trans hm), inorder_succ k q hm, hkids]

theorem Linked.inorder_newRoot {r : ℕ} (h : Linked deg nodes root L) (hn : nodes root = some n)
    (hr : nodes r = none) : inorder (growNodes nodes deg root r n) (L.height root + 1) r =
      inorder nodes (L.height root) root := by
  rw [inorder_succ _ r (growNodes_new (h.ne_fresh hr h.root_mem)), ← h.inorder_grow hn hr h.root_mem rfl]
  rfl

end Kndb.Btree
