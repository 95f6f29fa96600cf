import Kndb.Btree.Height

namespace Kndb.Btree

open Imp Imp.Prog

variable {σ T : Type}

section Count

variable {nodes : ℕ → Option (BtreeNodePage T)} {root : ℕ} {deg u : ℕ} {L : Layout} {ovf : Option ℕ}

theorem Linked.eq_of_leavesAt (h : Linked deg nodes root L) (ho : Occupied u nodes root L ovf)
    {d p : ℕ} (hp : p ∈ L.pages) (hd : LeavesAt nodes d p) : d = L.height p := by
  induction d generalizing p with
  | zero =>
    obtain ⟨n, hn, hl⟩ := hd
    exact ((h.link_of hp hn).leaf_iff.mp hl).symm
  | succ d ih =>
    obtain ⟨n, hn, hl, hkids⟩ := hd
    have harity := ho.arity p hp n hn hl
    obtain ⟨q, hq⟩ := List.exists_mem_of_ne_nil n.children (List.ne_nil_of_length_pos (by omega))
    obtain ⟨hm, hh, -⟩ := (h.link_of hp hn).kids q hq
    have := ih hm (hkids q hq)
    omega

theorem mapAfter_inserts (v : T) (keys : List Vari) (m : Rank → Option T) (r : Rank) :
    (mapAfter (keys.map (TreeOp.insert v)) m r).isSome ↔ (m r).isSome ∨ r ∈ keys.map Vari.rank := by
  induction keys generalizing m with
  | nil => simp [mapAfter]
  | cons k keys ih =>
    rw [List.map_cons, mapAfter, ih, List.map_cons, List.mem_cons, ← or_assoc]
    apply or_congr_left
    by_cases hk : (m k.rank).isSome
    · simp only [TreeOp.onMap, hk, if_true]
      constructor
      · exact .inl
      · rintro (hm | rfl)
        · exact hm
        · exact hk
    · simp only [TreeOp.onMap, hk, Bool.false_eq_true, if_false]
      by_cases hr : r = k.rank
      · simp [hr]
      · simp [hr]

theorem Tree.length_inorder (h : Tree deg nodes root L) {m : Rank → Option T} (hm : Represents nodes L m)
    {ranks : List Rank} (hnodup : ranks.Nodup) (hranks : ∀ r, (m r).isSome ↔ r ∈ ranks) :
    (inorder nodes (L.height root) root).length = ranks.length := by
  set cells := inorder nodes (L.height root) root
  have hsorted : (cells.map fun c => c.key.rank).Pairwise (· < ·) := List.pairwise_map.mpr h.inorder_sorted
  have hmem : ∀ r, r ∈ cells.map (fun c => c.key.rank) ↔ r ∈ ranks := by
    intro r
    rw [← hranks, List.mem_map, Option.isSome_iff_exists]
    constructor
    · rintro ⟨c, hc, hr⟩
      exact ⟨c.value, (hm r _).mpr ⟨c, (h.mem_inorder_root c).mp hc, hr, rfl⟩⟩
    · rintro ⟨v, hv⟩
      obtain ⟨c, hc, hr, -⟩ := (hm r v).mp hv
      exact ⟨c, (h.mem_inorder_root c).mpr hc, hr⟩
  have hperm := (List.perm_ext_iff_of_nodup (hsorted.imp ne_of_lt) hnodup).mpr hmem
  simpa using hperm.length_eq

def intKeys (n : ℕ) : List Vari := (List.range n).map fun i => .int (BitVec.ofNat 32 i)

theorem intKeys_nodup {n : ℕ} (hn : n ≤ 2 ^ 32) : ((intKeys n).map Vari.rank).Nodup := by
  rw [intKeys, List.map_map]
  refine List.Nodup.map_on ?_ List.nodup_range
  intro i hi j hj hij
  rw [List.mem_range] at hi hj
  have hv : (BitVec.ofNat 32 i).toInt = (BitVec.ofNat 32 j).toInt := by
    simpa [Vari.rank] using hij
  have := congrArg BitVec.toNat (BitVec.toInt_inj.mp hv)
  rw [BitVec.toNat_ofNat, BitVec.toNat_ofNat] at this
  omega

end Count

section Reached

variable {P : LawfulPager σ T} {t : ℕ} {st₀ st : BtreeState σ} {ops : List (TreeOp T)} {rs : List (Reply T)}

theorem Reaches.levelBounds (h : Reaches P t st₀ ops rs st) (ht : 2 ≤ t) (ht' : t ≤ 2 ^ 15) :
    ∃ l, LevelBounds P t st l := by
  have hdeg : effectiveDegree t = t := effectiveDegree_of_le (by omega) ht'
  obtain ⟨ok, -, L, hpost⟩ := h.runPost (o := False) (hdeg.symm ▸ ht) False.elim
  rw [hdeg] at hpost
  exact ⟨_, hpost.balanced.levelBounds hdeg ht rfl ok⟩

theorem exists_reaches_early {u : ℕ} (hdeg : effectiveDegree t = u) (hu : 2 ≤ u) (hut : u < t) :
    ∃ ops rs st, Reaches memoryPager t (emptyMemory ℕ t none) ops rs st ∧
      ∀ l, ¬LevelBounds memoryPager t st l := by
  have hempty := emptyTree_emptyMemory (T := ℕ) t none
  set keys := intKeys (2 * u - 1)
  set ops := keys.map (TreeOp.insert 0)
  have hkeys : ∀ op ∈ ops, op.key.isNaN = false := by
    intro op hop
    obtain ⟨k, hk, rfl⟩ := List.mem_map.mp hop
    obtain ⟨i, -, rfl⟩ := List.mem_map.mp hk
    rfl
  obtain ⟨ok, par, hn⟩ := hempty
  have hruns := Runs.start ok (runs_runOps (A := fun _ => False) hdeg hu
    (fun _ : True => hkeys) (balanced_single rfl hn) (le_refl _))
  obtain ⟨rs, st, hrun, -, -, L, hpost⟩ := ok_of_wp (wp_mono hruns (fun _ _ hq => hq)
    (fun _ _ hr => hr.2.2 rfl) fun _ hA => hA)
  refine ⟨ops, rs, st, ⟨⟨ok, par, hn⟩, _, hrun⟩, fun l hl => ?_⟩
  have hb := hpost.balanced
  have htree := hb.tree trivial
  have hmap := (hpost.map trivial _ (represents_single hn)).2
  have hle := effectiveDegree_le t
  have hlen := htree.length_inorder hmap (intKeys_nodup (by omega : 2 * u - 1 ≤ 2 ^ 32))
    fun r => (mapAfter_inserts 0 keys _ r).trans (by simp [keys])
  rw [List.length_map, intKeys, List.length_map, List.length_range] at hlen
  obtain rfl : l = L.height st.rootPageID := hb.linked.eq_of_leavesAt hb.sized.toOccupied
    hb.linked.root_mem hl.leaves
  have hge := hl.keys
  change (inorder (memoryPager.view st.pager) (L.height st.rootPageID) st.rootPageID).length = _ at hlen
  rw [hlen] at hge
  rcases hk : L.height st.rootPageID with _ | k
  · -- a single leaf has no room for so many keys
    obtain ⟨n, hroot, -⟩ := hb.linked.link _ hb.linked.root_mem
    have hup := hb.sized.upper _ hb.linked.root_mem n hroot
    change memoryPager.view st.pager st.rootPageID = some n at hroot
    rw [hk, inorder_zero _ hroot] at hlen
    rw [if_neg (by simp)] at hup
    omega
  · have hpow : t ≤ t ^ (k + 1) := Nat.le_self_pow (by omega) t
    rw [hk] at hge
    omega

def firstInsertion : Outcome Exn (BtreeState (Memory ℕ × Calls)) Bool :=
  insert memoryPager.toPagerOps.counted 32769 9 10 (.int 1)
    (counting (emptyMemory ℕ 32769 (some 3)) ⟨0, 0⟩)

/-- At degree 32769 an insertion creates pages until there are none left. -/
theorem not_levelBounds_degreeOne (l : ℕ) : ¬LevelBounds memoryPager 32769 (emptyMemory ℕ 32769 (some 3)) l := by
  intro h
  obtain rfl : l = 0 := by
    rcases l with _ | l
    · rfl
    · obtain ⟨n, hn, hl, -⟩ := h.leaves
      obtain rfl : _ = n := Option.some.inj hn
      cases hl
  have hthree : (match firstInsertion with | .throw _ st' => st'.pager.2.createNewPage | _ => 0) = 3 := by
    decide +kernel
  rcases hout : firstInsertion with _ | ⟨e, st'⟩ | _ | _
  · simp [hout] at hthree
  · have hle := h.throws _ _ _ _ _ _ hout
    rw [hout] at hthree
    change st'.pager.2.createNewPage = 3 at hthree
    change _ ≤ 0 + (0 + 2) at hle
    omega
  · simp [hout] at hthree
  · simp [hout] at hthree

end Reached

/-- Every tree of degree `t` that operations which all return lead to keeps to the bounds of its levels if and only if
`2 * t - 1` is a `degree_t`.  What an insertion that throws leaves behind is not among these trees. -/
theorem levelBounds_iff {t : ℕ} (ht : 2 ≤ t) (ht' : t < 2 ^ 16) :
    (∀ (σ T : Type) (P : LawfulPager σ T) (st₀ st : BtreeState σ) ops rs, Reaches P t st₀ ops rs st →
      ∃ l, LevelBounds P t st l) ↔ t ≤ 2 ^ 15 := by
  constructor
  · intro hall
    by_contra hgt
    rcases effectiveDegree_cases ht ht' with ⟨hne, hu⟩ | ⟨rfl, -⟩
    · have hut : effectiveDegree t < t := by
        have := effectiveDegree_le t
        omega
      obtain ⟨ops, rs, st, hreach, hno⟩ := exists_reaches_early rfl hu hut
      obtain ⟨l, hl⟩ := hall _ _ _ _ _ _ _ hreach
      exact hno l hl
    · have hreach : Reaches memoryPager 32769 (emptyMemory ℕ 32769 (some 3)) [] []
          (emptyMemory ℕ 32769 (some 3)) := ⟨emptyTree_emptyMemory _ _, 0, rfl⟩
      obtain ⟨l, hl⟩ := hall _ _ _ _ _ _ _ hreach
      exact not_levelBounds_degreeOne l hl
  · exact fun hle σ T P st₀ st ops rs h => h.levelBounds ht hle

theorem levelBounds_iff_two :
    (∀ (σ T : Type) (P : LawfulPager σ T) (st₀ st : BtreeState σ) ops rs, Reaches P 2 st₀ ops rs st →
      ∃ l, LevelBounds P 2 st l) ↔ 2 ≤ 2 ^ 15 := levelBounds_iff (by decide) (by decide)

/-- Three keys on two levels at degree 32770. -/
theorem levelBounds_counterexample :
    runOps memoryPager.toPagerOps 32770 5 [.insert 10 (.int 1), .insert 20 (.int 2), .insert 30 (.int 3)]
        (emptyMemory ℕ 32770 none) = .ok [.changed true, .changed true, .changed true] earlySplit ∧
      LeavesAt (memoryPager.view earlySplit.pager) 1 1 ∧
      (inorder (memoryPager.view earlySplit.pager) 1 1).length = 3 ∧ 3 < 2 * 32770 ^ 1 - 1 := by
  refine ⟨by decide +kernel, ⟨_, rfl, rfl, fun q hq => ?_⟩, by decide, by decide⟩
  rcases List.mem_pair.mp hq with rfl | rfl
  · exact ⟨_, rfl, rfl⟩
  · exact ⟨_, rfl, rfl⟩

end Kndb.Btree
