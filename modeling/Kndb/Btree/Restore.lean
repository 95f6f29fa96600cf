import Kndb.Btree.DegreeOne
import Kndb.Btree.Fuel
import Kndb.Btree.Overfull
import Kndb.Btree.SplitOrder

namespace Kndb.Btree

open Imp Imp.Prog

variable {σ T : Type} {P : LawfulPager σ T} {s₀ : σ} {h h' : Heap T} {L L' : Layout} {t k id : ℕ}

/-- If page `p` holds `j` cells more, all pages that are cut on the way to the root have cells enough for two
halves of minimum size. -/
def CutsEven (t : ℕ) (nodes : ℕ → Option (BtreeNodePage T)) : ℕ → ℕ → ℕ → Prop
  | 0, _, _ => True
  | fuel + 1, j, p => (nodes p).elim True fun n =>
    n.cells.length + j < n.maxKeys ∨
      2 * t - 1 ≤ n.cells.length + j ∧ (n.root = false → CutsEven t nodes fuel 1 n.parentID)

section CutsEven

variable {nodes nodes' : ℕ → Option (BtreeNodePage T)} {root : ℕ} {n : BtreeNodePage T}

theorem cutsEven_succ (hn : nodes id = some n) (j : ℕ) : CutsEven t nodes (k + 1) j id ↔
    n.cells.length + j < n.maxKeys ∨
      2 * t - 1 ≤ n.cells.length + j ∧ (n.root = false → CutsEven t nodes k 1 n.parentID) := by
  rw [CutsEven, hn, Option.elim_some]

theorem Linked.cutsEven_congr (hl : Linked t nodes root L) (k j : ℕ) (hid : id ∈ L.pages)
    (heq : ∀ q ∈ L.pages, L.height id ≤ L.height q → nodes' q = nodes q) :
    CutsEven t nodes' k j id ↔ CutsEven t nodes k j id := by
  induction k generalizing id j with
  | zero => exact Iff.rfl
  | succ k ih =>
    obtain ⟨n, hn, hok⟩ := hl.link id hid
    rw [cutsEven_succ hn, cutsEven_succ ((heq id hid le_rfl).trans hn)]
    refine or_congr_right (and_congr_right fun _ => imp_congr_right fun hr => ?_)
    have hne : id ≠ root := fun he => Bool.false_ne_true (hr.symm.trans (hok.root_iff.mpr he))
    obtain ⟨-, -, -, hh⟩ := hl.attached hid hne hn
    exact ih 1 (hok.listed hne).1 fun q hq hle => heq q hq (by omega)

theorem SplitAt.cutsEven {c : Cut T} (hs : SplitAt t nodes root L c) (k : ℕ) :
    CutsEven t (splitNodes nodes c) (k + 1) 0 c.n.parentID ↔ CutsEven t nodes (k + 1) 1 c.n.parentID := by
  have hlen : c.parentNode.cells.length = c.p.cells.length + 1 := by
    simp only [Cut.parentNode, hs.p_cells, List.length_append, List.length_cons]
    omega
  rw [cutsEven_succ hs.at_pid, cutsEven_succ hs.parent, hlen]
  refine or_congr_right (and_congr_right fun _ => imp_congr_right fun hr => ?_)
  have hne : c.n.parentID ≠ root := fun he => Bool.false_ne_true (hr.symm.trans (hs.linkp.root_iff.mpr he))
  exact hs.linked.cutsEven_congr k 1 (hs.linkp.listed hne).1 fun q hq hle => hs.above hne hq hle

end CutsEven

/-- The cascade that started at page `id` of the tree `L` in `h` ended with the tree `L'` in `h'`. -/
structure Rebuilt (t k id : ℕ) (h : Heap T) (L : Layout) (h' : Heap T) (L' : Layout) : Prop where
  linked : Linked t h'.nodes h'.root L'
  arity : Arity h'.nodes L'
  inorder : inorder h'.nodes (L'.height h'.root) h'.root = inorder h.nodes (L.height h.root) h.root
  below : ∀ q ∈ L.pages, L.height q < L.height id → ∀ n, h.nodes q = some n →
    q ∈ L'.pages ∧ q ≠ h'.root ∧ ∃ n', h'.nodes q = some n' ∧ n'.cells = n.cells
  occupied : Occupied t h.nodes h.root L (some id) → CutsEven t h.nodes (k + 1) 0 id →
    Occupied t h'.nodes h'.root L' none
  even : Occupied t h'.nodes h'.root L' none → CutsEven t h.nodes (k + 1) 0 id

theorem maxKeys_le (ht : 1 ≤ t) {n : BtreeNodePage T} (hdeg : n.degree = t) : n.maxKeys ≤ 2 * t - 1 := by
  simp only [BtreeNodePage.maxKeys, hdeg]
  omega

theorem Linked.rebuilt_of_lt {n : BtreeNodePage T} (ht : 1 ≤ t) (hl : Linked t h.nodes h.root L)
    (ha : Arity h.nodes L) (hid : id ∈ L.pages) (hn : h.nodes id = some n) (hlt : n.cells.length < n.maxKeys) :
    Rebuilt t k id h L h L where
  linked := hl
  arity := ha
  inorder := rfl
  below q hq hlow m hm := by
    refine ⟨hq, ?_, m, hm, rfl⟩
    rintro rfl
    exact absurd (hl.top id hid) (by omega)
  occupied ho _ := ho.drop_over fun m hm => by
    obtain rfl := Option.some.inj (hn.symm.trans hm)
    have := maxKeys_le ht (hl.link_of hid hn).degree
    omega
  even _ := (cutsEven_succ hn 0).mpr (.inl hlt)

theorem Rebuilt.of_split {c : Cut T} {a : ℕ∞} (ht : 1 ≤ t) (hs : HalvedAt t h.nodes h.root L c)
    (ha : Arity h.nodes L) (hfull : ¬c.n.cells.length < c.n.maxKeys)
    (hr : Rebuilt t k c.n.parentID { h with nodes := splitNodes h.nodes c, avail := a } (L.split c) h' L') :
    Rebuilt t (k + 1) c.id h L h' L' where
  linked := hr.linked
  arity := hr.arity
  inorder := by
    refine hr.inorder.trans ?_
    change Btree.inorder (splitNodes h.nodes c) ((L.split c).height h.root) h.root = _
    rw [hs.split_height hs.linked.root_mem]
    exact hs.inorder_split ha hs.place hs.linked.root_mem rfl hs.ne_root.symm
  below q hq hlow n hn := by
    have hp := hs.height_pid
    have hrest := hs.at_rest hq (by rintro rfl; omega) (by rintro rfl; omega) hn
    obtain ⟨hq', hqr, n', hn', hcells⟩ := hr.below q (SplitAt.mem_split hq)
      (by rw [hs.split_height hq, hs.split_height hs.pid_mem]; omega) _ hrest
    refine ⟨hq', hqr, n', hn', hcells.trans ?_⟩
    split_ifs <;> rfl
  occupied ho he := by
    -- the halves are of the right size if the node had one cell too many
    have hX := hs.left
    have hXY := hs.length_eq
    have hup := ho.upper c.id hs.mem c.n hs.node
    rw [if_pos rfl] at hup
    obtain ⟨hlen, he⟩ := ((cutsEven_succ hs.node 0).mp he).resolve_left hfull
    have hroot : c.n.root = false := by
      rw [← Bool.not_eq_true, hs.linkn.root_iff]
      exact hs.ne_root
    have ho' := hs.occupied_split ho (by omega) (by omega) (by omega) hs.place
    exact hr.occupied ho' ((hs.cutsEven k).mpr (he hroot))
  even ho := by
    refine (cutsEven_succ hs.node 0).mpr (.inr ⟨?_, fun _ => (hs.cutsEven k).mp (hr.even ho)⟩)
    obtain ⟨hnew, hne, n', hn', hcells⟩ := hr.below c.new (Finset.mem_insert_self ..)
      (by rw [hs.split_height hs.pid_mem, ← hs.height_pid]; simp [Layout.split]) _ hs.at_new
    have hlow := ho.lower c.new hnew hne n' hn'
    rw [hcells, show c.rightNode.cells = c.Y from rfl] at hlow
    have hX := hs.left
    have hXY := hs.length_eq
    omega

theorem Rebuilt.of_grow {n : BtreeNodePage T} {r : ℕ} {a : ℕ∞} (hl : Linked t h.nodes h.root L)
    (hn : h.nodes h.root = some n) (hfr : h.nodes r = none) (hfull : ¬n.cells.length < n.maxKeys)
    (hmax : 1 < n.maxKeys)
    (hr : Rebuilt t 1 h.root { nodes := growNodes h.nodes t h.root r n, root := r, avail := a }
      (L.grow h.root r) h' L') : Rebuilt t k h.root h L h' L' where
  linked := hr.linked
  arity := hr.arity
  inorder := by
    refine hr.inorder.trans ?_
    rw [← hl.inorder_newRoot hn hfr]
    simp [Layout.grow]
  below q hq hlow m hm := by
    have hqr : q ≠ h.root := by
      rintro rfl
      omega
    refine hr.below q (Layout.mem_grow hq) ?_ m ?_
    · rwa [hl.grow_height hfr hq, hl.grow_height hfr hl.root_mem]
    · exact (growNodes_other hqr (hl.ne_fresh hfr hq)).trans hm
  occupied ho he := by
    -- the new root has no cell, so that the cascade ends there
    have hlen := (((cutsEven_succ hn 0).mp he).resolve_left hfull).1
    refine hr.occupied (hl.occupied_grow hn hfr ho (by omega)) ?_
    refine (cutsEven_succ growNodes_root 0).mpr (.inr ⟨hlen, fun _ => ?_⟩)
    refine (cutsEven_succ (growNodes_new (hl.ne_fresh hfr hl.root_mem)) 1).mpr (.inl ?_)
    rw [maxKeys_eq, (hl.link_of hl.root_mem hn).degree] at hmax
    rwa [maxKeys_eq]
  even ho := by
    have hroot : n.root = true := (hl.link_of hl.root_mem hn).root_iff.mpr rfl
    have hlen := (((cutsEven_succ growNodes_root 0).mp (hr.even ho)).resolve_left hfull).1
    exact (cutsEven_succ hn 0).mpr (.inr ⟨hlen, fun hf => absurd (hf.symm.trans hroot) Bool.false_ne_true⟩)

/-- The cascade comes to an end, and the pages suffice for it. -/
def Rebuilds (t k id : ℕ) (h : Heap T) (L : Layout) (h' : Heap T) : Prop :=
  t ≠ 32769 ∧ splitsPending h.nodes k id ≤ h.avail ∧ ∃ L', Rebuilt t k id h L h' L'

theorem Linked.rebuilds_of_lt {n : BtreeNodePage T} (ht : 1 ≤ t) (hl : Linked t h.nodes h.root L)
    (ha : Arity h.nodes L) (hid : id ∈ L.pages) (hn : h.nodes id = some n) (hpos : n.cells ≠ [])
    (hlt : n.cells.length < n.maxKeys) : Rebuilds t k id h L h := by
  refine ⟨?_, by simp [splitsPending_of_lt hn hlt], L, hl.rebuilt_of_lt ht ha hid hn hlt⟩
  rintro rfl
  have hpos := List.length_pos_of_ne_nil hpos
  have hone : effectiveDegree 32769 = 1 := rfl
  rw [maxKeys_eq, (hl.link_of hid hn).degree, hone] at hlt
  omega

theorem Linked.fullRoot {n : BtreeNodePage T} (hl : Linked t h.nodes h.root L) (ha : Arity h.nodes L)
    (hn : h.nodes h.root = some n) (hpos : n.cells ≠ []) : FullRoot t h n where
  node := hn
  root := (hl.link_of hl.root_mem hn).root_iff.mpr rfl
  degree := (hl.link_of hl.root_mem hn).degree
  halvable := ha.halvable hl.root_mem hn hpos
  leaf_children := (hl.link_of hl.root_mem hn).leaf_children
  kids q hq := by
    obtain ⟨-, hh, m, hm, -⟩ := (hl.link_of hl.root_mem hn).kids q hq
    refine ⟨?_, m, hm⟩
    rintro rfl
    omega

theorem runs_rebuild_root (ht : 2 ≤ t) (ht' : t < 2 ^ 16) {fuel : ℕ} {n : BtreeNodePage T}
    (hl : Linked t h.nodes h.root L) (ha : Arity h.nodes L) (hn : h.nodes h.root = some n) (hpos : n.cells ≠ []) :
    Runs P s₀ (split P.toPagerOps t (fuel + 1 + 1) h.root) h (fun _ => Rebuilds t k h.root h L)
      (fun _ => h.avail < splitsPending h.nodes k h.root) (fun _ => t = 32769) := by
  have hok := hl.link_of hl.root_mem hn
  by_cases hlt : n.cells.length < n.maxKeys
  · exact runs_split_of_lt hn hlt (hl.rebuilds_of_lt (by omega) ha hl.root_mem hn hpos hlt)
  have hpend : splitsPending h.nodes k h.root = rootSplitNeeds n :=
    splitsPending_fullRoot hn hlt (hok.root_iff.mpr rfl)
  -- at the degree 32769 the number of keys wraps around and the cascade has no end
  rcases effectiveDegree_cases ht ht' with ⟨hne, hu⟩ | ⟨rfl, hu⟩
  · have hmax : 1 < n.maxKeys := by
      rw [maxKeys_eq, hok.degree]
      omega
    rw [rootSplitNeeds, if_pos hmax] at hpend
    refine runs_split_fullRoot hl ha hn hlt hmax ?_ ?_ ?_
    · intro r c a hr hcid hcn hcell hs hav
      set g : Heap T := { nodes := growNodes h.nodes t h.root r n, root := r, avail := a + 1 } with hg
      have hpid : c.n.parentID = r := congrArg BtreeNodePage.parentID hcn
      have htop : Rebuilt t 0 c.n.parentID { g with nodes := splitNodes g.nodes c, avail := a }
          ((L.grow h.root r).split c) { g with nodes := splitNodes g.nodes c, avail := a }
          ((L.grow h.root r).split c) := by
        refine hs.linked_split.rebuilt_of_lt (by omega) (hs.arity_split (hl.arity_grow hn hr ha) hs.place)
          (SplitAt.mem_split hs.pid_mem) hs.at_pid ?_
        rw [hcell, maxKeys_eq, (hs.linked_split.link_of (SplitAt.mem_split hs.pid_mem) hs.at_pid).degree,
          List.length_singleton]
        omega
      have hcut := Rebuilt.of_split (h := g) (by omega) hs (hl.arity_grow hn hr ha) (by rwa [hcn]) htop
      rw [hcid] at hcut
      refine ⟨hne, ?_, _, .of_grow hl hn hr hlt hmax hcut⟩
      rw [hpend, hav, add_assoc]
      exact le_add_self
    · intro hav
      rw [hpend, hav]
      simp
    · intro h' hav hr
      rw [hpend, hav]
      simp
  · have hmax : n.maxKeys = 1 := by rw [maxKeys_eq, hok.degree, hu]
    rw [rootSplitNeeds, if_neg (by omega)] at hpend
    refine runs_mono (runs_split_degreeOne hu h.root _ (hl.fullRoot ha hn hpos) (by simp [hn])) ?_ ?_ ?_
    · exact fun _ _ hf => hf.elim
    · rintro h' ⟨hne, -⟩
      rw [hpend]
      exact lt_top_iff_ne_top.mpr hne
    · exact fun _ _ => rfl

/-- However many pages above are full, the cascade ends after at most one call per level and one more. -/
theorem runs_rebuild (ht : 2 ≤ t) (ht' : t < 2 ^ 16) (d : ℕ) {fuel k id : ℕ} {n : BtreeNodePage T}
    (hl : Linked t h.nodes h.root L) (ha : Arity h.nodes L) (hid : id ∈ L.pages) (hn : h.nodes id = some n)
    (hpos : n.cells ≠ []) (hd : L.height id + d = L.height h.root) (hfuel : d + 2 ≤ fuel) (hk : d ≤ k) :
    Runs P s₀ (split P.toPagerOps t fuel id) h (fun _ => Rebuilds t k id h L)
      (fun _ => h.avail < splitsPending h.nodes k id) (fun _ => t = 32769) := by
  induction d generalizing h L fuel k id n with
  | zero =>
    obtain rfl : id = h.root := hl.eq_root hid (by omega)
    obtain ⟨fuel, rfl⟩ : ∃ f, fuel = f + 1 + 1 := ⟨fuel - 2, by omega⟩
    exact runs_rebuild_root ht ht' hl ha hn hpos
  | succ d ih =>
    obtain ⟨fuel, rfl⟩ : ∃ f, fuel = f + 1 := ⟨fuel - 1, by omega⟩
    obtain ⟨k, rfl⟩ : ∃ k', k = k' + 1 := ⟨k - 1, by omega⟩
    by_cases hlt : n.cells.length < n.maxKeys
    · exact runs_split_of_lt hn hlt (hl.rebuilds_of_lt (by omega) ha hid hn hpos hlt)
    have hne : id ≠ h.root := by
      rintro rfl
      omega
    obtain ⟨p, hp, hatt, hup⟩ := hl.attached hid hne hn
    have hpend : splitsPending h.nodes (k + 1) id = splitsNeeded h.nodes (k + 1) n.parentID + 1 :=
      splitsPending_fullNode hn hlt hatt.not_root
    refine runs_split_fullNode hl ha hid hne hn hlt ?_ ?_
    · rintro c a rfl rfl hs hav
      -- the pages that are full further up are the same after the cut
      have hneeded : splitsPending (splitNodes h.nodes c) k c.n.parentID =
          splitsNeeded h.nodes (k + 1) c.n.parentID := hs.splitsPending k
      have hdist : (L.split c).height c.n.parentID + d = (L.split c).height h.root := by
        rw [hs.split_height hs.pid_mem, hs.split_height hs.linked.root_mem]
        omega
      refine runs_mono (ih (k := k) hs.linked_split (hs.arity_split ha hs.place) (SplitAt.mem_split hs.pid_mem)
        hs.at_pid (by simp [Cut.parentNode]) hdist (by omega) (by omega)) ?_ ?_ fun _ hA => hA
      · rintro - h' ⟨h1, hle, L', hr⟩
        refine ⟨h1, ?_, L', hr.of_split (by omega) hs ha hlt⟩
        change _ ≤ a at hle
        rw [hpend, hav, ← hneeded]
        exact add_le_add_left hle 1
      · intro h' hlow
        change a < _ at hlow
        rw [hneeded] at hlow
        rw [hpend, hav]
        exact (ENat.add_lt_add_iff_right (by simp)).mpr hlow
    · intro hav _ _ _
      rw [hpend, hav]
      simp

section Restores

variable {st : BtreeState σ} {nodes : ℕ → Option (BtreeNodePage T)} {root d : ℕ}

/-- `split` returns, and leaves a B-tree with the same cells in the same order. -/
def Restores (P : LawfulPager σ T) (t : ℕ) (st : BtreeState σ) (d id : ℕ) : Prop :=
  ∃ fuel₀ st' d', (∀ fuel, fuel₀ ≤ fuel → split P.toPagerOps t fuel id st = .ok () st') ∧
    inorder (P.view st'.pager) d' st'.rootPageID = inorder (P.view st.pager) d st.rootPageID ∧
    ShapeBut t (P.view st'.pager) st'.rootPageID d' none

/-- A cell more in a new root is not too many, no page with too few cells is cut, and there are pages enough. -/
structure Splittable (P : LawfulPager σ T) (t : ℕ) (st : BtreeState σ) (d id : ℕ) : Prop where
  ends : t ≠ 32769
  even : CutsEven t (P.view st.pager) (d + 1) 0 id
  pages : splitsPending (P.view st.pager) d id ≤ P.avail st.pager

theorem Linked.height_of_leavesAt (hl : Linked t nodes root L) (ha : Arity nodes L) {p : ℕ} (hp : p ∈ L.pages)
    (hd : LeavesAt nodes d p) : L.height p = d := by
  induction d generalizing p with
  | zero =>
    obtain ⟨n, hn, hleaf⟩ := hd
    exact (hl.link_of hp hn).leaf_iff.mp hleaf
  | succ d ih =>
    obtain ⟨n, hn, hleaf, hkids⟩ := hd
    have harity := ha p hp n hn hleaf
    obtain ⟨c, cs, hcs⟩ := List.exists_cons_of_length_pos (l := n.children) (by omega)
    have hc : c ∈ n.children := by simp [hcs]
    obtain ⟨hm, hh, -⟩ := (hl.link_of hp hn).kids c hc
    rw [← hh, ih hm (hkids c hc)]

theorem ShapeBut.occupied (hs : ShapeBut t nodes root d none) (hl : Linked t nodes root L) (ha : Arity nodes L) :
    Occupied t nodes root L none := by
  obtain rfl := hl.height_of_leavesAt ha hl.root_mem hs.leaves
  exact ⟨fun p hp => hs.lower p ((hl.mem_reached_iff p).mpr hp),
    fun p hp n hn => by simpa using hs.upper p ((hl.mem_reached_iff p).mpr hp) nofun n hn, ha⟩

/-- Of any tree with one node too full, reachable or not, `split` makes a B-tree again exactly if it is
splittable. -/
theorem restores_iff (ht : 2 ≤ t) (ht' : t < 2 ^ 16) (hok : P.Ok st.pager)
    (ho : Overfull t (P.view st.pager) st.rootPageID d id) : Restores P t st d id ↔ Splittable P t st d id := by
  have hl : Linked t (heap P st).nodes (heap P st).root (.reached (P.view st.pager) st.rootPageID d) := ho.linked
  have hmem := Layout.mem_reached.mpr ho.mem
  obtain ⟨n, hn, -⟩ := hl.link id hmem
  have hpos : n.cells ≠ [] := by
    refine List.ne_nil_of_length_pos ?_
    rw [ho.full n hn]
    omega
  have htop := hl.top id hmem
  have hroot : (Layout.reached (P.view st.pager) st.rootPageID d).height (heap P st).root = d := ho.root_height
  rw [hroot] at htop
  have hruns := fun fuel (hfuel : d + 2 ≤ fuel) => Runs.start hok (runs_rebuild ht ht' (k := d) _ hl
    ho.occupied.arity hmem hn hpos ((Nat.add_sub_cancel' htop).trans hroot.symm)
    (show d - _ + 2 ≤ fuel by omega) (by omega))
  constructor
  -- with fuel enough the call that restores the tree is the one of `runs_rebuild`
  · rintro ⟨fuel₀, st', d', hrun, -, hshape⟩
    obtain ⟨-, -, hends, hpages, L', hr⟩ :=
      (wp_of_ok (hrun (max fuel₀ (d + 2)) (le_max_left ..))).mp (hruns _ (le_max_right ..))
    exact ⟨hends, hr.even (hshape.occupied hr.linked hr.arity), hpages⟩
  · rintro ⟨hends, heven, hpages⟩
    obtain ⟨_, st', hrun, -, -, -, -, L', hr⟩ := ok_of_wp (wp_mono (hruns (d + 2) le_rfl) (fun _ _ hq => hq)
      (fun _ _ hlow => absurd hlow.2.2 (not_lt.mpr hpages)) fun _ hA => hends hA)
    have hsame : inorder (P.view st'.pager) (L'.height st'.rootPageID) st'.rootPageID =
        inorder (P.view st.pager) d st.rootPageID := hroot ▸ hr.inorder
    refine ⟨d + 2, st', L'.height st'.rootPageID, fun fuel hfuel => ?_, hsame, ?_⟩
    · exact ((split_approx _ hfuel t id).eq (by rw [hrun]; exact nofun)).trans hrun
    · refine hr.linked.shapeBut (hr.occupied ho.occupied heven) ?_
      rw [Ascends, heap, hsame]
      exact ho.ascends

theorem Linked.cutsEven (ht : 1 ≤ t) (ht' : t ≤ 2 ^ 15) (hl : Linked t nodes root L) (k j : ℕ) (hid : id ∈ L.pages) :
    CutsEven t nodes k j id := by
  induction k generalizing id j with
  | zero => trivial
  | succ k ih =>
    obtain ⟨n, hn, hok⟩ := hl.link id hid
    refine (cutsEven_succ hn j).mpr ?_
    rw [maxKeys_eq, hok.degree, effectiveDegree_of_le ht ht']
    refine (lt_or_ge _ _).imp_right fun hle => ⟨hle, fun hr => ih 1 (hok.listed fun he => ?_).1⟩
    exact Bool.false_ne_true (hr.symm.trans (hok.root_iff.mpr he))

theorem Overfull.splittable_iff (ht : 1 ≤ t) (ht' : t ≤ 2 ^ 15)
    (ho : Overfull t (P.view st.pager) st.rootPageID d id) :
    Splittable P t st d id ↔ splitsPending (P.view st.pager) d id ≤ P.avail st.pager := by
  refine ⟨Splittable.pages, fun hle => ⟨by omega, ?_, hle⟩⟩
  exact ho.linked.cutsEven ht ht' _ _ (Layout.mem_reached.mpr ho.mem)

end Restores

def tooFull (t : ℕ) (left : Option ℕ) : BtreeState (Memory ℕ) :=
  ⟨⟨[{ (BtreeNodePage.new t PGID_INVALID true true 0 : BtreeNodePage ℕ) with
    cells := (List.range (2 * t - 1)).map fun i => ⟨.int (BitVec.ofNat 32 i), i⟩ }], left⟩, 0⟩

theorem toInt_ofNat_of_lt {i : ℕ} (hi : i < 2 ^ 31) : (BitVec.ofNat 32 i).toInt = i := by
  have hnat : (BitVec.ofNat 32 i).toNat = i := by
    rw [BitVec.toNat_ofNat]
    omega
  rw [BitVec.toInt_eq_toNat_of_lt (by omega), hnat]

theorem overfull_tooFull (ht : t < 2 ^ 16) (left : Option ℕ) :
    Overfull t (memoryPager.view (tooFull t left).pager) 0 0 0 := by
  have hone : ∀ p ∈ reached (memoryPager.view (tooFull t left).pager) 0 0, p = 0 := by simp [reached]
  have hnode : ∀ p ∈ reached (memoryPager.view (tooFull t left).pager) 0 0, ∀ n,
      memoryPager.view (tooFull t left).pager p = some n → n.leaf = true ∧ n.children = [] ∧ n.root = true ∧
        n.degree = t := by
    intro p hp n hn
    rw [hone p hp] at hn
    rw [← Option.some.inj hn]
    exact ⟨rfl, rfl, rfl, rfl⟩
  constructor
  case toShapeBut =>
    constructor
    case leaves => exact ⟨_, rfl, rfl⟩
    case once => simp [reached]
    case degree => exact fun p hp n hn => (hnode p hp n hn).2.2.2
    case upper => exact fun p hp hne => absurd (congrArg some (hone p hp).symm) hne
    case lower => exact fun p hp hne => absurd (hone p hp) hne
    case leaf_children => exact fun p hp n hn _ => (hnode p hp n hn).2.1
    case arity => exact fun p hp n hn hleaf => absurd (hleaf.symm.trans (hnode p hp n hn).1) Bool.false_ne_true
    case parent =>
      intro p hp n hn q hq
      rw [(hnode p hp n hn).2.1] at hq
      exact absurd hq List.not_mem_nil
    case root_flag => exact fun p hp n hn => iff_of_true (hnode p hp n hn).2.2.1 (hone p hp)
    case ascends =>
      refine List.pairwise_map.mpr (List.pairwise_lt_range.imp_of_mem fun {i j} hi hj hij => ?_)
      rw [List.mem_range] at hi hj
      rw [Vari.lt, toInt_ofNat_of_lt (by omega), toInt_ofNat_of_lt (by omega)]
      exact decide_eq_true (by exact_mod_cast hij)
  case mem => simp [reached]
  case full =>
    intro n hn
    rw [← Option.some.inj hn]
    simp

theorem ok_tooFull (left : Option ℕ) : memoryPager.Ok (tooFull t left).pager := by
  intro id n hn
  rcases id with _ | id
  · rw [← Option.some.inj hn]
    rfl
  · simp [tooFull] at hn

theorem restores_iff_tooFull :
    (Restores memoryPager 2 (tooFull 2 none) 0 0 ↔ Splittable memoryPager 2 (tooFull 2 none) 0 0) ∧
      Restores memoryPager 2 (tooFull 2 none) 0 0 := by
  have ho := overfull_tooFull (t := 2) (by decide) none
  have h := restores_iff (by decide) (by decide) (ok_tooFull none) ho
  exact ⟨h, h.mpr ((ho.splittable_iff (by decide) (by decide)).mpr le_top)⟩

/-- With no page left `split` throws, and at degree 32769 it does not end however many pages there are. -/
theorem restores_counterexample :
    (Overfull 2 (memoryPager.view (tooFull 2 (some 0)).pager) 0 0 0 ∧
      split memoryPager.toPagerOps 2 2 0 (tooFull 2 (some 0)) =
        .throw (.runtimeError "no page left") (tooFull 2 (some 0)) ∧
      ¬Restores memoryPager 2 (tooFull 2 (some 0)) 0 0) ∧
    (Overfull 32769 (memoryPager.view (tooFull 32769 none).pager) 0 0 0 ∧
      (∀ fuel, split memoryPager.toPagerOps 32769 fuel 0 (tooFull 32769 none) = .timeout) ∧
      ¬Restores memoryPager 32769 (tooFull 32769 none) 0 0) := by
  have hthrow : split memoryPager.toPagerOps 2 2 0 (tooFull 2 (some 0)) =
      .throw (.runtimeError "no page left") (tooFull 2 (some 0)) := by decide +kernel
  have hfull := overfull_tooFull (t := 32769) (by omega) none
  have hends : ∀ fuel, split memoryPager.toPagerOps 32769 fuel 0 (tooFull 32769 none) = .timeout := by
    intro fuel
    have hroot := hfull.linked.fullRoot (h := heap memoryPager (tooFull 32769 none)) hfull.occupied.arity rfl
      (List.ne_nil_of_length_pos (by simp))
    refine timeout_of_wp (wp_mono (Runs.start (ok_tooFull none) (runs_split_degreeOne rfl 0 fuel hroot rfl))
      (fun _ _ hq => hq.2.2) (fun _ _ hr => hr.2.2.1 rfl) fun _ hA => hA.1)
  refine ⟨⟨overfull_tooFull (by omega) _, hthrow, ?_⟩, hfull, hends, ?_⟩
  · rintro ⟨fuel₀, st', d', hrun, -⟩
    have hmore := (split_approx memoryPager.toPagerOps (le_max_right fuel₀ 2) 2 0).eq (s := tooFull 2 (some 0))
      (by rw [hthrow]; exact nofun)
    rw [hrun _ (le_max_left ..), hthrow] at hmore
    exact absurd hmore nofun
  · rintro ⟨fuel₀, st', d', hrun, -⟩
    exact absurd ((hends fuel₀).symm.trans (hrun fuel₀ le_rfl)) nofun

end Kndb.Btree
