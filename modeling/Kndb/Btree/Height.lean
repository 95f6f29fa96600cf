import Kndb.Btree.CountedPager
import Kndb.Btree.Reachable
import Kndb.Btree.Shape

namespace Kndb.Btree

open Ascending Imp Imp.Prog

variable {Ref σ T : Type}

section Keys

variable {nodes : ℕ → Option (BtreeNodePage T)} {root : ℕ} {deg u : ℕ} {L : Layout} {ovf : Option ℕ}

theorem Linked.kid_ne_root (h : Linked deg nodes root L) {p q : ℕ} (hp : p ∈ L.pages)
    {n : BtreeNodePage T} (hn : nodes p = some n) (hq : q ∈ n.children) : q ≠ root := by
  rintro rfl
  have hh := ((h.link_of hp hn).kids q hq).2.1
  have htop := h.top p hp
  omega

theorem Linked.length_inorder (h : Linked deg nodes root L) (ho : Occupied u nodes root L ovf)
    {k m p : ℕ} (hp : p ∈ L.pages) (hk : L.height p = k + 1) {n : BtreeNodePage T}
    (hn : nodes p = some n) (hkids : ∀ q ∈ n.children, m ≤ (inorder nodes k q).length + 1) :
    (n.cells.length + 1) * m ≤ (inorder nodes (k + 1) p).length + 1 := by
  have hl : n.leaf = false := (h.link_of hp hn).leaf_eq_false (by omega)
  have harity := ho.arity p hp n hn hl
  rw [inorder_succ k p hn, ← harity]
  exact mul_le_length_weave _ _ _ harity hkids

theorem Linked.pow_le_inorder (h : Linked deg nodes root L) (ho : Occupied u nodes root L ovf)
    {k p : ℕ} (hp : p ∈ L.pages) (hpr : p ≠ root) (hk : L.height p = k) :
    u ^ (k + 1) ≤ (inorder nodes k p).length + 1 := by
  induction k generalizing p with
  | zero =>
    obtain ⟨n, hn, -⟩ := h.link p hp
    have hlow := ho.lower p hp hpr n hn
    rw [inorder_zero p hn, pow_one]
    omega
  | succ k ih =>
    obtain ⟨n, hn, ok⟩ := h.link p hp
    have hlow := ho.lower p hp hpr n hn
    have hkids : ∀ q ∈ n.children, u ^ (k + 1) ≤ (inorder nodes k q).length + 1 := by
      intro q hq
      have hh := (ok.kids q hq).2.1
      exact ih (ok.kids q hq).1 (h.kid_ne_root hp hn hq) (by omega)
    calc u ^ (k + 1 + 1) = u * u ^ (k + 1) := Nat.pow_succ'
      _ ≤ (n.cells.length + 1) * u ^ (k + 1) := Nat.mul_le_mul_right _ (by omega)
      _ ≤ (inorder nodes (k + 1) p).length + 1 := h.length_inorder ho hp hk hn hkids

theorem Linked.two_mul_pow_le (h : Linked deg nodes root L) (hs : Sized u nodes root L ovf)
    (hne : 1 ≤ (inorder nodes (L.height root) root).length) :
    2 * u ^ L.height root ≤ (inorder nodes (L.height root) root).length + 1 := by
  rcases hk : L.height root with _ | k
  · rw [hk] at hne
    rw [pow_zero]
    omega
  obtain ⟨n, hn, ok⟩ := h.link root h.root_mem
  have hone := hs.root_nonempty n hn (ok.leaf_eq_false (by omega))
  have hkids : ∀ q ∈ n.children, u ^ (k + 1) ≤ (inorder nodes k q).length + 1 := by
    intro q hq
    have hh := (ok.kids q hq).2.1
    exact h.pow_le_inorder hs.toOccupied (ok.kids q hq).1 (h.kid_ne_root h.root_mem hn hq) (by omega)
  calc 2 * u ^ (k + 1) ≤ (n.cells.length + 1) * u ^ (k + 1) := Nat.mul_le_mul_right _ (by omega)
    _ ≤ (inorder nodes (k + 1) root).length + 1 := h.length_inorder hs.toOccupied h.root_mem hk hn hkids

end Keys

section Pages

variable {nodes : ℕ → Option (BtreeNodePage T)} {root : ℕ} {deg : ℕ} {L : Layout}

theorem rootSplitNeeds_eq {n : BtreeNodePage T} (hu : 2 ≤ effectiveDegree n.degree) :
    rootSplitNeeds n = 2 := by
  rw [rootSplitNeeds, if_pos]
  rw [maxKeys_eq]
  omega

/-- One page for each level above, and one more for a new root. -/
theorem Linked.splitsNeeded_le (h : Linked deg nodes root L) (hu : 2 ≤ effectiveDegree deg) (k : ℕ)
    {id d : ℕ} (hid : id ∈ L.pages) (hd : L.height id + d = L.height root) :
    splitsNeeded nodes k id ≤ (d + 2 : ℕ) := by
  induction k generalizing id d with
  | zero => simp [splitsNeeded]
  | succ k ih =>
    obtain ⟨n, hn, ok⟩ := h.link id hid
    rw [splitsNeeded, hn, Option.elim_some]
    split_ifs with hlt hr
    · simp
    · rw [rootSplitNeeds_eq (by rwa [ok.degree])]
      norm_cast
      omega
    · have hne : id ≠ root := fun he => hr (ok.root_iff.mpr he)
      obtain ⟨-, -, -, hh⟩ := h.attached hid hne hn
      have htop := h.top _ (ok.listed hne).1
      obtain ⟨d, rfl⟩ : ∃ e, d = e + 1 := ⟨d - 1, by omega⟩
      have hle := ih (ok.listed hne).1 (d := d) (by omega)
      calc splitsNeeded nodes k n.parentID + 1 ≤ (d + 2 : ℕ) + 1 := by gcongr
        _ = (d + 1 + 2 : ℕ) := by push_cast; ring

theorem leafOf_mem (h : Linked deg nodes root L) {key : Vari} {f p id : ℕ} (hp : p ∈ L.pages)
    (hleaf : leafOf nodes key f p = some id) : id ∈ L.pages ∧ L.height id = 0 := by
  induction f generalizing p with
  | zero => cases hleaf
  | succ f ih =>
    obtain ⟨n, hn, ok⟩ := h.link p hp
    rw [leafOf, hn, Option.bind_some] at hleaf
    split_ifs at hleaf with hfound hl
    · cases hleaf
      exact ⟨hp, ok.leaf_iff.mp hl⟩
    · obtain ⟨q, hq, hrest⟩ := Option.bind_eq_some_iff.mp hleaf
      exact ih (ok.kids q (List.mem_of_getElem? hq)).1 hrest

theorem Linked.insertNeeds_le (h : Linked deg nodes root L) (hu : 2 ≤ effectiveDegree deg)
    (key : Vari) (f : ℕ) : insertNeeds nodes root key f ≤ (L.height root + 2 : ℕ) := by
  rw [insertNeeds]
  rcases hleaf : leafOf nodes key f root with _ | id
  · simp
  · obtain ⟨hid, hh⟩ := leafOf_mem h h.root_mem hleaf
    exact h.splitsNeeded_le hu f hid (by omega)

end Pages

def counting (st : BtreeState σ) (c : Calls) : BtreeState (σ × Calls) := ⟨(st.pager, c), st.rootPageID⟩

theorem wp_node_counted {P : PagerOps Ref σ T} {id k : ℕ} {st : BtreeState (σ × Calls)}
    {Q : Ref → BtreeState (σ × Calls) → Prop} (hk : st.pager.2.getPage < k)
    (hQ : ∀ r st', st'.pager.2.getPage = st.pager.2.getPage + 1 → Q r st') :
    (B_NODE P.counted id).wp st Q (fun _ st' => st'.pager.2.getPage ≤ k) fun _ => True := by
  rw [B_NODE, onPager, wp_zoom]
  refine wp_bind.mpr ((wp_change _).mpr ?_)
  rw [uncounted, wp_zoom]
  unfold wp
  split
  · exact hQ _ _ rfl
  · exact hk
  · trivial
  · trivial

/-- A search fetches one page for each call of `searchRowPtr`. -/
theorem wp_searchRowPtr_counted (P : PagerOps Ref σ T) (key : Vari) (fuel id k : ℕ)
    (st : BtreeState (σ × Calls)) (hk : st.pager.2.getPage + fuel ≤ k) :
    (searchRowPtr P.counted key fuel id).wp st (fun _ st' => st'.pager.2.getPage ≤ k)
      (fun _ st' => st'.pager.2.getPage ≤ k) fun _ => True := by
  induction fuel generalizing id st with
  | zero => exact trivial
  | succ fuel ih =>
    rw [searchRowPtr]
    refine wp_bind.mpr (wp_node_counted (by omega) fun r st' hst' => ?_)
    refine wp_bind.mpr ((wp_gets _).mpr ?_)
    refine wp_bind.mpr ((wp_require ..).mpr ⟨fun _ => ?_, fun _ => trivial⟩)
    refine wp_bind.mpr ((wp_require ..).mpr ⟨fun _ => ?_, fun _ => trivial⟩)
    refine wp_bind.mpr ((wp_require ..).mpr ⟨fun _ => ?_, fun _ => trivial⟩)
    dsimp only
    split_ifs
    · rw [wp_pure]
      omega
    · rw [wp_pure]
      omega
    · refine wp_bind.mpr (wp_at?.mpr ⟨fun c _ => ?_, fun _ => trivial⟩)
      exact ih c st' (by omega)

section Calls

variable {P : LawfulPager σ T} {t : ℕ} {st st' : BtreeState σ} {L L' : Layout} {c c' : Calls}

theorem Evolved.created_le {h h' : Heap T} (he : Evolved h L h' L')
    (hL : ∀ q ∈ L.pages, h.nodes q ≠ none) {s s' : σ × Calls} (hs : P.view s.1 = h.nodes)
    (hs' : P.view s'.1 = h'.nodes) (hc : CreatedPages P s s') :
    s'.2.createNewPage + L.pages.card ≤ s.2.createNewPage + L'.pages.card := by
  obtain ⟨N, hN, hnone, hview⟩ := hc.pages
  have hsub : N ⊆ L'.pages \ L.pages := by
    intro q hq
    have hq0 : h.nodes q = none := hs ▸ hnone q hq
    have hq1 : h'.nodes q ≠ none := by
      rw [← hs', Ne, hview]
      exact fun hno => hno.2 hq
    refine Finset.mem_sdiff.mpr ⟨?_, fun hm => hL q hm hq0⟩
    by_contra hm
    exact hq1 ((he.frame q hm).trans hq0)
  have hcard := Finset.card_le_card hsub
  rw [Finset.card_sdiff_of_subset he.pages] at hcard
  have hle := Finset.card_le_card he.pages
  omega

theorem Balanced.wp_insert_counted {u l : ℕ} (hb : Balanced False t u (heap P st) L none)
    (hdeg : effectiveDegree t = u) (hu : 2 ≤ u) (hok : P.Ok st.pager) (hl : L.height st.rootPageID = l)
    (v : T) (key : Vari) (c : Calls) {fuel : ℕ} (hfuel : l + 2 ≤ fuel) :
    (insert P.counted.toPagerOps t fuel v key (σ := σ × Calls)).wp (counting st c)
      (fun _ st' => st'.pager.2.createNewPage ≤ c.createNewPage + (l + 2))
      (fun _ st' => st'.pager.2.createNewPage + 1 ≤ c.createNewPage + (l + 2)) fun _ => False := by
  have hnone : ∀ q ∈ L.pages, (heap P st).nodes q ≠ none := by
    intro q hq
    obtain ⟨n, hn, -⟩ := hb.linked.link q hq
    rw [hn]
    exact nofun
  have hneeds := hb.linked.insertNeeds_le (hdeg.symm ▸ hu) key (l + 1)
  rw [show (heap P st).root = st.rootPageID from rfl, hl] at hneeds
  have hok' : P.counted.Ok (counting st c).pager := hok
  have hruns := Runs.start (P := P.counted) hok' (runs_insert (v := v) (A := fun _ => False) hb hdeg hu
    (False.elim : False → key.isNaN = false) (hl ▸ hfuel) hl.le)
  -- pages created and pages left add up to the same number, whatever the call does
  refine wp_mono hruns ?_ ?_ fun _ hA => hA
  · rintro r st' ⟨-, hcr, ⟨-, heq, -⟩ | ⟨-, -, id, g, hins, hneed, L', hg, -, -, -, hcard⟩⟩
    · have hev : Evolved (heap P st) L (heap P.counted st') L := by
        rw [heq]
        exact .of_frame (fun _ _ => rfl) rfl
      have hle := hev.created_le hnone rfl rfl hcr
      change st'.pager.2.createNewPage + _ ≤ c.createNewPage + _ at hle
      omega
    · have hev : Evolved (heap P st) L g L :=
        .of_frame (fun q hq => hins.frame q fun he => hq (he ▸ hins.mem)) hins.avail_eq
      have hle := (hev.trans hg.toEvolved).created_le hnone rfl rfl hcr
      change st'.pager.2.createNewPage + _ ≤ c.createNewPage + _ at hle
      have hpages : L'.pages.card ≤ L.pages.card + (l + 2) := by
        rw [← Nat.cast_le (α := ℕ∞), hcard]
        push_cast
        gcongr
        exact hneed ▸ hneeds
      omega
  · rintro e st' ⟨-, hcr, -, id, g, hins, hneed, hlt, -⟩
    have hav := hcr.avail
    change (st'.pager.2.createNewPage : ℕ∞) + _ = c.createNewPage + (heap P st).avail at hav
    rw [hins.avail_eq] at hlt
    -- the insertion has thrown, and has created the pages that were left
    have hlt' : (heap P st).avail < (l + 2 : ℕ) := hlt.trans_le (hneed ▸ hneeds)
    obtain ⟨a, ha⟩ := ENat.ne_top_iff_exists.mp hlt'.ne_top
    rw [← ha] at hav hlt'
    have hle : (st'.pager.2.createNewPage : ℕ∞) ≤ c.createNewPage + a := le_self_add.trans hav.le
    norm_cast at hle hlt'
    omega

/-- What the number of levels of a tree of degree `t` means; `l` of them are below the root. -/
structure LevelBounds (P : LawfulPager σ T) (t : ℕ) (st : BtreeState σ) (l : ℕ) : Prop where
  leaves : LeavesAt (P.view st.pager) l st.rootPageID
  keys : 1 ≤ (inorder (P.view st.pager) l st.rootPageID).length →
    2 * t ^ l - 1 ≤ (inorder (P.view st.pager) l st.rootPageID).length
  visits : ∀ key c, ∃ row st', searchRowPtr P.toPagerOps.counted key (l + 1) st.rootPageID (counting st c) =
    .ok row st' ∧ st'.pager.2.getPage ≤ c.getPage + (l + 1)
  creates : ∀ fuel v key c r st', insert P.toPagerOps.counted t fuel v key (counting st c) = .ok r st' →
    st'.pager.2.createNewPage ≤ c.createNewPage + (l + 2)
  throws : ∀ fuel v key c e st', insert P.toPagerOps.counted t fuel v key (counting st c) = .throw e st' →
    st'.pager.2.createNewPage + 1 ≤ c.createNewPage + (l + 2)

theorem Balanced.levelBounds {u : ℕ} (hb : Balanced False t u (heap P st) L none)
    (hdeg : effectiveDegree t = u) (hu : 2 ≤ u) (hut : u = t) (hok : P.Ok st.pager) :
    LevelBounds P t st (L.height st.rootPageID) where
  leaves := hb.linked.leavesAt hb.linked.root_mem rfl
  keys hne := by
    have := hb.linked.two_mul_pow_le hb.sized hne
    rw [hut] at this
    exact Nat.sub_le_iff_le_add.mpr this
  visits key c := by
    have hS := hb.sized.searchable hu (hdeg ▸ effectiveDegree_le t)
    have hok' : P.counted.Ok (counting st c).pager := hok
    have hruns := Runs.start (P := P.counted) hok'
      (hb.runs_searchRowPtr (R := fun _ => False) (A := fun _ => False) hS (False.elim : False → key.isNaN = false)
        (Nat.lt_succ_self (L.height st.rootPageID)) (Nat.lt_succ_self (L.height st.rootPageID)))
    obtain ⟨row, st', hrun, -⟩ := ok_of_wp (wp_mono hruns (fun _ _ hq => hq) (fun _ _ hr => hr.2.2)
      fun _ hA => hA)
    refine ⟨row, st', hrun, ?_⟩
    exact (wp_of_ok hrun).mp (wp_searchRowPtr_counted P.toPagerOps key _ st.rootPageID _ (counting st c) le_rfl)
  creates fuel v key c r st' hrun := by
    have hmax := (insert_approx P.toPagerOps.counted (le_max_right (L.height st.rootPageID + 2) fuel) t v key).eq
      (s := counting st c) (by rw [hrun]; exact nofun)
    exact (wp_of_ok (hmax.trans hrun)).mp (hb.wp_insert_counted hdeg hu hok rfl v key c (le_max_left ..))
  throws fuel v key c e st' hrun := by
    have hmax := (insert_approx P.toPagerOps.counted (le_max_right (L.height st.rootPageID + 2) fuel) t v key).eq
      (s := counting st c) (by rw [hrun]; exact nofun)
    exact (wp_of_throw (hmax.trans hrun)).mp (hb.wp_insert_counted hdeg hu hok rfl v key c (le_max_left ..))

end Calls

end Kndb.Btree
