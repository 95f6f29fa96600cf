import Kndb.Btree.InStep
import Kndb.Btree.Session

namespace Kndb.Btree

open Imp Imp.Prog Pager PageCache

-- the programs are not to be run where a goal is only looked at
attribute [local irreducible] Sim

variable {E : Exn → Prop} {c deg u : ℕ} {V : Finset ℕ} {H : List (ℕ × ℕ)} {h h' : Heap Tuple} {id page : ℕ} {L : Layout}
variable {st st' : BtreeState Mem} {t t' : BtreeState (PageCache Page Block)} {n : BtreeNodePage Tuple}
variable {R : BtreeState Mem → BtreeState (PageCache Page Block) → Prop} {K : Cell Tuple → Prop}

/-- What a step of the cascade at the page `id` leaves behind: the next one is at the parent `n.parentID`. -/
structure Stepped {T : Type} (deg u : ℕ) (h : Heap T) (L : Layout) (id : ℕ) (h' : Heap T) (L' : Layout)
    (n : BtreeNodePage T) : Prop where
  node : h'.nodes id = some n
  not_root : n.root = false
  grown : Grown h L h' L'
  balanced : Balanced False deg u h' L' (some n.parentID)
  mem : n.parentID ∈ L'.pages

section Step

variable {σ T : Type} {P : LawfulPager σ T} {s₀ : σ} {h : Heap T} {n : BtreeNodePage T} {A : Stop → Prop}
variable {Rt : Heap T → Prop}

theorem runs_splitNonRoot_step (hu : 2 ≤ u) (hdeg : effectiveDegree deg = u)
    (hb : Balanced False deg u h L (some id)) (hid : id ∈ L.pages) (hn : h.nodes id = some n)
    (hfull : ¬n.cells.length < n.maxKeys) (hroot : id ≠ h.root) :
    Runs P s₀ (splitNonRoot P.toPagerOps deg id id) h
      (fun _ h' => ∃ L' n', Stepped deg u h L id h' L' n' ∧ n'.parentID = n.parentID) (fun _ => True)
      fun _ => True := by
  obtain ⟨p, hp, hl, -⟩ := hb.linked.attached hid hroot hn
  obtain ⟨hlen, -⟩ := hb.cut_lengths hdeg hid hn hfull
  refine runs_splitNonRoot hl (fun _ => trivial) (fun _ new a m hnew ha hm => ?_) fun _ _ _ _ _ => trivial
  have hs := hl.halvedAt hb.linked hb.sized.arity hid hroot hm hnew
  set c := Cut.atMedian id new n p m
  have hsized := hs.sized_split hb.sized.toOccupied hlen (by omega) fun _ => hb.sized.root_nonempty
  exact ⟨_, c.leftNode, ⟨SplitAt.at_id (c := c), hl.not_root, hs.grown ha, ⟨hs.linked_split, hsized, False.elim⟩,
    SplitAt.mem_split hs.pid_mem⟩, rfl⟩

theorem runs_splitRoot_step (hu : 2 ≤ u) (hdeg : effectiveDegree deg = u)
    (hb : Balanced False deg u h L (some h.root)) (hn : h.nodes h.root = some n)
    (hfull : ¬n.cells.length < n.maxKeys) :
    Runs P s₀ (splitRoot P.toPagerOps deg h.root h.root) h
      (fun _ h' => ∃ L' n', Stepped deg u h L h.root h' L' n' ∧ n'.parentID = h'.root) (fun _ => True)
      fun _ => True := by
  have hmem := hb.linked.root_mem
  have hok := hb.linked.link_of hmem hn
  obtain ⟨hlen, -⟩ := hb.cut_lengths hdeg hmem hn hfull
  refine runs_splitRoot hn hok.degree hok.leaf_children (fun q hq => ?_) (fun _ => trivial)
    (fun _ r new a m hr hnew ha hm => ?_) (fun _ => trivial) fun _ _ _ _ _ => trivial
  · obtain ⟨-, hh, o, ho, -⟩ := hok.kids q hq
    refine ⟨?_, o, ho⟩
    rintro rfl
    omega
  · have hne : h.root ≠ r := hb.linked.ne_fresh hr hmem
    have hgrow := hb.linked.grow hn hr
    obtain ⟨p, hp, hl, -⟩ := hgrow.attached (Layout.mem_grow hmem) hne growNodes_root
    obtain rfl : newRootNode deg h.root r = p := Option.some.inj ((growNodes_new hne).symm.trans hp)
    have hs := hl.halvedAt hgrow (hb.linked.arity_grow hn hr hb.sized.arity) (Layout.mem_grow hmem) hne hm hnew
    set c := Cut.atMedian h.root new ((n.setRoot false).setParent r) (newRootNode deg h.root r) m
    have hocc := hb.linked.occupied_grow hn hr hb.sized.toOccupied (by omega)
    have hsized : Sized u (splitNodes (growNodes h.nodes deg h.root r n) c) r ((L.grow h.root r).split c) (some r) :=
      hs.sized_split hocc hlen (by omega) fun hpr => absurd rfl hpr
    exact ⟨_, c.leftNode, ⟨SplitAt.at_id (c := c), rfl, (hb.linked.grown_grow hn hr ha).trans (hs.grown rfl),
      ⟨hs.linked_split, hsized, False.elim⟩, SplitAt.mem_split hgrow.root_mem⟩, rfl⟩

end Step

def ownPages (id : ℕ) (n : BtreeNodePage Tuple) : Finset ℕ := if n.root then {id} else {id, n.parentID}

/-- The pages of one step of the cascade: the bitmaps, the node, its parent, and the children that move. -/
def stepPages (id : ℕ) (n : BtreeNodePage Tuple) : Finset ℕ :=
  bitmaps ∪ ownPages id n ∪ (n.children.drop (n.cells.length / 2 + 1)).toFinset

theorem mem_ownPages (id : ℕ) (n : BtreeNodePage Tuple) : id ∈ ownPages id n := by
  rw [ownPages]
  split_ifs
  · exact Finset.mem_singleton_self _
  · exact Finset.mem_insert_self ..

theorem bitmaps_subset (id : ℕ) (n : BtreeNodePage Tuple) : bitmaps ⊆ stepPages id n :=
  Finset.subset_union_left.trans Finset.subset_union_left

theorem own_subset (id : ℕ) (n : BtreeNodePage Tuple) : ownPages id n ⊆ stepPages id n :=
  Finset.subset_union_right.trans Finset.subset_union_left

theorem Balanced.card_stepPages_le (hb : Balanced False deg u h L (some id)) (hdeg : effectiveDegree deg = u)
    (hid : id ∈ L.pages) (hn : h.nodes id = some n) (hfull : ¬n.cells.length < n.maxKeys) :
    (stepPages id n).card ≤ 2 + (ownPages id n).card + u := by
  obtain ⟨hlen, hhalf⟩ := hb.cut_lengths hdeg hid hn hfull
  have hok := hb.linked.link_of hid hn
  have hmoved : (n.children.drop (n.cells.length / 2 + 1)).length ≤ u := by
    rw [List.length_drop, hhalf]
    cases hleaf : n.leaf with
    | true =>
      rw [hok.leaf_children hleaf, List.length_nil]
      omega
    | false =>
      rw [hb.sized.arity id hid n hn hleaf, hlen]
      have := effectiveDegree_pos deg
      omega
  calc (stepPages id n).card
      ≤ (bitmaps ∪ ownPages id n).card + (n.children.drop (n.cells.length / 2 + 1)).toFinset.card :=
        Finset.card_union_le ..
    _ ≤ (bitmaps.card + (ownPages id n).card) + (n.children.drop (n.cells.length / 2 + 1)).length :=
        Nat.add_le_add (Finset.card_union_le ..) (List.toFinset_card_le _)
    _ ≤ 2 + (ownPages id n).card + u := Nat.add_le_add (Nat.add_le_add_right Finset.card_le_two _) hmoved

/-- In each state that the tree can come to with cells of `K`, all pages last but the one that is too large. -/
def Clean (deg u : ℕ) (K : Cell Tuple → Prop) (st : BtreeState Mem) (h : Heap Tuple) (L : Layout) : Prop :=
  ∀ (st' : BtreeState Mem) L' ovf, (tidyPager Mem.cache).Ok st'.pager → (tidyPager Mem.cache).Frame st.pager st'.pager →
    Evolved h L (heap (tidyPager Mem.cache) st') L' → (∀ d, CellIn (heap (tidyPager Mem.cache) st').nodes L' d → K d) →
    Balanced False deg u (heap (tidyPager Mem.cache) st') L' ovf → st'.pager.LastBut {x | ovf = some x}

theorem sim_splitFull_step (hE : Outer E) (hR : E sizeLimit → ∀ st t, R st t) (hu : 2 ≤ u)
    (hdeg : effectiveDegree deg = u) (hc : u + 5 ≤ c) (hb : Balanced False deg u h L (some id)) (hid : id ∈ L.pages)
    (hn : h.nodes id = some n) (hfull : ¬n.cells.length < n.maxKeys)
    (hs : Held c (stepPages id n) [(id, page)] h st t) :
    Sim E (splitFull (nodeOps Mem.cache.toCacheOps) deg id id n.root) (splitFull (nodeOps cacheOps) deg page id n.root)
      st t (fun _ _ st' t' => ((tidyPager Mem.cache).Ok st'.pager ∧ (tidyPager Mem.cache).Frame st.pager st'.pager) ∧
        ∃ V' h' L' n', Held c V' [(id, page)] h' st' t' ∧ bitmaps ⊆ V' ∧
        n'.parentID ∈ V' ∧ Stepped deg u h L id h' L' n') R := by
  have hcard := hb.card_stepPages_le hdeg hid hn hfull
  have hV := bitmaps_subset id n
  have hkids : ∀ q ∈ n.children.drop (n.cells.length / 2 + 1), q ∈ stepPages id n := fun q hq =>
    Finset.mem_union_right _ (List.mem_toFinset.mpr hq)
  have hrefl := (tidyPager Mem.cache).frame_refl st.pager
  by_cases hroot : id = h.root
  · subst hroot
    have hok := hb.linked.link_of hid hn
    have hone : (ownPages h.root n).card = 1 := by rw [ownPages, if_pos (hok.root_iff.mpr rfl), Finset.card_singleton]
    rw [splitFull, splitFull, hok.root_iff.mpr rfl]
    have hruns := (runs_splitRoot_step (P := tidyPager Mem.cache) hu hdeg hb hn hfull).wp st hs.ok hrefl hs.heap_eq
    refine ((hs.sim_splitRoot hE hR hV (by omega) hn (fun q hq => ?_) hkids).and hruns).mono ?_
      fun _ _ hR => hR
    · obtain ⟨-, hh, o, ho, -⟩ := hok.kids q hq
      refine ⟨?_, o, ho⟩
      rintro rfl
      omega
    · rintro - - st' t' ⟨⟨ok', hframe, L', n', hstep, hpar⟩, new, h', hs'⟩
      rw [hs'.heap_eq] at hstep hpar
      refine ⟨⟨ok', hframe⟩, _, h', L', n', hs', ?_, ?_, hstep⟩
      · exact hV.trans ((Finset.subset_insert ..).trans (Finset.subset_insert ..))
      · rw [hpar]
        exact Finset.mem_insert_of_mem (Finset.mem_insert_self ..)
  · obtain ⟨p, hp, hl, -⟩ := hb.linked.attached hid hroot hn
    have hown : ownPages id n = {id, n.parentID} := by rw [ownPages, hl.not_root, if_neg Bool.false_ne_true]
    have htwo : (ownPages id n).card ≤ 2 := hown ▸ Finset.card_le_two
    have hpid : n.parentID ∈ stepPages id n := own_subset id n (hown ▸ by simp)
    rw [splitFull, splitFull, hl.not_root]
    have hruns := (runs_splitNonRoot_step (P := tidyPager Mem.cache) hu hdeg hb hid hn hfull hroot).wp st hs.ok hrefl
      hs.heap_eq
    refine ((hs.sim_splitNonRoot hE hR hV (by omega) hl hpid hkids).and hruns).mono ?_ fun _ _ hR => hR
    rintro - - st' t' ⟨⟨ok', hframe, L', n', hstep, hpar⟩, new, h', hs'⟩
    rw [hs'.heap_eq] at hstep
    refine ⟨⟨ok', hframe⟩, _, h', L', n', hs', hV.trans (Finset.subset_insert ..), ?_, hstep⟩
    rw [hpar]
    exact Finset.mem_insert_of_mem hpid

theorem Clean.step (hclean : Clean deg u K st h L) (hframe : (tidyPager Mem.cache).Frame st.pager st'.pager)
    {L' : Layout} (hev : Evolved h L (heap (tidyPager Mem.cache) st') L') :
    Clean deg u K st' (heap (tidyPager Mem.cache) st') L' := fun st'' L'' ovf ok'' hframe'' hev'' =>
  hclean st'' L'' ovf ok'' ((tidyPager Mem.cache).frame_trans hframe hframe'') (hev.trans hev'')

theorem Held.clean (hs : Held c V H h st t) (hclean : Clean deg u K st h L) (hK : ∀ d, CellIn h.nodes L d → K d)
    {ovf : Option ℕ} (hb : Balanced False deg u h L ovf) : st.pager.CleanBut {x | ovf = some x} := by
  obtain rfl := hs.heap_eq
  exact hs.works.cleanBut (hclean st L ovf hs.ok ((tidyPager Mem.cache).frame_refl _) (Grown.refl _ L).toEvolved hK hb)

theorem Held.clean_none (hs : Held c V H h st t) (hclean : Clean deg u K st h L) (hK : ∀ d, CellIn h.nodes L d → K d)
    (hb : Balanced False deg u h L none) : st.pager.CleanBut ∅ := by
  intro x p _ hp
  exact hs.clean hclean hK hb x p (by simp) hp

theorem card_insert_bitmaps_le (hc : 3 ≤ c) (id : ℕ) : (Insert.insert id bitmaps).card ≤ c :=
  calc (Insert.insert id bitmaps).card
      ≤ bitmaps.card + 1 := Finset.card_insert_le ..
    _ ≤ 2 + 1 := Nat.add_le_add_right Finset.card_le_two 1
    _ ≤ c := hc

theorem sim_split (hE : Outer E) (hR : E sizeLimit → ∀ st t, R st t) (hu : 2 ≤ u) (hdeg : effectiveDegree deg = u)
    (hc : u + 5 ≤ c) {fuel : ℕ} (hb : Balanced False deg u h L (some id)) (hid : id ∈ L.pages)
    (hs : Held c V H h st t) (hV : bitmaps ⊆ V) (hidV : id ∈ V)
    (hclean : Clean deg u K st h L) (hK : ∀ d, CellIn h.nodes L d → K d) :
    Sim E (split (nodeOps Mem.cache.toCacheOps) deg fuel id) (split (nodeOps cacheOps) deg fuel id) st t
      (fun _ _ st' t' => ∃ V' h', Held c V' [] h' st' t') R := by
  induction fuel generalizing id h L st t V H with
  | zero => exact sim_of_timeout rfl
  | succ fuel ih =>
    obtain ⟨n, hn, -⟩ := hb.linked.link id hid
    have hdirty : st.pager.CleanBut {id} := by
      convert hs.clean hclean hK hb using 1
      ext x
      rw [Set.mem_singleton_iff, Set.mem_ofPred_eq, Option.some.injEq, eq_comm]
    rw [split, split]
    refine hs.sim_node_bind hE hV hidV fun page t₁ _ hnarrow => ?_
    by_cases hfull : n.cells.length < n.maxKeys
    -- the cascade ends, and only the page at which it does stays in front
    · have h₁ := hnarrow (Insert.insert id bitmaps) (Finset.mem_insert_self ..)
        (card_insert_bitmaps_le ((Nat.le_add_left 3 (u + 2)).trans hc) id) hdirty
      refine h₁.sim_deref (List.mem_cons_self ..) hn fun _ => ?_
      rw [if_pos hfull, if_pos hfull]
      exact sim_pure ⟨_, h, h₁.forget (List.nil_subset _)⟩
    · have hcard := hb.card_stepPages_le hdeg hid hn hfull
      have htwo : (ownPages id n).card ≤ 2 := by
        rw [ownPages]
        split_ifs
        · exact (Finset.card_singleton id).trans_le one_le_two
        · exact Finset.card_le_two
      have h₁ := hnarrow (stepPages id n) (own_subset id n (mem_ownPages id n)) (by omega) hdirty
      refine h₁.sim_deref (List.mem_cons_self ..) hn fun _ => ?_
      rw [if_neg hfull, if_neg hfull]
      apply (sim_splitFull_step hE hR hu hdeg hc hb hid hn hfull h₁).bind
      rintro - - st₂ t₂ - ⟨⟨-, hframe⟩, V₂, h₂, L₂, n₂, hs₂, hV₂, hpar, hstep⟩
      obtain rfl : heap (tidyPager Mem.cache) st₂ = h₂ := hs₂.heap_eq
      refine hs₂.sim_deref (List.mem_cons_self ..) hstep.node fun _ => ?_
      rw [hstep.not_root]
      exact ih hstep.balanced hstep.mem hs₂ hV₂ hpar (hclean.step hframe hstep.grown.toEvolved) fun d hd =>
        hK d ((hstep.grown.cells d).mp hd)

namespace Held

variable {α β : Type} {Q : α → β → BtreeState Mem → BtreeState (PageCache Page Block) → Prop}

theorem rest (hs : Held c V H h st t) (hclean : st.pager.CleanBut ∅) : Held c ∅ [] h st t :=
  ⟨hs.ok, hs.heap_eq, hs.root_eq, hs.works.rest hclean⟩

theorem sim_fetch {f : ℕ → BtreeM Mem α} {g : ℕ → BtreeM (PageCache Page Block) β} (hs : Held c V H h st t)
    (hE : Outer E) (hc : 3 ≤ c) (hclean : st.pager.CleanBut ∅)
    (hfg : ∀ page t', Held c (Insert.insert id bitmaps) [(id, page)] h st t' → Sim E (f id) (g page) st t' Q R) :
    Sim E (B_NODE (nodeOps Mem.cache.toCacheOps) id >>= f) (B_NODE (nodeOps cacheOps) id >>= g) st t Q R := by
  have hs' := (hs.rest hclean).extend (Finset.empty_subset _) (card_insert_bitmaps_le hc id)
  exact hs'.sim_node_bind hE (Finset.subset_insert ..) (Finset.mem_insert_self ..) fun page t' h' _ => hfg page t' h'

theorem sim_searchRowPtr (hE : Outer E) (hc : 3 ≤ c) (hl : Linked deg h.nodes h.root L) (hclean : st.pager.CleanBut ∅)
    (key : Vari) {fuel : ℕ} (hid : id ∈ L.pages) (hs : Held c V H h st t) :
    Sim E (searchRowPtr (nodeOps Mem.cache.toCacheOps) key fuel id) (searchRowPtr (nodeOps cacheOps) key fuel id) st t
      (fun row row' st' t' => row' = row ∧ st' = st ∧ row.pageID ∈ L.pages ∧ Held c ∅ [] h st t') R := by
  induction fuel generalizing id t V H with
  | zero => exact sim_of_timeout rfl
  | succ fuel ih =>
    obtain ⟨n, hn, hok⟩ := hl.link id hid
    rw [searchRowPtr, searchRowPtr]
    refine hs.sim_fetch hE hc hclean fun page t₁ h₁ => h₁.sim_deref (List.mem_cons_self ..) hn fun _ => ?_
    apply sim_require
    · exact fun hx => hx
    intro _
    apply sim_require
    · exact fun hx => hx
    intro _
    apply sim_require
    · exact fun hx => hx
    intro _
    apply sim_ite Iff.rfl
    · exact fun _ => sim_pure ⟨rfl, rfl, hid, h₁.rest hclean⟩
    intro _
    apply sim_ite Iff.rfl
    · exact fun _ => sim_pure ⟨rfl, rfl, hid, h₁.rest hclean⟩
    · exact fun _ => sim_index fun q hq => ih (hok.kids q (List.mem_of_getElem? hq)).1 h₁

theorem sim_rootPageID {f : ℕ → BtreeM Mem α} {g : ℕ → BtreeM (PageCache Page Block) β} (hs : Held c V H h st t)
    (hfg : Sim E (f h.root) (g h.root) st t Q R) :
    Sim E (gets BtreeState.rootPageID >>= f) (gets BtreeState.rootPageID >>= g) st t Q R := by
  apply sim_gets
  obtain rfl := hs.heap_eq
  rw [hs.root_eq]
  exact hfg

end Held

theorem sim_search (hE : Outer E) (hc : 3 ≤ c) (hb : Balanced False deg u h L none) (hs : Held c V H h st t)
    (hclean : st.pager.CleanBut ∅) (fuel : ℕ) (key : Vari) :
    Sim E (search (nodeOps Mem.cache.toCacheOps) fuel key) (search (nodeOps cacheOps) fuel key) st t
      (fun v v' st' t' => v' = v ∧ ∃ V' h', Held c V' [] h' st' t') R := by
  refine hs.sim_rootPageID ?_
  apply (hs.sim_searchRowPtr hE hc hb.linked hclean key hb.linked.root_mem).bind
  rintro row row' st₁ t₁ - ⟨rfl, rfl, hrow, h₁⟩
  apply sim_ite Iff.rfl
  · exact fun _ => sim_pure ⟨rfl, _, h, h₁⟩
  intro _
  obtain ⟨n, hn, -⟩ := hb.linked.link _ hrow
  refine h₁.sim_fetch hE hc hclean fun page t₂ h₂ => h₂.sim_deref (List.mem_cons_self ..) hn fun _ => ?_
  exact sim_index fun cell _ => sim_pure ⟨rfl, _, h, h₂.forget (List.nil_subset _)⟩

theorem sim_update (hE : Outer E) (hc : 3 ≤ c) (hb : Balanced False deg u h L none) (hs : Held c V H h st t)
    (hclean : st.pager.CleanBut ∅) (fuel : ℕ) (values : Tuple) (key : Vari) :
    Sim E (update (nodeOps Mem.cache.toCacheOps) fuel values key) (update (nodeOps cacheOps) fuel values key) st t
      (fun v v' st' t' => v' = v ∧ ∃ V' h', Held c V' [] h' st' t') R := by
  refine hs.sim_rootPageID ?_
  apply (hs.sim_searchRowPtr hE hc hb.linked hclean key hb.linked.root_mem).bind
  rintro row row' st₁ t₁ - ⟨rfl, rfl, hrow, h₁⟩
  apply sim_ite Iff.rfl
  · exact fun _ => sim_pure ⟨rfl, _, h, h₁⟩
  intro _
  obtain ⟨n, hn, -⟩ := hb.linked.link _ hrow
  refine h₁.sim_fetch hE hc hclean fun page t₂ h₂ => h₂.sim_deref (List.mem_cons_self ..) hn fun _ => ?_
  refine sim_index fun cell _ => ?_
  have hpar := h₂.parentID_lt hn
  apply (h₂.sim_modify (List.mem_cons_self ..) hn rfl hpar).bind
  rintro - - st₃ t₃ - h₃
  exact sim_pure ⟨rfl, _, _, h₃.forget (List.nil_subset _)⟩

theorem sim_insert (hE : Outer E) (hR : E sizeLimit → ∀ st t, R st t) (hu : 2 ≤ u) (hdeg : effectiveDegree deg = u)
    (hc : u + 5 ≤ c) (hb : Balanced False deg u h L none) (hs : Held c V H h st t) (hclean : Clean deg u K st h L)
    (hK : ∀ d, CellIn h.nodes L d → K d) (fuel : ℕ) {values : Tuple} {key : Vari} (hnew : K ⟨key, values⟩) :
    Sim E (insert (nodeOps Mem.cache.toCacheOps) deg fuel values key)
      (insert (nodeOps cacheOps) deg fuel values key) st t
      (fun v v' st' t' => v' = v ∧ ∃ V' h', Held c V' [] h' st' t') R := by
  have hthree : 3 ≤ c := (Nat.le_add_left 3 (u + 2)).trans hc
  have hall := hs.clean_none hclean hK hb
  refine hs.sim_rootPageID ?_
  apply (hs.sim_searchRowPtr hE hthree hb.linked hall key hb.linked.root_mem).bind
  rintro row row' st₁ t₁ - ⟨rfl, rfl, hrow, h₁⟩
  apply sim_ite Iff.rfl
  · exact fun _ => sim_pure ⟨rfl, _, h, h₁⟩
  intro _
  obtain ⟨n, hn, -⟩ := hb.linked.link _ hrow
  refine h₁.sim_fetch hE hthree hall fun page t₂ h₂ => h₂.sim_deref (List.mem_cons_self ..) hn fun _ => ?_
  apply sim_require
  · exact fun hx => hx
  intro hleaf
  refine h₂.sim_fetch hE hthree hall fun page t₃ h₃ => ?_
  have hins := hb.insertAt (c := ⟨key, values⟩) False.elim hrow hn hleaf False.elim
  have hpar := h₃.parentID_lt hn
  have hruns : Runs (tidyPager Mem.cache) st₁.pager
      (modify (nodeOps Mem.cache.toCacheOps) row'.pageID
        fun n => n.setCells (n.cells.insertIdx (scan key n.cells) ⟨key, values⟩)) h
      (fun _ _ => True) (fun _ => True) fun _ => True := runs_modify hn rfl trivial
  apply ((h₃.sim_modify (List.mem_cons_self ..) hn rfl hpar).and
    (hruns.wp st₁ hs.ok ((tidyPager Mem.cache).frame_refl _) hs.heap_eq)).bind
  rintro - - st₄ t₄ - ⟨⟨-, hframe, -⟩, h₄⟩
  have hev : Evolved h L (heap (tidyPager Mem.cache) st₄) L := by
    rw [h₄.heap_eq]
    exact .of_frame (fun q hq => hins.frame q fun he => hq (he ▸ hins.mem)) hins.avail_eq
  have hclean' := hclean.step hframe hev
  rw [h₄.heap_eq] at hclean'
  have hcells : ∀ d,
      CellIn (h.set row'.pageID (n.setCells (n.cells.insertIdx (scan key n.cells) ⟨key, values⟩))).nodes L d → K d := by
    intro d hd
    rcases (hins.cells d).mp hd with rfl | hd
    · exact hnew
    · exact hK d hd
  apply (sim_split hE hR hu hdeg hc hins.balanced hrow h₄ (Finset.subset_insert ..) (Finset.mem_insert_self ..) hclean'
    hcells).bind
  exact fun _ _ st₅ t₅ _ h₅ => sim_pure ⟨rfl, h₅⟩

/-- After an operation on the tree no page is in the middle of a change. -/
theorem sim_settle (hu : 2 ≤ u) (hdeg : effectiveDegree deg = u) (hb : Balanced False deg u h L none)
    (hs : Held c V H h st t) (hclean : Clean deg u K st h L) (hK : ∀ d, CellIn h.nodes L d → K d) {op : TreeOp Tuple}
    (hop : op.Keeps K) {fuel : ℕ} (hfuel : L.height h.root + 2 ≤ fuel) {α : Type} {p : BtreeM Mem α}
    {q : BtreeM (PageCache Page Block) α} {f : α → Reply Tuple}
    (hp : op.onTree (nodeOps Mem.cache.toCacheOps) deg fuel = do return f (← p))
    (hsim : Sim E p q st t (fun a b st' t' => b = a ∧ ∃ V' h', Held c V' [] h' st' t') R) :
    Sim E p q st t (fun a b st' t' => b = a ∧ (tidyPager Mem.cache).Frame st.pager st'.pager ∧
      ∃ h', Held c ∅ [] h' st' t') R := by
  have hruns : Runs (tidyPager Mem.cache) st.pager (op.onTree (nodeOps Mem.cache.toCacheOps) deg fuel) h
      (fun r h' => ∃ L', StepPost False deg u h L op r h' L' ∧ KeepsCells h.nodes L op h'.nodes L') (fun _ => True)
      fun _ => True :=
    runs_mono (runs_onTree hb hdeg hu False.elim hfuel le_rfl) (fun _ _ hpost => hpost) (fun _ _ => trivial)
      fun _ hA => hA
  have hwp := hruns.wp st hs.ok ((tidyPager Mem.cache).frame_refl _) hs.heap_eq
  rw [hp] at hwp
  refine (hsim.and (wp_bind.mp hwp)).mono ?_ fun _ _ hR => hR
  rintro a b st' t' ⟨⟨ok', hframe, L', hpost, hkeeps⟩, rfl, V', h', hs'⟩
  obtain rfl := hs'.heap_eq
  have hcells := hkeeps K hop hK
  have hclean' := hclean.step hframe hpost.evolved
  exact ⟨rfl, hframe, _, hs'.rest (hs'.clean_none hclean' hcells hpost.balanced)⟩

end Kndb.Btree
