import Kndb.Btree.Heap
import Kndb.Pager.Invariant

namespace Kndb.Pager

open Imp Imp.Prog FSMPage FreeSpaceMap LawfulCache

variable {σ : Type} {C : LawfulCache σ} {m m' m'' : Mem} {N id : ℕ} {n : BtreeNodePage Tuple}

def nodeAt (m : Mem) (id : ℕ) : Option (BtreeNodePage Tuple) :=
  if id ∈ liveIds m then (m.view id).bind PageClass.cast else none

theorem nodeAt_eq_some : nodeAt m id = some n ↔ id ∈ liveIds m ∧ m.view id = some (.node n) := by
  rw [nodeAt]
  split
  · rename_i hlive
    rw [and_iff_right hlive]
    constructor
    · intro h
      obtain ⟨p, hp, hn⟩ := Option.bind_eq_some_iff.mp h
      cases p <;> cases hn
      exact hp
    · intro h
      rw [h]
      rfl
  · rename_i hlive
    exact iff_of_false (by simp) fun h => hlive h.1

theorem nodeAt_congr (hlive : id ∈ liveIds m' ↔ id ∈ liveIds m) (hview : m'.view id = m.view id) :
    nodeAt m' id = nodeAt m id := by
  simp only [nodeAt, hlive, hview]

/-- What no operation on the nodes does: pages that are not nodes stay as they are, and as long as no
page is new so does everything that is not a live node. -/
structure Frame (m m' : Mem) : Prop where
  live : liveIds m ⊆ liveIds m'
  new : ∀ x ∈ liveIds m', x ∉ liveIds m → (nodeAt m' x).isSome
  nodes : ∀ x, (nodeAt m x).isSome → (nodeAt m' x).isSome
  other : ∀ x ∈ liveIds m, nodeAt m x = none → m'.view x = m.view x
  same : liveIds m' = liveIds m →
    m'.blocks = m.blocks ∧ ∀ x, nodeAt m x = none → m'.view x = m.view x

theorem Frame.refl (m : Mem) : Frame m m :=
  ⟨subset_rfl, fun _ hx hnot => absurd hx hnot, fun _ => id, fun _ _ _ => rfl, fun _ => ⟨rfl, fun _ _ => rfl⟩⟩

theorem Frame.nodeAt_eq_none (h : Frame m m') {x : ℕ} (hx : x ∈ liveIds m) (hn : nodeAt m x = none) :
    nodeAt m' x = none := by
  rw [nodeAt_congr (iff_of_true (h.live hx) hx) (h.other x hx hn), hn]

theorem Frame.trans (h : Frame m m') (h' : Frame m' m'') : Frame m m'' := by
  refine ⟨h.live.trans h'.live, fun x hx hnot => ?_, fun x hx => h'.nodes x (h.nodes x hx),
    fun x hx hn => ?_, fun heq => ?_⟩
  · by_cases hx' : x ∈ liveIds m'
    · exact h'.nodes x (h.new x hx' hnot)
    · exact h'.new x hx hx'
  · rw [h'.other x (h.live hx) (h.nodeAt_eq_none hx hn), h.other x hx hn]
  · have hmid : liveIds m' = liveIds m := (h'.live.trans_eq heq).antisymm h.live
    obtain ⟨hb, hv⟩ := h.same hmid
    obtain ⟨hb', hv'⟩ := h'.same (heq.trans hmid.symm)
    refine ⟨hb'.trans hb, fun x hn => ?_⟩
    have hn' : nodeAt m' x = none := by
      rw [nodeAt_congr (by rw [hmid]) (hv x hn), hn]
    rw [hv' x hn', hv x hn]

theorem Step.frame_of_node (h : Step m m' (insert id (liveIds m))) (hid : id ∉ liveIds m)
    (hview : m'.view id = some (.node n)) :
    nodeAt m' = Function.update (nodeAt m) id (some n) ∧ Frame m m' := by
  have hself : nodeAt m' id = some n := by
    rw [nodeAt_eq_some, h.live]
    exact ⟨Finset.mem_insert_self .., hview⟩
  have hat : ∀ x, x ≠ id → nodeAt m' x = nodeAt m x := by
    intro x hx
    have hlive : x ∈ liveIds m' ↔ x ∈ liveIds m := by
      rw [h.live, Finset.mem_insert, or_iff_right hx]
    by_cases hm : x ∈ liveIds m
    · exact nodeAt_congr hlive (h.frame x hm)
    · rw [nodeAt, nodeAt, if_neg hm, if_neg (hlive.not.mpr hm)]
  refine ⟨?_, ?_, fun x hx hnot => ?_, fun x hx => ?_, fun x hx _ => h.frame x hx, fun heq => ?_⟩
  · funext x
    by_cases hx : x = id
    · subst hx
      rw [hself, Function.update_self]
    · rw [hat x hx, Function.update_of_ne hx]
  · rw [h.live]
    exact Finset.subset_insert ..
  · rw [h.live, Finset.mem_insert, or_iff_left hnot] at hx
    rw [hx, hself]
    rfl
  · by_cases hxid : x = id
    · rw [hxid, hself]
      rfl
    · rwa [hat x hxid]
  · rw [h.live] at heq
    exact absurd (heq ▸ Finset.mem_insert_self id (liveIds m)) hid

theorem frame_set_node {n' : BtreeNodePage Tuple} (h : Inv m N) (hn : nodeAt m id = some n) :
    Inv (m.set id (.node n')) N ∧ liveIds (m.set id (.node n')) = liveIds m ∧
      nodeAt (m.set id (.node n')) = Function.update (nodeAt m) id (some n') ∧
      Frame m (m.set id (.node n')) := by
  obtain ⟨hlive, hview⟩ := nodeAt_eq_some.mp hn
  obtain ⟨hinv, hids⟩ := h.set ((mem_liveIds h.blocks).mp hlive).2.1 (.node n')
  have hself : nodeAt (m.set id (.node n')) id = some n' := by
    rw [nodeAt_eq_some, hids]
    exact ⟨hlive, Mem.set_self ..⟩
  have hat : ∀ x, x ≠ id → nodeAt (m.set id (.node n')) x = nodeAt m x := fun x hx =>
    nodeAt_congr (by rw [hids]) (Mem.set_of_ne hx ..)
  -- what is no node of a tree is not the page that has changed
  have hother : ∀ x, nodeAt m x = none → (m.set id (.node n')).view x = m.view x := by
    intro x hx
    apply Mem.set_of_ne
    rintro rfl
    rw [hn] at hx
    cases hx
  refine ⟨hinv, hids, ?_, hids.ge, fun x hx hnot => ?_, fun x hx => ?_, fun x _ hx => hother x hx,
    fun _ => ⟨rfl, hother⟩⟩
  · funext x
    by_cases hx : x = id
    · subst hx
      rw [hself, Function.update_self]
    · rw [hat x hx, Function.update_of_ne hx]
  · rw [hids] at hx
    exact absurd hx hnot
  · by_cases hxid : x = id
    · rw [hxid, hself]
      rfl
    · rwa [hat x hxid]

theorem frame_set_other {p : Page} (h : Inv m N) (hlive : id ∈ liveIds m) (hn : nodeAt m id = none)
    (hp : (PageClass.cast p : Option (BtreeNodePage Tuple)) = none) :
    Inv (m.set id p) N ∧ liveIds (m.set id p) = liveIds m ∧ nodeAt (m.set id p) = nodeAt m := by
  obtain ⟨hinv, hids⟩ := h.set ((mem_liveIds h.blocks).mp hlive).2.1 p
  refine ⟨hinv, hids, ?_⟩
  funext x
  by_cases hx : x = id
  · subst hx
    rw [hn, nodeAt, hids, if_pos hlive, Mem.set_self]
    exact hp
  · exact nodeAt_congr (by rw [hids]) (Mem.set_of_ne hx ..)

/-- The number of pages that can still be created. -/
def remaining (m : Mem) : ℕ := capacity - (liveIds m).card

theorem Inv.card_liveIds_le (h : Inv m N) : (liveIds m).card ≤ capacity := by
  have hcard := h.card_liveIds
  have hle := h.le
  have hB : getBlocksInPage = 32672 := rfl
  rw [MAX_FSMPAGES] at hle
  rw [hB] at hcard
  rw [capacity, MAX_FSMPAGES, hB]
  omega

theorem Inv.eq_of_remaining_lt (h : Inv m N) (hlt : remaining m < getBlocksInPage - 1) : N = MAX_FSMPAGES := by
  have hcard := h.card_liveIds
  have hle := h.le
  have hB : getBlocksInPage = 32672 := rfl
  rw [MAX_FSMPAGES] at hle ⊢
  rw [remaining, capacity, MAX_FSMPAGES] at hlt
  rw [hB] at hcard hlt
  omega

variable {s : σ} {n' : BtreeNodePage Tuple}

theorem store_node (ok : C.Ok s) (hn : nodeAt (C.mem s) id = some n) (hid : n'.pageID = id) :
    C.Ok ((nodeOps C.toCacheOps).store id n' s) ∧
      C.mem ((nodeOps C.toCacheOps).store id n' s) = (C.mem s).set id (.node n') := by
  obtain ⟨ok', hv, hb⟩ := C.store_eq ok (nodeAt_eq_some.mp hn).2 (show (Page.node n').pageID = id from hid) rfl
  exact ⟨ok', Mem.ext hv hb⟩

theorem remaining_eq_zero (h : Inv m N) : remaining m = 0 ↔ (liveIds m).card = capacity := by
  have := h.card_liveIds_le
  rw [remaining]
  omega

theorem Step.remaining (hinv : Inv m' N) (h : Step m m' (insert id (liveIds m))) (hid : id ∉ liveIds m) :
    remaining m = remaining m' + 1 := by
  have hcard : (liveIds m').card = (liveIds m).card + 1 := by
    rw [h.live, Finset.card_insert_of_notMem hid]
  have := hinv.card_liveIds_le
  rw [Pager.remaining, Pager.remaining]
  omega

theorem getPage_node (ok : C.Ok s) (hinv : Inv (C.mem s) N) (hn : nodeAt (C.mem s) id = some n) :
    ∃ s', (nodeOps C.toCacheOps).getPage id s = .ok id s' ∧ C.Ok s' ∧ C.mem s' = C.mem s := by
  obtain ⟨hlive, hview⟩ := nodeAt_eq_some.mp hn
  exact (returns_getPage hinv hlive hview).start ok

theorem createNewPage_node {mk : ℕ → BtreeNodePage Tuple} (ok : C.Ok s) (hinv : Inv (C.mem s) N)
    (hmk : ∀ id, (mk id).pageID = id) (ha : remaining (C.mem s) ≠ 0) :
    ∃ id s', (nodeOps C.toCacheOps).createNewPage mk s = .ok id s' ∧ C.Ok s' ∧ (∃ N, Inv (C.mem s') N) ∧
      nodeAt (C.mem s) id = none ∧ nodeAt (C.mem s') = Function.update (nodeAt (C.mem s)) id (some (mk id)) ∧
      remaining (C.mem s) = remaining (C.mem s') + 1 ∧ Frame (C.mem s) (C.mem s') ∧
      (Tidy (C.mem s) → Tidy (C.mem s')) := by
  rw [ne_eq, remaining_eq_zero hinv] at ha
  obtain ⟨id, m', hret, -, -, hnot, hview, hother, hstep⟩ := returns_placePage (C := C) hinv
    (show ∀ id, (Page.node (mk id)).pageID = id from hmk) (fun _ => rfl) ha
  obtain ⟨s', hs', ok', rfl⟩ := hret.start ok
  obtain ⟨hat, hframe⟩ := hstep.frame_of_node hnot hview
  obtain ⟨N', hinv'⟩ := hstep.inv
  exact ⟨id, s', hs', ok', ⟨N', hinv'⟩, if_neg hnot, hat, hstep.remaining hinv' hnot, hframe, hstep.tidy hother⟩

theorem createNewPage_node_full (mk : ℕ → BtreeNodePage Tuple) (ok : C.Ok s) (hinv : Inv (C.mem s) N)
    (ha : remaining (C.mem s) = 0) :
    ∃ s', (nodeOps C.toCacheOps).createNewPage mk s = .throw sizeLimit s' ∧ C.Ok s' ∧ C.mem s' = C.mem s :=
  throws_placePage (C := C) hinv ((remaining_eq_zero hinv).mp ha) .node (fun id => .node (mk id)) s ok rfl

def nodePager (C : LawfulCache σ) : LawfulPager σ Tuple where
  toPagerOps := nodeOps C.toCacheOps
  Ok s := C.Ok s ∧ ∃ N, Inv (C.mem s) N
  view s := nodeAt (C.mem s)
  avail s := remaining (C.mem s)
  Full e := e = sizeLimit
  Frame s s' := Frame (C.mem s) (C.mem s')
  frame_refl s := .refl _
  frame_trans h h' := h.trans h'
  pageID_eq ok hn := C.pageID_eq ok.1 (nodeAt_eq_some.mp hn).2
  getPage_eq ok hn := by
    obtain ⟨ok, N, hinv⟩ := ok
    obtain ⟨s', hs', ok', hmem⟩ := getPage_node ok hinv hn
    exact ⟨s', hs', ⟨ok', N, hmem ▸ hinv⟩, by rw [hmem], by rw [hmem], hmem ▸ .refl _⟩
  load_eq ok hn := by
    unfold nodeOps
    dsimp only
    rw [C.load_eq ok.1 (nodeAt_eq_some.mp hn).2]
    rfl
  store_ok ok hn hid := by
    obtain ⟨ok, N, hinv⟩ := ok
    obtain ⟨ok', hmem⟩ := store_node ok hn hid
    exact ⟨ok', N, hmem ▸ (frame_set_node hinv hn).1⟩
  store_view ok hn hid := by
    obtain ⟨ok, N, hinv⟩ := ok
    exact (congrArg nodeAt (store_node ok hn hid).2).trans (frame_set_node hinv hn).2.2.1
  store_avail {s id n n'} ok hn hid := by
    obtain ⟨ok, N, hinv⟩ := ok
    rw [(store_node ok hn hid).2, remaining, (frame_set_node hinv hn).2.1, remaining]
  store_frame ok hn hid := by
    obtain ⟨ok, N, hinv⟩ := ok
    exact (congrArg (Frame _) (store_node ok hn hid).2).mpr (frame_set_node hinv hn).2.2.2
  create_some {s} mk ok hmk ha := by
    obtain ⟨ok, N, hinv⟩ := ok
    obtain ⟨id, s', hs', ok', hinv', hnone, hat, hrem, hframe, -⟩ :=
      createNewPage_node ok hinv hmk (by exact_mod_cast ha)
    exact ⟨id, s', hs', ⟨ok', hinv'⟩, hnone, hat, by exact_mod_cast hrem, hframe⟩
  create_none {s} mk ok ha := by
    obtain ⟨ok, N, hinv⟩ := ok
    have ha : remaining (C.mem s) = 0 := by exact_mod_cast ha
    obtain ⟨s', hs', ok', hmem⟩ := createNewPage_node_full mk ok hinv ha
    refine ⟨sizeLimit, s', hs', rfl, ⟨ok', N, hmem ▸ hinv⟩, by rw [hmem], ?_, hmem ▸ .refl _⟩
    rw [hmem, ha]
    rfl

/-- The same pager, which leaves no page behind that is not live. -/
def tidyPager (C : LawfulCache σ) : LawfulPager σ Tuple where
  __ := nodePager C
  Frame s s' := Frame (C.mem s) (C.mem s') ∧ (Tidy (C.mem s) → Tidy (C.mem s'))
  frame_refl s := ⟨.refl _, fun ht => ht⟩
  frame_trans h h' := ⟨h.1.trans h'.1, fun ht => h'.2 (h.2 ht)⟩
  getPage_eq ok hn := by
    obtain ⟨s', hs', ok', hmem⟩ := getPage_node ok.1 ok.2.choose_spec hn
    have hinv' : ∃ N, Inv (C.mem s') N := hmem ▸ ok.2
    exact ⟨s', hs', ⟨ok', hinv'⟩, congrArg nodeAt hmem, congrArg (fun m => (remaining m : ℕ∞)) hmem,
      hmem ▸ .refl _, fun ht => hmem ▸ ht⟩
  store_frame ok hn hid := by
    obtain ⟨N, hinv⟩ := ok.2
    refine ⟨(nodePager C).store_frame ok hn hid, fun ht => ?_⟩
    exact (congrArg Tidy (store_node ok.1 hn hid).2).mpr (ht.set hinv (nodeAt_eq_some.mp hn).1 _)
  create_some {s} mk ok hmk ha := by
    obtain ⟨ok, N, hinv⟩ := ok
    have ha : (remaining (C.mem s) : ℕ∞) ≠ 0 := ha
    obtain ⟨id, s', hs', ok', hinv', hnone, hat, hrem, hframe⟩ :=
      createNewPage_node ok hinv hmk (by exact_mod_cast ha)
    exact ⟨id, s', hs', ⟨ok', hinv'⟩, hnone, hat, congrArg Nat.cast hrem, hframe⟩
  create_none {s} mk ok ha := by
    obtain ⟨ok, N, hinv⟩ := ok
    have ha : (remaining (C.mem s) : ℕ∞) = 0 := ha
    obtain ⟨s', hs', ok', hmem⟩ := createNewPage_node_full mk ok hinv (by exact_mod_cast ha)
    have hrem : (remaining (C.mem s') : ℕ∞) = 0 := hmem ▸ ha
    exact ⟨sizeLimit, s', hs', rfl, ⟨ok', N, hmem ▸ hinv⟩, congrArg nodeAt hmem, hrem, hmem ▸ .refl _,
      fun ht => hmem ▸ ht⟩

end Kndb.Pager
