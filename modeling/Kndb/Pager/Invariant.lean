import Mathlib.Algebra.Order.BigOperators.Group.Finset
import Kndb.FreeSpaceMap.Operations
import Kndb.Pager

namespace Kndb.Pager

open Imp.Prog FSMPage FreeSpaceMap LawfulCache

variable {σ : Type} {C : LawfulCache σ} {m m' : Mem} {N id : ℕ}

/-- The ids of the pages in use that are not bitmaps. -/
def liveIds (m : Mem) : Finset ℕ :=
  {id ∈ Finset.range m.blocks | id % getBlocksInPage ≠ 0 ∧ used m.view id = true}

/-- The number of pages that can be live at once. -/
def capacity : ℕ := MAX_FSMPAGES * (getBlocksInPage - 1)

/-- The file has `N` bitmaps and the blocks they stand for. -/
structure Inv (m : Mem) (N : ℕ) : Prop where
  blocks : m.blocks = N * getBlocksInPage
  le : N ≤ MAX_FSMPAGES
  fsm : N ≠ 0 → ∃ chain, FreeSpaceMap.Inv m.view N chain

theorem Inv.fsm_of_lt (h : Inv m N) (hid : id < N * getBlocksInPage) :
    ∃ chain, FreeSpaceMap.Inv m.view N chain := by
  apply h.fsm
  rintro rfl
  rw [Nat.zero_mul] at hid
  exact absurd hid (Nat.not_lt_zero id)

theorem mem_liveIds (h : m.blocks = N * getBlocksInPage) :
    id ∈ liveIds m ↔ id < N * getBlocksInPage ∧ id % getBlocksInPage ≠ 0 ∧
      id ∉ freeIds m.view N := by
  rw [liveIds, Finset.mem_filter, Finset.mem_range, h]
  refine and_congr_right fun hid => and_congr_right fun _ => ?_
  rw [← used_eq_false_iff hid, Bool.not_eq_false]

def fsmIds (N : ℕ) : Finset ℕ := (Finset.range N).image (· * getBlocksInPage)

theorem mem_fsmIds : id ∈ fsmIds N ↔ IsFSM N id := by
  rw [fsmIds, Finset.mem_image]
  constructor
  · rintro ⟨k, hk, rfl⟩
    exact ⟨Nat.mul_mod_left .., Nat.mul_lt_mul_of_pos_right (Finset.mem_range.mp hk) getBlocksInPage_pos⟩
  · rintro ⟨hmod, hlt⟩
    obtain ⟨k, rfl⟩ := Nat.dvd_of_mod_eq_zero hmod
    rw [Nat.mul_comm, Nat.mul_lt_mul_right getBlocksInPage_pos] at hlt
    exact ⟨k, Finset.mem_range.mpr hlt, Nat.mul_comm ..⟩

theorem card_fsmIds (N : ℕ) : (fsmIds N).card = N := by
  rw [fsmIds, Finset.card_image_of_injective, Finset.card_range]
  exact fun a b hab => Nat.eq_of_mul_eq_mul_right getBlocksInPage_pos hab

/-- Every id below the end of the file is live, free or a bitmap. -/
theorem Inv.card_liveIds (h : Inv m N) :
    (liveIds m).card + (freeIds m.view N).card + N = N * getBlocksInPage := by
  have hfree : ∀ x ∈ freeIds m.view N, ¬IsFSM N x := by
    intro x hx hfsm
    obtain ⟨chain, hinv⟩ := h.fsm_of_lt hfsm.2
    exact hinv.not_mem_freeIds hfsm hx
  -- an id is that of a bitmap, free, or live, and never two of these
  have hsplit : Finset.range (N * getBlocksInPage) = liveIds m ∪ freeIds m.view N ∪ fsmIds N := by
    ext x
    rw [Finset.mem_union, Finset.mem_union, mem_liveIds h.blocks, mem_fsmIds, Finset.mem_range]
    constructor
    · intro hx
      by_cases hmod : x % getBlocksInPage = 0
      · exact .inr ⟨hmod, hx⟩
      · by_cases hf : x ∈ freeIds m.view N
        · exact .inl (.inr hf)
        · exact .inl (.inl ⟨hx, hmod, hf⟩)
    · rintro ((hx | hx) | hx)
      · exact hx.1
      · exact (mem_freeIds.mp hx).1
      · exact hx.2
  have h1 : Disjoint (liveIds m) (freeIds m.view N) := by
    rw [Finset.disjoint_left]
    exact fun x hx => ((mem_liveIds h.blocks).mp hx).2.2
  have h2 : Disjoint (liveIds m ∪ freeIds m.view N) (fsmIds N) := by
    rw [Finset.disjoint_left]
    intro x hx hfsm
    rw [mem_fsmIds] at hfsm
    rcases Finset.mem_union.mp hx with hx | hx
    · exact ((mem_liveIds h.blocks).mp hx).2.1 hfsm.1
    · exact hfree x hx hfsm
  rw [← Finset.card_range (N * getBlocksInPage), hsplit, Finset.card_union_of_disjoint h2,
    Finset.card_union_of_disjoint h1, card_fsmIds]

/-- The file is full exactly if it has all its bitmaps and none has a free bit. -/
theorem Inv.card_eq_capacity_iff (h : Inv m N) :
    (liveIds m).card = capacity ↔ N = MAX_FSMPAGES ∧ freeIds m.view N = ∅ := by
  have hcard := h.card_liveIds
  have hle := h.le
  have hB : getBlocksInPage = 32672 := rfl
  rw [← Finset.card_eq_zero]
  rw [MAX_FSMPAGES] at hle
  rw [hB] at hcard
  rw [capacity, MAX_FSMPAGES, hB]
  omega

/-- There are no pages but bitmaps and those of live ids. -/
def Tidy (m : Mem) : Prop := ∀ x, x % getBlocksInPage ≠ 0 → x ∉ liveIds m → m.view x = none

theorem Tidy.of_frame (h : Tidy m) (hlive : liveIds m ⊆ liveIds m')
    (hview : ∀ x, x % getBlocksInPage ≠ 0 → x ∉ liveIds m' → m'.view x = m.view x) : Tidy m' := by
  intro x hx hnot
  rw [hview x hx hnot]
  exact h x hx fun hmem => hnot (hlive hmem)

/-- A step of the pager: the live ids change as given, and their pages stay. -/
structure Step (m m' : Mem) (live : Finset ℕ) : Prop where
  inv : ∃ N, Inv m' N
  live : liveIds m' = live
  frame : ∀ x ∈ liveIds m, m'.view x = m.view x

theorem Inv.of_fsmStep (h : Inv m N) (hstep : FreeSpaceMap.Step N m m') : Inv m' N :=
  ⟨hstep.blocks.trans h.blocks, h.le, fun _ => hstep.inv⟩

theorem not_isFSM_of_live (hid : id ∈ liveIds m) : ¬IsFSM N id := fun hfsm =>
  (Finset.mem_filter.mp hid).2.1 hfsm.1

theorem returns_isFree (h : Inv m N) (id : ℕ) :
    C.Returns (isFree C.toCacheOps id) m
      (!decide (id ∈ liveIds m ∨ id % getBlocksInPage = 0 ∧ id < m.blocks)) m := by
  refine (returns_getNumBlocks m).bind ?_
  -- an id past the end of the file is in use by nobody
  by_cases hlt : m.blocks ≤ id
  · have : decide (id ∈ liveIds m ∨ id % getBlocksInPage = 0 ∧ id < m.blocks) = false := by
      apply decide_eq_false
      rintro (hlive | hfsm)
      · exact absurd ((mem_liveIds h.blocks).mp hlive).1 (h.blocks ▸ hlt.not_gt)
      · exact absurd hfsm.2 hlt.not_gt
    rw [if_pos hlt, this]
    exact returns_pure _ _
  · have hid : id < N * getBlocksInPage := h.blocks ▸ Nat.lt_of_not_le hlt
    obtain ⟨chain, hinv⟩ := h.fsm_of_lt hid
    have : decide (id ∈ liveIds m ∨ id % getBlocksInPage = 0 ∧ id < m.blocks) = used m.view id := by
      rw [Bool.eq_iff_iff, decide_eq_true_iff, mem_liveIds h.blocks, h.blocks,
        ← Bool.not_eq_false, used_eq_false_iff hid]
      constructor
      · rintro (hlive | hfsm)
        · exact hlive.2.2
        · exact hinv.not_mem_freeIds hfsm
      · intro hf
        by_cases hmod : id % getBlocksInPage = 0
        · exact .inr ⟨hmod, hid⟩
        · exact .inl ⟨hid, hmod, hf⟩
    rw [if_neg hlt, this]
    exact FreeSpaceMap.returns_isFree hinv.toPages hid

theorem Inv.congr (h : Inv m N) (hblocks : m'.blocks = m.blocks)
    (hv : ∀ q, q % getBlocksInPage = 0 → m'.view q = m.view q) :
    Inv m' N ∧ liveIds m' = liveIds m := by
  refine ⟨⟨hblocks.trans h.blocks, h.le, fun hN => ?_⟩, ?_⟩
  · obtain ⟨chain, hinv⟩ := h.fsm hN
    exact ⟨chain, hinv.congr fun q hq => hv q hq.1⟩
  · have hfree : freeIds m'.view N = freeIds m.view N := by
      apply freeIds_congr
      intro q hq
      rw [fsmAt_congr (hv q hq.1)]
    ext x
    rw [mem_liveIds h.blocks, mem_liveIds (hblocks.trans h.blocks), hfree]

theorem Inv.set (h : Inv m N) (hid : id % getBlocksInPage ≠ 0) (p : Page) :
    Inv (m.set id p) N ∧ liveIds (m.set id p) = liveIds m := by
  refine h.congr (Mem.set_blocks ..) fun q hq => ?_
  apply Mem.set_of_ne
  rintro rfl
  exact hid hq

theorem Inv.of_live (h : Inv m N) (hid : id ∈ liveIds m) : (∃ chain, FreeSpaceMap.Inv m.view N chain) ∧
    id < N * getBlocksInPage ∧ (!!used m.view id) = true := by
  obtain ⟨hlt, -, hfree⟩ := (mem_liveIds h.blocks).mp hid
  refine ⟨h.fsm_of_lt hlt, hlt, ?_⟩
  rw [Bool.not_not, ← Bool.not_eq_false, used_eq_false_iff hlt]
  exact hfree

theorem returns_getPage (h : Inv m N) (hid : id ∈ liveIds m) {p : Page} (hp : m.view id = some p) :
    C.Returns (getPage C.toCacheOps p.type id) m id m := by
  obtain ⟨⟨chain, hinv⟩, hlt, hused⟩ := h.of_live hid
  refine (returns_getNumBlocks m).bind ?_
  refine (returns_require _ (decide_eq_true (h.blocks ▸ hlt)) _).bind ?_
  refine (FreeSpaceMap.returns_isFree hinv.toPages hlt).bind ?_
  exact (returns_require _ hused _).bind (returns_retrievePage hp)

theorem liveIds_grow (h : Inv m N) (hblocks : m'.blocks = (N + 1) * getBlocksInPage)
    (hfree : freeIds m'.view (N + 1) = freeIds m.view N ∪
      Finset.Ioo (N * getBlocksInPage) ((N + 1) * getBlocksInPage)) : liveIds m' = liveIds m := by
  have hmul : (N + 1) * getBlocksInPage = N * getBlocksInPage + getBlocksInPage := Nat.succ_mul ..
  ext x
  rw [mem_liveIds h.blocks, mem_liveIds hblocks, hfree, Finset.mem_union, Finset.mem_Ioo]
  by_cases hx : x = N * getBlocksInPage
  · subst hx
    simp
  · constructor
    · rintro ⟨hlt, hmod, hnot⟩
      exact ⟨by omega, hmod, fun hf => hnot (.inl hf)⟩
    · rintro ⟨hlt, hmod, hnot⟩
      exact ⟨by omega, hmod, fun hf => hnot (hf.resolve_right (by omega))⟩

theorem returns_createFSMPage (h : Inv m N) (hN : N ≠ MAX_FSMPAGES) :
    ∃ m', C.Returns (createFSMPage C.toCacheOps) m () m' ∧ Inv m' (N + 1) ∧
      liveIds m' = liveIds m ∧ freeIds m'.view (N + 1) ≠ ∅ ∧
      ∀ x, x % getBlocksInPage ≠ 0 → m'.view x = m.view x := by
  have hlt : N < MAX_FSMPAGES := h.le.lt_of_ne hN
  have hmul : (N + 1) * getBlocksInPage = N * getBlocksInPage + getBlocksInPage := Nat.succ_mul ..
  have hnum : m.blocks / getBlocksInPage ≠ MAX_FSMPAGES := by
    rw [h.blocks, Nat.mul_div_cancel _ getBlocksInPage_pos]
    exact hN
  have hgrow : m.blocks + getBlocksInPage ≤ MAX_FSMPAGES * getBlocksInPage := by
    rw [h.blocks, ← hmul]
    exact Nat.mul_le_mul_right _ hlt
  have hne : ∀ {v}, freeIds v (N + 1) = freeIds m.view N ∪
      Finset.Ioo (N * getBlocksInPage) ((N + 1) * getBlocksInPage) → freeIds v (N + 1) ≠ ∅ := by
    intro v hv
    rw [hv]
    refine Finset.ne_empty_of_mem (a := N * getBlocksInPage + 1) (Finset.mem_union_right _ ?_)
    rw [Finset.mem_Ioo]
    have : 1 < getBlocksInPage := by decide
    omega
  let m₁ : Mem := { m with blocks := m.blocks + getBlocksInPage }
  let m₂ : Mem := m₁.set m.blocks (.fsm (.new m.blocks))
  have hinsert : ∀ {m'}, C.Returns (if m.blocks ≠ 0 then
      linkFSMPage C.toCacheOps m.blocks else pure ()) m₂ () m' →
      C.Returns (createFSMPage C.toCacheOps) m () m' := by
    intro m' hrest
    refine (returns_getNumBlocks m).bind ?_
    rw [if_neg hnum]
    refine (returns_createMultipleBlocks getBlocksInPage_pos hgrow).bind ?_
    exact (returns_insertPage (m := m₁) (.fsm (.new m.blocks))
      (Nat.lt_add_of_pos_right getBlocksInPage_pos)).bind hrest
  have hblocks : m₂.blocks = (N + 1) * getBlocksInPage := by
    rw [hmul, ← h.blocks]
    rfl
  have hnew : m₂.view (N * getBlocksInPage) = some (.fsm (.new (N * getBlocksInPage))) := by
    rw [← h.blocks]
    exact Mem.set_self ..
  have hframe : ∀ x < m.blocks, m₂.view x = m.view x := fun x hx => Mem.set_of_ne hx.ne _ m₁
  have hother : ∀ x, x % getBlocksInPage ≠ 0 → m₂.view x = m.view x := by
    intro x hx
    refine Mem.set_of_ne ?_ _ m₁
    rintro rfl
    exact hx (h.blocks ▸ Nat.mul_mod_left ..)
  -- no earlier bitmap is changed by the insertion, so no earlier block changes its state
  have hids : freeIds m₂.view N = freeIds m.view N := by
    apply freeIds_congr
    intro q hq
    rw [fsmAt_congr (hframe q (h.blocks ▸ hq.2))]
  rcases Nat.eq_zero_or_pos N with rfl | hpos
  · have h0 : m.blocks = 0 := by rw [h.blocks, Nat.zero_mul]
    have hfree := (freeIds_succ hnew).trans (congrArg (· ∪ _) hids)
    refine ⟨m₂, hinsert ?_, ⟨hblocks, hlt, fun _ => ⟨[], inv_start ?_⟩⟩, liveIds_grow h hblocks hfree,
      hne hfree, hother⟩
    · rw [if_neg (not_not.mpr h0)]
      exact returns_pure _ _
    · rwa [Nat.zero_mul] at hnew
  · obtain ⟨chain, hinv⟩ := h.fsm hpos.ne'
    have hinv₂ : FreeSpaceMap.Inv m₂.view N chain :=
      hinv.congr fun q hq => hframe q (h.blocks ▸ hq.2)
    have hsmall : N * getBlocksInPage < 2 ^ 32 :=
      (Nat.mul_le_mul_right _ h.le).trans_lt (by decide)
    obtain ⟨hstep, hlink⟩ := step_link hinv₂ hsmall hnew
    have hfree := hlink.trans (congrArg (· ∪ _) hids)
    have hblk : (pushed m₂ (N * getBlocksInPage)).blocks = (N + 1) * getBlocksInPage :=
      hstep.blocks.trans hblocks
    refine ⟨_, hinsert ?_, ⟨hblk, hlt, fun _ => hstep.inv⟩, liveIds_grow h hblk hfree, hne hfree,
      fun x hx => ?_⟩
    · rw [h.blocks, if_pos (Nat.mul_pos hpos getBlocksInPage_pos).ne']
      exact returns_linkFSMPage hinv₂ hsmall hnew
    · rw [hstep.frame x fun hfsm => hx hfsm.1, hother x hx]

theorem returns_fsmPageNeeded (h : Inv m N) :
    C.Returns (fsmPageNeeded C.toCacheOps) m (decide (freeIds m.view N = ∅)) m := by
  refine (returns_getNumBlocks m).bind ?_
  by_cases hN : N = 0
  · subst hN
    rw [if_pos (by rw [h.blocks, Nat.zero_mul]), decide_eq_true (by simp [freeIds])]
    exact returns_pure _ _
  · have hpos : m.blocks ≠ 0 := by
      rw [h.blocks]
      exact (Nat.mul_pos (Nat.pos_of_ne_zero hN) getBlocksInPage_pos).ne'
    obtain ⟨chain, hinv⟩ := h.fsm hN
    rw [if_neg hpos]
    exact returns_isFull hinv

theorem returns_allocBit (h : Inv m N) (hne : freeIds m.view N ≠ ∅) :
    ∃ id m', C.Returns (allocBit C.toCacheOps) m id m' ∧ id < m'.blocks ∧
      id % getBlocksInPage ≠ 0 ∧ id ∉ liveIds m ∧ (∀ x, x % getBlocksInPage ≠ 0 → m'.view x = m.view x) ∧
      Step m m' (insert id (liveIds m)) := by
  have hN : N ≠ 0 := by
    rintro rfl
    simp [freeIds] at hne
  obtain ⟨chain, hinv⟩ := h.fsm hN
  obtain ⟨id, hid, m', hret, hstep, hids⟩ := FreeSpaceMap.returns_allocBit (C := C) hinv hne
  have hlt := (mem_freeIds.mp hid).1
  have hmod : id % getBlocksInPage ≠ 0 := fun hmod => hinv.not_mem_freeIds ⟨hmod, hlt⟩ hid
  have hsmall : id < 2 ^ 32 := hlt.trans_le ((Nat.mul_le_mul_right _ h.le).trans (by decide))
  rw [Nat.mod_eq_of_lt hsmall] at hret
  refine ⟨id, m', hret, by rwa [hstep.blocks, h.blocks], hmod, ?_,
    fun x hx => hstep.frame x fun hfsm => hx hfsm.1, ⟨N, h.of_fsmStep hstep⟩, ?_,
    fun x hx => hstep.frame x (not_isFSM_of_live hx)⟩
  · exact fun hlive => ((mem_liveIds h.blocks).mp hlive).2.2 hid
  · ext x
    rw [Finset.mem_insert, mem_liveIds (hstep.blocks.trans h.blocks), mem_liveIds h.blocks, hids,
      Finset.mem_erase]
    by_cases hx : x = id
    · subst hx
      simp [hlt, hmod]
    · simp [hx]

theorem returns_allocPageID (h : Inv m N) (hfull : (liveIds m).card ≠ capacity) :
    ∃ id m', C.Returns (allocPageID C.toCacheOps) m id m' ∧ id < m'.blocks ∧
      id % getBlocksInPage ≠ 0 ∧ id ∉ liveIds m ∧ (∀ x, x % getBlocksInPage ≠ 0 → m'.view x = m.view x) ∧
      Step m m' (insert id (liveIds m)) := by
  have hneeded := returns_fsmPageNeeded (C := C) h
  by_cases hempty : freeIds m.view N = ∅
  · have hN : N ≠ MAX_FSMPAGES := fun hN => hfull (h.card_eq_capacity_iff.mpr ⟨hN, hempty⟩)
    rw [decide_eq_true hempty] at hneeded
    obtain ⟨m₁, hgrow, h₁, hlive, hne, hframe⟩ := returns_createFSMPage (C := C) h hN
    obtain ⟨id, m', hret, hlt, hmod, hnot, hframe', hinv, hlive', -⟩ := returns_allocBit (C := C) h₁ hne
    rw [hlive] at hnot hlive'
    have hsame : ∀ x, x % getBlocksInPage ≠ 0 → m'.view x = m.view x := fun x hx =>
      (hframe' x hx).trans (hframe x hx)
    exact ⟨id, m', hneeded.bind (hgrow.bind hret), hlt, hmod, hnot, hsame, hinv, hlive',
      fun x hx => hsame x (Finset.mem_filter.mp hx).2.1⟩
  · rw [decide_eq_false hempty] at hneeded
    obtain ⟨id, m', hret, hpost⟩ := returns_allocBit (C := C) h hempty
    exact ⟨id, m', hneeded.bind hret, hpost⟩

theorem throws_allocPageID (h : Inv m N) (hfull : (liveIds m).card = capacity) :
    C.Throws (allocPageID C.toCacheOps) m sizeLimit m := by
  obtain ⟨hN, hempty⟩ := h.card_eq_capacity_iff.mp hfull
  have hneeded := returns_fsmPageNeeded (C := C) h
  have hnum : m.blocks / getBlocksInPage = MAX_FSMPAGES := by
    rw [h.blocks, Nat.mul_div_cancel _ getBlocksInPage_pos, hN]
  rw [decide_eq_true hempty] at hneeded
  refine hneeded.throws (Throws.bind ((returns_getNumBlocks m).throws ?_))
  rw [if_pos hnum]
  exact (throws_raise _ m).bind

theorem throws_placePage (h : Inv m N) (hfull : (liveIds m).card = capacity) (T : PageType)
    (mk : ℕ → Page) : C.Throws (placePage C.toCacheOps T mk) m sizeLimit m :=
  (throws_allocPageID h hfull).bind

theorem returns_placePage_of_alloc {T : PageType} {mk : ℕ → Page} {m₁ : Mem} (h : Inv m₁ N)
    (hret : C.Returns (allocPageID C.toCacheOps) m id m₁) (hlt : id < m₁.blocks) (hmod : id % getBlocksInPage ≠ 0)
    (hlive : id ∈ liveIds m₁) (hid : (mk id).pageID = id) (htype : (mk id).type = T) :
    C.Returns (placePage C.toCacheOps T mk) m id (m₁.set id (mk id)) := by
  obtain ⟨h₂, hlive₂⟩ := h.set hmod (mk id)
  have hget := returns_getPage (C := C) h₂ (by rwa [hlive₂]) (Mem.set_self id (mk id) m₁)
  have hins := returns_insertPage (C := C) (m := m₁) (mk id) (by rwa [hid])
  rw [hid] at hins
  rw [htype] at hget
  exact hret.bind (hins.bind hget)

/-- A new page has an id that was not live, and the pages of the live ids stay. -/
theorem returns_placePage (h : Inv m N) {T : PageType} {mk : ℕ → Page} (hid : ∀ id, (mk id).pageID = id)
    (htype : ∀ id, (mk id).type = T) (hfull : (liveIds m).card ≠ capacity) :
    ∃ id m', C.Returns (placePage C.toCacheOps T mk) m id m' ∧ id < m'.blocks ∧
      id % getBlocksInPage ≠ 0 ∧ id ∉ liveIds m ∧ m'.view id = some (mk id) ∧
      (∀ x, x % getBlocksInPage ≠ 0 → x ≠ id → m'.view x = m.view x) ∧ Step m m' (insert id (liveIds m)) := by
  obtain ⟨id, m₁, hret, hlt, hmod, hnot, hother, ⟨N', h₁⟩, hlive, hframe⟩ :=
    returns_allocPageID (C := C) h hfull
  have hplace := returns_placePage_of_alloc h₁ hret hlt hmod (hlive ▸ Finset.mem_insert_self ..) (hid id) (htype id)
  obtain ⟨h₂, hlive₂⟩ := h₁.set hmod (mk id)
  refine ⟨id, _, hplace, hlt, hmod, hnot, Mem.set_self .., fun x hx hne => ?_, ⟨N', h₂⟩, hlive₂.trans hlive,
    fun x hx => ?_⟩
  · rw [Mem.set_of_ne hne, hother x hx]
  · rw [Mem.set_of_ne (ne_of_mem_of_not_mem hx hnot), hframe x hx]

theorem Step.tidy (h : Step m m' (insert id (liveIds m)))
    (hview : ∀ x, x % getBlocksInPage ≠ 0 → x ≠ id → m'.view x = m.view x) (ht : Tidy m) : Tidy m' := by
  have hlive : liveIds m ⊆ liveIds m' := h.live ▸ Finset.subset_insert ..
  refine ht.of_frame hlive fun x hx hnot => hview x hx ?_
  rintro rfl
  exact hnot (h.live ▸ Finset.mem_insert_self ..)

theorem Tidy.set (h : Tidy m) (hinv : Inv m N) (hid : id ∈ liveIds m) (p : Page) : Tidy (m.set id p) := by
  have hlive := (hinv.set (Finset.mem_filter.mp hid).2.1 p).2
  refine h.of_frame hlive.ge fun x _ hnot => Mem.set_of_ne ?_ ..
  rintro rfl
  exact hnot (hlive ▸ hid)

variable {args : PageArgs}

theorem createNewPage_eq {Ref : Type} {C : CacheOps Ref σ} (hargs : args.Accepts) :
    createNewPage C args = placePage C args.type args.page := by
  funext s
  rw [createNewPage, placePage, bind_apply, bind_apply, seq, seq]
  cases allocPageID C s with
  | ok id s' => exact bind_ok (PageArgs.construct_of_accepts hargs id s')
  | _ => rfl

theorem throws_createNewPage (h : Inv m N) (hfull : (liveIds m).card = capacity) :
    C.Throws (createNewPage C.toCacheOps args) m sizeLimit m := (throws_allocPageID h hfull).bind

theorem returns_createNewPage (h : Inv m N) (hargs : args.Accepts)
    (hfull : (liveIds m).card ≠ capacity) :
    ∃ id m', C.Returns (createNewPage C.toCacheOps args) m id m' ∧ id < m'.blocks ∧
      id % getBlocksInPage ≠ 0 ∧ id ∉ liveIds m ∧ m'.view id = some (args.page id) ∧
      (∀ x, x % getBlocksInPage ≠ 0 → x ≠ id → m'.view x = m.view x) ∧ Step m m' (insert id (liveIds m)) := by
  rw [createNewPage_eq hargs]
  exact returns_placePage h (fun _ => PageArgs.page_pageID _) (fun _ => PageArgs.page_type _) hfull

theorem aborts_createNewPage (h : Inv m N) (hargs : ¬args.Accepts)
    (hfull : (liveIds m).card ≠ capacity) {s : σ} (ok : C.Ok s) (hs : C.mem s = m) :
    ∃ msg, createNewPage C.toCacheOps args s = .abort msg := by
  obtain ⟨id, m₁, hret, -⟩ := returns_allocPageID (C := C) h hfull
  obtain ⟨s₁, hs₁, -⟩ := hret s ok hs
  obtain ⟨msg, hmsg⟩ := PageArgs.construct_of_not_accepts hargs id s₁
  refine ⟨msg, ?_⟩
  rw [createNewPage, bind_ok hs₁, bind_apply, seq, hmsg]

theorem returns_freePage (h : Inv m N) (hid : id ∈ liveIds m) :
    ∃ m', C.Returns (freePage C.toCacheOps id) m () m' ∧ Step m m' ((liveIds m).erase id) := by
  obtain ⟨-, hmod, hnot⟩ := (mem_liveIds h.blocks).mp hid
  obtain ⟨⟨chain, hinv⟩, hlt, hused⟩ := h.of_live hid
  obtain ⟨m', hret, hstep, hids⟩ := returns_freeBit (C := C) hinv hlt hnot hmod
  refine ⟨m', ?_, ⟨N, h.of_fsmStep hstep⟩, ?_, fun x hx => hstep.frame x (not_isFSM_of_live hx)⟩
  · refine (returns_getNumBlocks m).bind ?_
    refine (returns_require _ (decide_eq_true (h.blocks ▸ hlt)) _).bind ?_
    exact (FreeSpaceMap.returns_isFree hinv.toPages hlt).bind ((returns_require _ hused _).bind hret)
  · ext x
    rw [Finset.mem_erase, mem_liveIds (hstep.blocks.trans h.blocks), mem_liveIds h.blocks, hids,
      Finset.mem_insert, not_or]
    tauto

end Kndb.Pager
