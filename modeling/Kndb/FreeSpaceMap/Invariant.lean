import Kndb.FreeSpaceMap
import Kndb.LawfulCache
import Kndb.Library.Chain

namespace Kndb.FreeSpaceMap

open FSMPage Chain

def IsFSM (N id : ℕ) : Prop := id % getBlocksInPage = 0 ∧ id < N * getBlocksInPage

instance (N id : ℕ) : Decidable (IsFSM N id) := inferInstanceAs (Decidable (_ ∧ _))

/-- The id of the bitmap that is responsible for an id. -/
def bitmapOf (id : ℕ) : ℕ := id / getBlocksInPage * getBlocksInPage

/-- The bitmap at a page id; where there is none, a new one. -/
def fsmAt (view : ℕ → Option Page) (id : ℕ) : FSMPage :=
  match view id with
  | some (.fsm p) => p
  | _ => .new id

def next (view : ℕ → Option Page) (id : ℕ) : ℕ := (fsmAt view id).nextPageID

/-- The bit of an id in its bitmap. -/
def used (view : ℕ → Option Page) (id : ℕ) : Bool :=
  (fsmAt view (bitmapOf id)).used (id % getBlocksInPage)

/-- The ids with a free bit in the first `N` bitmaps. -/
def freeIds (view : ℕ → Option Page) (N : ℕ) : Finset ℕ :=
  {id ∈ Finset.range (N * getBlocksInPage) | used view id = false}

/-- The first `N` bitmaps are in place. -/
structure Pages (view : ℕ → Option Page) (N : ℕ) : Prop where
  pos : 0 < N
  id_lt : ∀ q, IsFSM N q → q < 2 ^ 32
  page : ∀ q, IsFSM N q → view q = some (.fsm (fsmAt view q))
  sound : ∀ q, IsFSM N q → (fsmAt view q).Sound
  pageID_eq : ∀ q, IsFSM N q → (fsmAt view q).pageID = q

/-- Besides, the chain lists the bitmaps other than page 0 that have a free bit. -/
structure Inv (view : ℕ → Option Page) (N : ℕ) (chain : List ℕ) : Prop extends Pages view N where
  lists : Lists (next view) 0 PGID_INVALID chain
  mem_chain : ∀ q, q ∈ chain ↔ IsFSM N q ∧ q ≠ 0 ∧ (fsmAt view q).freeBlocks ≠ 0

theorem getBlocksInPage_pos : 0 < getBlocksInPage := by decide

theorem isFSM_bitmapOf {N id : ℕ} (h : id < N * getBlocksInPage) : IsFSM N (bitmapOf id) :=
  ⟨Nat.mul_mod_left .., (Nat.div_mul_le_self ..).trans_lt h⟩

theorem eq_add_iff {x q i : ℕ} (hq : q % getBlocksInPage = 0) (hi : i < getBlocksInPage) :
    x = q + i ↔ bitmapOf x = q ∧ x % getBlocksInPage = i := by
  obtain ⟨k, rfl⟩ := Nat.dvd_of_mod_eq_zero hq
  constructor
  · rintro rfl
    rw [bitmapOf, Nat.mul_add_div getBlocksInPage_pos, Nat.div_eq_of_lt hi, Nat.add_zero,
      Nat.mul_add_mod, Nat.mod_eq_of_lt hi, Nat.mul_comm]
    exact ⟨rfl, rfl⟩
  · rintro ⟨hx, rfl⟩
    rw [← hx, bitmapOf, Nat.div_add_mod']

theorem add_lt {N q i : ℕ} (hq : IsFSM N q) (hi : i < getBlocksInPage) :
    q + i < N * getBlocksInPage := by
  obtain ⟨⟨k, rfl⟩, hlt⟩ := And.imp_left Nat.dvd_of_mod_eq_zero hq
  have hk : k < N := Nat.lt_of_mul_lt_mul_left (Nat.mul_comm N _ ▸ hlt)
  calc getBlocksInPage * k + i < getBlocksInPage * k + getBlocksInPage := by omega
    _ = (k + 1) * getBlocksInPage := by rw [Nat.add_mul, Nat.one_mul, Nat.mul_comm]
    _ ≤ N * getBlocksInPage := Nat.mul_le_mul_right _ hk

theorem isFSM_succ {N q : ℕ} : IsFSM (N + 1) q ↔ IsFSM N q ∨ q = N * getBlocksInPage := by
  constructor
  · rintro ⟨hmod, hlt⟩
    obtain ⟨k, rfl⟩ := Nat.dvd_of_mod_eq_zero hmod
    rw [Nat.mul_comm, Nat.mul_lt_mul_right getBlocksInPage_pos, Nat.lt_succ_iff] at hlt
    rcases hlt.eq_or_lt with rfl | hlt
    · exact .inr (Nat.mul_comm ..)
    · refine .inl ⟨hmod, ?_⟩
      rw [Nat.mul_comm]
      exact Nat.mul_lt_mul_of_pos_right hlt getBlocksInPage_pos
  · rintro (⟨hmod, hlt⟩ | rfl)
    · exact ⟨hmod, hlt.trans_le (Nat.mul_le_mul_right _ (Nat.le_succ N))⟩
    · exact ⟨Nat.mul_mod_left .., Nat.mul_lt_mul_of_pos_right (Nat.lt_succ_self N) getBlocksInPage_pos⟩

section View

variable {view view' : ℕ → Option Page} {m : Mem} {N q id i : ℕ} {p : FSMPage}

theorem fsmAt_of_eq (h : view id = some (.fsm p)) : fsmAt view id = p := by
  rw [fsmAt, h]

theorem fsmAt_congr (h : view' id = view id) : fsmAt view' id = fsmAt view id := by
  rw [fsmAt, fsmAt, h]

@[simp] theorem fsmAt_set_self : fsmAt (m.set q (.fsm p)).view q = p :=
  fsmAt_of_eq (Mem.set_self ..)

theorem fsmAt_set_of_ne (h : id ≠ q) : fsmAt (m.set q (.fsm p)).view id = fsmAt m.view id :=
  fsmAt_congr (Mem.set_of_ne h ..)

theorem next_set :
    next (m.set q (.fsm p)).view = Function.update (next m.view) q p.nextPageID := by
  funext x
  by_cases hx : x = q
  · subst hx
    rw [Function.update_self, next, fsmAt_set_self]
  · rw [Function.update_of_ne hx, next, fsmAt_set_of_ne hx, next]

theorem next_set_of_eq (h : p.nextPageID = (fsmAt m.view q).nextPageID) :
    next (m.set q (.fsm p)).view = next m.view := by
  rw [next_set, h]
  exact Function.update_eq_self q (next m.view)

theorem mem_freeIds : id ∈ freeIds view N ↔ id < N * getBlocksInPage ∧
    id % getBlocksInPage ∈ (fsmAt view (bitmapOf id)).freeBits := by
  rw [freeIds, Finset.mem_filter, Finset.mem_range, mem_freeBits, used]
  simp only [Nat.mod_lt _ getBlocksInPage_pos, true_and]

theorem add_mem_freeIds (hq : IsFSM N q) (hi : i < getBlocksInPage) :
    q + i ∈ freeIds view N ↔ i ∈ (fsmAt view q).freeBits := by
  obtain ⟨hdiv, hmod⟩ := (eq_add_iff (x := q + i) hq.1 hi).mp rfl
  rw [mem_freeIds, hdiv, hmod]
  exact and_iff_right (add_lt hq hi)

theorem used_eq_false_iff (hid : id < N * getBlocksInPage) :
    used view id = false ↔ id ∈ freeIds view N := by
  rw [freeIds, Finset.mem_filter, Finset.mem_range]
  exact (and_iff_right hid).symm

theorem freeIds_congr (h : ∀ q, IsFSM N q → (fsmAt view' q).freeBits = (fsmAt view q).freeBits) :
    freeIds view' N = freeIds view N := by
  ext x
  rw [mem_freeIds, mem_freeIds]
  refine and_congr_right fun hx => ?_
  rw [h _ (isFSM_bitmapOf hx)]

theorem freeIds_eq_empty_iff :
    freeIds view N = ∅ ↔ ∀ q, IsFSM N q → (fsmAt view q).freeBits = ∅ := by
  simp only [Finset.eq_empty_iff_forall_notMem]
  constructor
  · intro h q hq i hi
    exact h (q + i) ((add_mem_freeIds hq (mem_freeBits.mp hi).1).mpr hi)
  · intro h x hx
    obtain ⟨hlt, hbit⟩ := mem_freeIds.mp hx
    exact h _ (isFSM_bitmapOf hlt) _ hbit

theorem freeIds_erase (hq : IsFSM N q) (hi : i < getBlocksInPage)
    (hp : p.freeBits = (fsmAt m.view q).freeBits.erase i) :
    freeIds (m.set q (.fsm p)).view N = (freeIds m.view N).erase (q + i) := by
  ext x
  rw [Finset.mem_erase, ne_eq, eq_add_iff hq.1 hi, mem_freeIds, mem_freeIds]
  by_cases hx : bitmapOf x = q
  · rw [hx, fsmAt_set_self, hp, Finset.mem_erase, eq_self, true_and, and_left_comm]
  · rw [fsmAt_set_of_ne hx]
    exact (and_iff_right fun he => hx he.1).symm

theorem freeIds_insert (hq : IsFSM N q) (hi : i < getBlocksInPage)
    (hp : p.freeBits = insert i (fsmAt m.view q).freeBits) :
    freeIds (m.set q (.fsm p)).view N = insert (q + i) (freeIds m.view N) := by
  ext x
  rw [Finset.mem_insert, eq_add_iff hq.1 hi, mem_freeIds, mem_freeIds]
  by_cases hx : bitmapOf x = q
  · have hlt : x < N * getBlocksInPage := by
      rw [(eq_add_iff hq.1 (Nat.mod_lt x getBlocksInPage_pos)).mpr ⟨hx, rfl⟩]
      exact add_lt hq (Nat.mod_lt x getBlocksInPage_pos)
    rw [hx, fsmAt_set_self, hp, Finset.mem_insert, eq_self, true_and, and_iff_right hlt,
      and_iff_right hlt]
  · rw [fsmAt_set_of_ne hx]
    exact (or_iff_right fun he => hx he.1).symm

theorem freeIds_set_of_eq (hp : p.freeBits = (fsmAt m.view q).freeBits) :
    freeIds (m.set q (.fsm p)).view N = freeIds m.view N := by
  apply freeIds_congr
  intro x _
  by_cases hx : x = q
  · subst hx
    rw [fsmAt_set_self, hp]
  · rw [fsmAt_set_of_ne hx]

theorem Pages.isFSM_zero (h : Pages view N) : IsFSM N 0 :=
  ⟨Nat.zero_mod _, Nat.mul_pos h.pos getBlocksInPage_pos⟩

/-- The id of a bitmap is never free. -/
theorem Pages.not_mem_freeIds (h : Pages view N) (hq : IsFSM N q) : q ∉ freeIds view N := by
  obtain ⟨hself, hmod⟩ := (eq_add_iff (x := q) (i := 0) hq.1 getBlocksInPage_pos).mp rfl
  rw [mem_freeIds, hself, hmod, mem_freeBits, (h.sound q hq).own]
  simp

theorem Pages.freeBlocks_eq_zero_iff (h : Pages view N) (hq : IsFSM N q) :
    (fsmAt view q).freeBlocks = 0 ↔ (fsmAt view q).freeBits = ∅ := by
  rw [(h.sound q hq).count, Finset.card_eq_zero]

theorem Pages.set (h : Pages m.view N) (hp : p.Sound) (hid : p.pageID = q) :
    Pages (m.set q (.fsm p)).view N := by
  refine ⟨h.pos, h.id_lt, fun x hx => ?_, fun x hx => ?_, fun x hx => ?_⟩ <;> by_cases hxq : x = q
  · subst hxq
    rw [fsmAt_set_self, Mem.set_self]
  · rw [fsmAt_set_of_ne hxq, Mem.set_of_ne hxq]
    exact h.page x hx
  · subst hxq
    rw [fsmAt_set_self]
    exact hp
  · rw [fsmAt_set_of_ne hxq]
    exact h.sound x hx
  · subst hxq
    rw [fsmAt_set_self]
    exact hid
  · rw [fsmAt_set_of_ne hxq]
    exact h.pageID_eq x hx

end View

section Chain

variable {view : ℕ → Option Page} {N : ℕ} {chain : List ℕ}

theorem Inv.congr {view' : ℕ → Option Page} (h : Inv view N chain)
    (hv : ∀ q, IsFSM N q → view' q = view q) : Inv view' N chain := by
  have hat : ∀ q, IsFSM N q → fsmAt view' q = fsmAt view q := fun q hq => fsmAt_congr (hv q hq)
  refine ⟨⟨h.pos, h.id_lt, fun q hq => ?_, fun q hq => ?_, fun q hq => ?_⟩,
    h.lists.congr ?_ fun q hq => ?_, fun q => ?_⟩
  · rw [hv q hq, hat q hq, h.page q hq]
  · rw [hat q hq]
    exact h.sound q hq
  · rw [hat q hq, h.pageID_eq q hq]
  · rw [next, next, hat 0 h.isFSM_zero]
  · rw [next, next, hat q ((h.mem_chain q).mp hq).1]
  · rw [h.mem_chain]
    refine and_congr_right fun hq => ?_
    rw [hat q hq]

theorem Inv.next_eq_iff (h : Inv view N chain) : next view 0 = PGID_INVALID ↔ chain = [] :=
  h.lists.2.2.eq_stop_iff

theorem Inv.head {q : ℕ} {chain : List ℕ} (h : Inv view N (q :: chain)) :
    next view 0 = q ∧ IsFSM N q ∧ q ≠ 0 ∧ (fsmAt view q).freeBlocks ≠ 0 :=
  ⟨h.lists.2.2.1, (h.mem_chain q).mp (by simp)⟩

/-- The map is full exactly if page 0 is full and the chain empty. -/
theorem Inv.freeIds_eq_empty_iff (h : Inv view N chain) :
    freeIds view N = ∅ ↔ (fsmAt view 0).freeBlocks = 0 ∧ chain = [] := by
  have h0 := h.isFSM_zero
  rw [FreeSpaceMap.freeIds_eq_empty_iff, List.eq_nil_iff_forall_not_mem]
  constructor
  · intro hempty
    refine ⟨(h.freeBlocks_eq_zero_iff h0).mpr (hempty 0 h0), fun q hq => ?_⟩
    obtain ⟨hN, -, hne⟩ := (h.mem_chain q).mp hq
    exact hne ((h.freeBlocks_eq_zero_iff hN).mpr (hempty q hN))
  · rintro ⟨hfirst, hnil⟩ q hq
    rw [← h.freeBlocks_eq_zero_iff hq]
    -- a free bit would put the bitmap into the chain, unless it is page 0
    by_contra hne
    by_cases hz : q = 0
    · subst hz
      exact hne hfirst
    · exact hnil q ((h.mem_chain q).mpr ⟨hq, hz, hne⟩)

theorem Inv.exists_cons (h : Inv view N chain) (hne : freeIds view N ≠ ∅) (hfirst : (fsmAt view 0).freeBlocks = 0) :
    ∃ q l, chain = q :: l := by
  rw [ne_eq, h.freeIds_eq_empty_iff, not_and] at hne
  exact List.exists_cons_of_ne_nil (hne hfirst)

theorem inv_start {view : ℕ → Option Page} (h : view 0 = some (.fsm (.new 0))) : Inv view 1 [] := by
  have hzero : ∀ q, IsFSM 1 q → q = 0 := by
    rintro q ⟨hmod, hlt⟩
    rw [Nat.one_mul] at hlt
    rwa [Nat.mod_eq_of_lt hlt] at hmod
  have hat := fsmAt_of_eq h
  refine ⟨⟨Nat.one_pos, fun q hq => ?_, fun q hq => ?_, fun q hq => ?_, fun q hq => ?_⟩,
    ⟨List.nodup_nil, by simp, ?_⟩, fun q => ?_⟩
  · rw [hzero q hq]
    decide
  · rw [hzero q hq, hat, h]
  · rw [hzero q hq, hat]
    exact (sound_new 0).1
  · rw [hzero q hq, hat]
    rfl
  · rw [next, hat]
    rfl
  · exact iff_of_false (by simp) fun hc => hc.2.1 (hzero q hc.1)

end Chain
end Kndb.FreeSpaceMap
