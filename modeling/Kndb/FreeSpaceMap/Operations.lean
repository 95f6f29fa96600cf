import Mathlib.Order.Interval.Finset.Nat
import Kndb.FreeSpaceMap.Invariant

namespace Kndb.FreeSpaceMap

open Imp.Prog FSMPage Chain LawfulCache

variable {σ : Type} {C : LawfulCache σ} {m : Mem} {N q i : ℕ} {chain : List ℕ}

/-- The map goes from `N` bitmaps to `N'`, and only bitmaps change. -/
structure Step (N' : ℕ) (m m' : Mem) : Prop where
  inv : ∃ chain, Inv m'.view N' chain
  frame : ∀ x, ¬IsFSM N' x → m'.view x = m.view x
  blocks : m'.blocks = m.blocks

theorem frame_set (hq : IsFSM N q) (pg : Page) (x : ℕ) (hx : ¬IsFSM N x) :
    (m.set q pg).view x = m.view x := by
  apply Mem.set_of_ne
  rintro rfl
  exact hx hq

theorem returns_retrieveFSM {id : ℕ} {p : FSMPage} (h : m.view id = some (.fsm p)) :
    C.Returns (C.retrieve FSMPage id) m id m := returns_retrieve (t := p) h

theorem returns_isFull (h : Inv m.view N chain) :
    C.Returns (isFull C.toCacheOps) m (decide (freeIds m.view N = ∅)) m := by
  have hfirst := h.page 0 h.isFSM_zero
  refine (returns_retrieveFSM hfirst).bind ((returns_deref (T := FSMPage) hfirst).bind ?_)
  have : decide (freeIds m.view N = ∅) = ((fsmAt m.view 0).freeBlocks == 0 &&
      (fsmAt m.view 0).nextPageID == PGID_INVALID) := by
    rw [Bool.eq_iff_iff, decide_eq_true_iff, Bool.and_eq_true, beq_iff_eq, beq_iff_eq,
      ← next, h.next_eq_iff, h.freeIds_eq_empty_iff]
  rw [this]
  exact returns_pure _ _

theorem returns_isFree (h : Pages m.view N) {id : ℕ} (hid : id < N * getBlocksInPage) :
    C.Returns (isFree C.toCacheOps id) m (!used m.view id) m := by
  have hN := isFSM_bitmapOf hid
  have hlen : id % getBlocksInPage < (fsmAt m.view (bitmapOf id)).bitmap.length * 8 :=
    (Nat.mod_lt _ getBlocksInPage_pos).trans_le (h.sound _ hN).length
  refine (returns_retrieveFSM (h.page _ hN)).bind ?_
  exact returns_call_const (T := FSMPage) (h.page _ hN) (isFree_eq hlen)

theorem Inv.allocIn (h : Inv m.view N chain) (hq : IsFSM N q) (hi : i ∈ (fsmAt m.view q).freeBits)
    (hlast : q ≠ 0 → ((fsmAt m.view q).alloc i).freeBlocks ≠ 0) :
    Inv (m.set q (.fsm ((fsmAt m.view q).alloc i))).view N chain := by
  obtain ⟨-, -, hsound⟩ := (h.sound q hq).allocBit hi
  refine { h.set hsound (h.pageID_eq q hq) with lists := ?_, mem_chain := fun x => ?_ }
  · rw [next_set_of_eq alloc_nextPageID]
    exact h.lists
  · rw [h.mem_chain]
    by_cases hx : x = q
    · subst hx
      have hne : (fsmAt m.view x).freeBlocks ≠ 0 := by
        rw [ne_eq, h.freeBlocks_eq_zero_iff hq]
        exact Finset.ne_empty_of_mem hi
      rw [fsmAt_set_self]
      exact and_congr_right fun _ => and_congr_right fun h0 => iff_of_true hne (hlast h0)
    · rw [fsmAt_set_of_ne hx]

/-- The first bitmap of the chain loses its last free bit and leaves the chain. -/
theorem Inv.allocLast (h : Inv m.view N (q :: chain)) (hi : i ∈ (fsmAt m.view q).freeBits)
    (hlast : ((fsmAt m.view q).alloc i).freeBlocks = 0) :
    Inv ((m.set q (.fsm ((fsmAt m.view q).alloc i))).set 0
      (.fsm ((fsmAt m.view 0).setNextPageID (fsmAt m.view q).nextPageID))).view N chain := by
  obtain ⟨-, hq, hq0, -⟩ := h.head
  obtain ⟨-, -, hsound⟩ := (h.sound q hq).allocBit hi
  have hfirst := (h.sound 0 h.isFSM_zero).setNextPageID (h.sound q hq).next_lt
  refine { (h.set hsound (h.pageID_eq q hq)).set hfirst (h.pageID_eq 0 h.isFSM_zero) with
    lists := ?_, mem_chain := fun x => ?_ }
  · rw [next_set, next_set_of_eq alloc_nextPageID]
    exact h.lists.pop
  · by_cases hx0 : x = 0
    · subst hx0
      exact iff_of_false (fun hc => h.lists.2.1 (by simp [hc])) (by simp)
    by_cases hx : x = q
    · subst hx
      refine iff_of_false (List.nodup_cons.mp h.lists.1).1 ?_
      rw [fsmAt_set_of_ne hx0, fsmAt_set_self, hlast]
      simp
    · rw [fsmAt_set_of_ne hx0, fsmAt_set_of_ne hx, ← h.mem_chain, List.mem_cons, or_iff_right hx]

theorem returns_popIfFull (h : Pages m.view N) (hq : IsFSM N q) :
    C.Returns (popIfFull C.toCacheOps 0 q) m ()
      (if (fsmAt m.view q).freeBlocks = 0 then
        m.set 0 (.fsm ((fsmAt m.view 0).setNextPageID (fsmAt m.view q).nextPageID)) else m) := by
  refine (returns_deref (T := FSMPage) (h.page q hq)).bind ?_
  split
  · exact returns_modify (T := FSMPage) (h.page 0 h.isFSM_zero) rfl
  · exact returns_pure _ _

theorem returns_allocBit_first (h : Inv m.view N chain) (hne : freeIds m.view N ≠ ∅)
    (hfirst : (fsmAt m.view 0).freeBlocks ≠ 0) :
    ∃ i ∈ (fsmAt m.view 0).freeBits, (∀ j < i, (fsmAt m.view 0).used j = true) ∧
      C.Returns (allocBit C.toCacheOps) m i (m.set 0 (.fsm ((fsmAt m.view 0).alloc i))) := by
  have h0 := h.isFSM_zero
  have hpage := h.page 0 h0
  obtain ⟨i, hi, hleast, hfind⟩ := (h.sound 0 h0).findNextFree hfirst
  obtain ⟨halloc, -, -⟩ := (h.sound 0 h0).allocBit hi
  refine ⟨i, hi, hleast, ?_⟩
  refine (returns_isFull h).bind ((returns_require _ (by rw [decide_eq_false hne]; rfl) _).bind ?_)
  refine (returns_retrieveFSM hpage).bind ((returns_deref (T := FSMPage) hpage).bind ?_)
  rw [if_pos hfirst]
  refine (returns_call_const (T := FSMPage) hpage hfind).bind ?_
  exact (returns_call (T := FSMPage) hpage halloc rfl).bind (returns_pure _ _)

theorem returns_allocBit_next (h : Inv m.view N (q :: chain)) (hne : freeIds m.view N ≠ ∅)
    (hfirst : (fsmAt m.view 0).freeBlocks = 0) :
    ∃ i ∈ (fsmAt m.view q).freeBits, (∀ j < i, (fsmAt m.view q).used j = true) ∧
      C.Returns (allocBit C.toCacheOps) m ((q + i) % 2 ^ 32)
        (if ((fsmAt m.view q).alloc i).freeBlocks = 0 then
          (m.set q (.fsm ((fsmAt m.view q).alloc i))).set 0
            (.fsm ((fsmAt m.view 0).setNextPageID (fsmAt m.view q).nextPageID))
        else m.set q (.fsm ((fsmAt m.view q).alloc i))) := by
  obtain ⟨hnext, hq, hq0, hfree⟩ := h.head
  have hpage0 := h.page 0 h.isFSM_zero
  have hpage := h.page q hq
  obtain ⟨i, hi, hleast, hfind⟩ := (h.sound q hq).findNextFree hfree
  obtain ⟨halloc, -, hsound⟩ := (h.sound q hq).allocBit hi
  have hpop := returns_popIfFull (C := C) (h.set hsound (h.pageID_eq q hq)) hq
  rw [fsmAt_set_self, fsmAt_set_of_ne hq0.symm] at hpop
  refine ⟨i, hi, hleast, ?_⟩
  refine (returns_isFull h).bind ((returns_require _ (by rw [decide_eq_false hne]; rfl) _).bind ?_)
  refine (returns_retrieveFSM hpage0).bind ((returns_deref (T := FSMPage) hpage0).bind ?_)
  rw [if_neg (not_not.mpr hfirst)]
  refine (returns_deref (T := FSMPage) hpage0).bind ?_
  rw [← next, hnext]
  refine (returns_retrieveFSM hpage).bind ((returns_call_const (T := FSMPage) hpage hfind).bind ?_)
  exact (returns_call (T := FSMPage) hpage halloc rfl).bind (hpop.bind (returns_pure _ _))

theorem returns_allocBit (h : Inv m.view N chain) (hne : freeIds m.view N ≠ ∅) :
    ∃ id ∈ freeIds m.view N, ∃ m', C.Returns (allocBit C.toCacheOps) m (id % 2 ^ 32) m' ∧
      Step N m m' ∧ freeIds m'.view N = (freeIds m.view N).erase id := by
  have h0 := h.isFSM_zero
  by_cases hfirst : (fsmAt m.view 0).freeBlocks = 0
  · obtain ⟨q, chain, rfl⟩ := h.exists_cons hne hfirst
    obtain ⟨-, hq, hq0, -⟩ := h.head
    obtain ⟨i, hi, -, hrun⟩ := returns_allocBit_next (C := C) h hne hfirst
    obtain ⟨-, hbits, -⟩ := (h.sound q hq).allocBit hi
    have hlt := (mem_freeBits.mp hi).1
    have hids := freeIds_erase (m := m) hq hlt hbits
    refine ⟨q + i, (add_mem_freeIds hq hlt).mpr hi, _, hrun, ?_⟩
    split
    · rename_i hlast
      refine ⟨⟨⟨chain, h.allocLast hi hlast⟩, fun x hx => ?_, rfl⟩, ?_⟩
      · rw [frame_set h0 _ x hx, frame_set hq _ x hx]
      · rw [freeIds_set_of_eq (by rw [fsmAt_set_of_ne hq0.symm]; rfl), hids]
    · rename_i hlast
      exact ⟨⟨⟨_, h.allocIn hq hi fun _ => hlast⟩, frame_set hq _, rfl⟩, hids⟩
  · obtain ⟨i, hi, -, hrun⟩ := returns_allocBit_first (C := C) h hne hfirst
    obtain ⟨-, hbits, -⟩ := (h.sound 0 h0).allocBit hi
    have hlt := (mem_freeBits.mp hi).1
    have hmem := (add_mem_freeIds h0 hlt).mpr hi
    have hids := freeIds_erase (m := m) h0 hlt hbits
    have hmod : i % 2 ^ 32 = i := Nat.mod_eq_of_lt (hlt.trans (by decide))
    rw [Nat.zero_add] at hmem hids
    have hrun' : C.Returns (allocBit C.toCacheOps) m (i % 2 ^ 32)
        (m.set 0 (.fsm ((fsmAt m.view 0).alloc i))) := by
      rw [hmod]
      exact hrun
    exact ⟨i, hmem, _, hrun', ⟨⟨chain, h.allocIn h0 hi fun hc => absurd rfl hc⟩, frame_set h0 _, rfl⟩,
      hids⟩

theorem IsFSM.ne_invalid (hq : IsFSM N q) : q ≠ PGID_INVALID := by
  rintro rfl
  exact absurd hq.1 (by decide)

def pushed (m : Mem) (q : ℕ) : Mem :=
  (m.set 0 (.fsm ((fsmAt m.view 0).setNextPageID q))).set q
    (.fsm ((fsmAt m.view q).setNextPageID (fsmAt m.view 0).nextPageID))

theorem returns_push (hpage0 : m.view 0 = some (.fsm (fsmAt m.view 0)))
    (hpage : m.view q = some (.fsm (fsmAt m.view q))) (hq0 : q ≠ 0) :
    C.Returns (push C.toCacheOps 0 q q) m () (pushed m q) := by
  refine (returns_deref (T := FSMPage) hpage0).bind ?_
  refine (returns_modify (T := FSMPage) hpage0 rfl).bind ?_
  exact returns_modify (T := FSMPage) ((Mem.set_of_ne hq0 ..).trans hpage) rfl

theorem Pages.push (h : Pages m.view N) (hl : Lists (next m.view) 0 PGID_INVALID chain)
    (hq : IsFSM N q) (hq0 : q ≠ 0) (hfree : (fsmAt m.view q).freeBlocks ≠ 0) (hnot : q ∉ chain)
    (hmem : ∀ x, x ≠ q → (x ∈ chain ↔ IsFSM N x ∧ x ≠ 0 ∧ (fsmAt m.view x).freeBlocks ≠ 0)) :
    Inv (pushed m q).view N (q :: chain) := by
  have h0 := h.isFSM_zero
  have hfirst := (h.sound 0 h0).setNextPageID (h.id_lt q hq)
  have hself := (h.sound q hq).setNextPageID (h.sound 0 h0).next_lt
  refine { (h.set hfirst (h.pageID_eq 0 h0)).set hself (h.pageID_eq q hq) with
    lists := ?_, mem_chain := fun x => ?_ }
  · rw [pushed, next_set, next_set]
    exact hl.push hnot hq0 hq.ne_invalid
  · rw [pushed, List.mem_cons]
    by_cases hx : x = q
    · subst hx
      rw [fsmAt_set_self]
      exact iff_of_true (.inl rfl) ⟨hq, hq0, hfree⟩
    · rw [or_iff_right hx, hmem x hx, fsmAt_set_of_ne hx]
      refine and_congr_right fun _ => and_congr_right fun hx0 => ?_
      rw [fsmAt_set_of_ne hx0]

theorem frame_pushed (h0 : IsFSM N 0) (hq : IsFSM N q) (x : ℕ) (hx : ¬IsFSM N x) :
    (pushed m q).view x = m.view x := by
  rw [pushed, frame_set hq _ x hx, frame_set h0 _ x hx]

theorem freeIds_pushed (hq0 : q ≠ 0) : freeIds (pushed m q).view N = freeIds m.view N := by
  rw [pushed, freeIds_set_of_eq (by rw [fsmAt_set_of_ne hq0]; rfl),
    freeIds_set_of_eq (p := (fsmAt m.view 0).setNextPageID q) rfl]

theorem Inv.freeIn (h : Inv m.view N chain) (hq : IsFSM N q) {p : FSMPage} (hp : p.Sound)
    (hid : p.pageID = q) (hnext : p.nextPageID = (fsmAt m.view q).nextPageID)
    (hfree : p.freeBlocks ≠ 0) (hwas : q ≠ 0 → (fsmAt m.view q).freeBlocks ≠ 0) :
    Inv (m.set q (.fsm p)).view N chain := by
  refine { h.set hp hid with lists := ?_, mem_chain := fun x => ?_ }
  · rw [next_set_of_eq hnext]
    exact h.lists
  · rw [h.mem_chain]
    by_cases hx : x = q
    · subst hx
      rw [fsmAt_set_self]
      exact and_congr_right fun _ => and_congr_right fun h0 => iff_of_true (hwas h0) hfree
    · rw [fsmAt_set_of_ne hx]

theorem returns_pushIfFreed (hpage0 : m.view 0 = some (.fsm (fsmAt m.view 0)))
    (hpage : m.view q = some (.fsm (fsmAt m.view q))) (hid : (fsmAt m.view q).pageID = q) :
    C.Returns (pushIfFreed C.toCacheOps 0 q) m ()
      (if q ≠ 0 ∧ (fsmAt m.view q).freeBlocks = 1 then pushed m q else m) := by
  refine (returns_deref (T := FSMPage) hpage).bind ?_
  rw [hid]
  split
  · rename_i hc
    exact returns_push hpage0 hpage hc.1
  · exact returns_pure _ _

def cleared (m : Mem) (id : ℕ) : Mem :=
  m.set (bitmapOf id) (.fsm ((fsmAt m.view (bitmapOf id)).free (id % getBlocksInPage)))

def freed (m : Mem) (id : ℕ) : Mem :=
  if bitmapOf id ≠ 0 ∧ ((fsmAt m.view (bitmapOf id)).free (id % getBlocksInPage)).freeBlocks = 1 then
    pushed (cleared m id) (bitmapOf id)
  else cleared m id

/-- A bit that is set is cleared, the one of a bitmap itself not excepted. -/
theorem returns_freed (h : Pages m.view N) {id : ℕ} (hid : id < N * getBlocksInPage)
    (hbit : used m.view id = true) : C.Returns (freeBit C.toCacheOps id) m () (freed m id) := by
  have h0 := h.isFSM_zero
  have hq := isFSM_bitmapOf hid
  have hsound := h.sound _ hq
  have hfree := freeBit_eq ((Nat.mod_lt id getBlocksInPage_pos).trans_le hsound.length) hbit
    (hsound.freeBlocks_lt.trans_le hsound.length)
  have hself : (cleared m id).view (bitmapOf id) =
      some (.fsm (fsmAt (cleared m id).view (bitmapOf id))) := by
    rw [cleared, fsmAt_set_self, Mem.set_self]
  have hfirst : (cleared m id).view 0 = some (.fsm (fsmAt (cleared m id).view 0)) := by
    by_cases hq0 : 0 = bitmapOf id
    · rw [hq0, hself]
    · rw [cleared, fsmAt_set_of_ne hq0, Mem.set_of_ne hq0, h.page 0 h0]
  have hpush := returns_pushIfFreed (C := C) hfirst hself (by
    rw [cleared, fsmAt_set_self]
    exact h.pageID_eq _ hq)
  rw [cleared, fsmAt_set_self] at hpush
  refine (returns_isFree h hid).bind ((returns_require _ (by rw [hbit]; rfl) _).bind ?_)
  refine (returns_retrieveFSM (h.page _ hq)).bind ((returns_retrieveFSM (h.page 0 h0)).bind ?_)
  exact (returns_call (T := FSMPage) (h.page _ hq) hfree rfl).bind hpush

theorem returns_freeBit (h : Inv m.view N chain) {id : ℕ} (hid : id < N * getBlocksInPage)
    (hused : id ∉ freeIds m.view N) (hfsm : id % getBlocksInPage ≠ 0) :
    ∃ m', C.Returns (freeBit C.toCacheOps id) m () m' ∧ Step N m m' ∧
      freeIds m'.view N = insert id (freeIds m.view N) := by
  have h0 := h.isFSM_zero
  have hq := isFSM_bitmapOf hid
  have hlt := Nat.mod_lt id getBlocksInPage_pos
  have hbit : used m.view id = true := by
    rw [← Bool.not_eq_false, used_eq_false_iff hid]
    exact hused
  obtain ⟨-, hbits, hsound⟩ := (h.sound _ hq).freeBit hlt hbit hfsm
  have hids := freeIds_insert (m := m) hq hlt hbits
  rw [← (eq_add_iff (x := id) hq.1 hlt).mpr ⟨rfl, rfl⟩] at hids
  have hpages := h.set hsound (h.pageID_eq _ hq)
  refine ⟨_, returns_freed h.toPages hid hbit, ?_⟩
  unfold freed cleared
  split
  · rename_i hc
    -- the counter is 1 now, so the bitmap was full and not in the chain
    have hfull : (fsmAt m.view (bitmapOf id)).freeBlocks = 0 := Nat.succ.inj hc.2
    have hnot : bitmapOf id ∉ chain := fun hmem => ((h.mem_chain _).mp hmem).2.2 hfull
    refine ⟨⟨⟨_, hpages.push ?_ hq hc.1 ?_ hnot fun x hx => ?_⟩, fun x hx => ?_, rfl⟩, ?_⟩
    · rw [next_set_of_eq free_nextPageID]
      exact h.lists
    · rw [fsmAt_set_self]
      exact Nat.succ_ne_zero _
    · rw [h.mem_chain, fsmAt_set_of_ne hx]
    · rw [frame_pushed h0 hq x hx, frame_set hq _ x hx]
    · rw [freeIds_pushed hc.1, hids]
  · rename_i hc
    refine ⟨⟨⟨chain, h.freeIn hq hsound (h.pageID_eq _ hq) free_nextPageID (Nat.succ_ne_zero _) ?_⟩,
      frame_set hq _, rfl⟩, hids⟩
    exact fun hne hzero => hc ⟨hne, congrArg Nat.succ hzero⟩

section Succ

variable (h : Inv m.view N chain) (hsmall : N * getBlocksInPage < 2 ^ 32)
  (hnew : m.view (N * getBlocksInPage) = some (.fsm (.new (N * getBlocksInPage))))

include hnew

include h hsmall in
theorem Inv.pages_succ : Pages m.view (N + 1) := by
  have hat := fsmAt_of_eq hnew
  refine ⟨Nat.succ_pos N, fun q hq => ?_, fun q hq => ?_, fun q hq => ?_, fun q hq => ?_⟩ <;>
    rcases isFSM_succ.mp hq with hq | rfl
  · exact h.id_lt q hq
  · exact hsmall
  · exact h.page q hq
  · rw [hat, hnew]
  · exact h.sound q hq
  · rw [hat]
    exact (sound_new _).1
  · exact h.pageID_eq q hq
  · rw [hat]
    rfl

theorem freeIds_succ : freeIds m.view (N + 1) = freeIds m.view N ∪
    Finset.Ioo (N * getBlocksInPage) ((N + 1) * getBlocksInPage) := by
  have hmul : (N + 1) * getBlocksInPage = N * getBlocksInPage + getBlocksInPage := Nat.succ_mul ..
  ext x
  rw [Finset.mem_union, Finset.mem_Ioo, mem_freeIds, mem_freeIds]
  by_cases hx : x < N * getBlocksInPage
  · simp only [hx, hmul, Nat.lt_add_right getBlocksInPage hx, true_and, hx.not_gt, false_and, or_false]
  · obtain ⟨i, rfl⟩ := Nat.exists_eq_add_of_le (Nat.le_of_not_lt hx)
    by_cases hi : i < getBlocksInPage
    · obtain ⟨hdiv, hmod⟩ :=
        (eq_add_iff (x := N * getBlocksInPage + i) (Nat.mul_mod_left ..) hi).mp rfl
      rw [hdiv, hmod, fsmAt_of_eq hnew, (sound_new _).2, Finset.mem_erase, Finset.mem_range]
      omega
    · refine iff_of_false (fun hc => hi ?_) (fun hc => hi ?_) <;> omega

include h hsmall in
/-- A new bitmap becomes the head of the chain. -/
theorem Inv.link : Inv (pushed m (N * getBlocksInPage)).view (N + 1)
    (N * getBlocksInPage :: chain) := by
  have hq0 : N * getBlocksInPage ≠ 0 := (Nat.mul_pos h.pos getBlocksInPage_pos).ne'
  refine (h.pages_succ hsmall hnew).push h.lists (isFSM_succ.mpr (.inr rfl)) hq0 ?_ ?_ fun x hx => ?_
  · rw [fsmAt_of_eq hnew]
    change (PG_SZ - 4 * 3) * 8 - 1 ≠ 0
    decide
  · exact fun hmem => absurd ((h.mem_chain _).mp hmem).1.2 (lt_irrefl _)
  · rw [h.mem_chain, isFSM_succ, or_iff_left hx]

include h hsmall in
theorem returns_linkFSMPage : C.Returns (linkFSMPage C.toCacheOps (N * getBlocksInPage)) m ()
    (pushed m (N * getBlocksInPage)) := by
  have hpages := h.pages_succ hsmall hnew
  refine (returns_retrieveFSM (hpages.page 0 hpages.isFSM_zero)).bind ?_
  refine (returns_retrieveFSM hnew).bind ?_
  exact returns_push (hpages.page 0 hpages.isFSM_zero) (hpages.page _ (isFSM_succ.mpr (.inr rfl)))
    (Nat.mul_pos h.pos getBlocksInPage_pos).ne'

include h hsmall in
theorem step_link : Step (N + 1) m (pushed m (N * getBlocksInPage)) ∧
    freeIds (pushed m (N * getBlocksInPage)).view (N + 1) = freeIds m.view N ∪
      Finset.Ioo (N * getBlocksInPage) ((N + 1) * getBlocksInPage) := by
  have h0 := (h.pages_succ hsmall hnew).isFSM_zero
  refine ⟨⟨⟨_, h.link hsmall hnew⟩, frame_pushed h0 (isFSM_succ.mpr (.inr rfl)), rfl⟩, ?_⟩
  rw [freeIds_pushed (Nat.mul_pos h.pos getBlocksInPage_pos).ne', freeIds_succ hnew]

end Succ
end Kndb.FreeSpaceMap
