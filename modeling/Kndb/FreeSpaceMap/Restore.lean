import Kndb.FreeSpaceMap.MapOk

namespace Kndb.FreeSpaceMap

open Imp.Prog FSMPage LawfulCache

variable {σ : Type} {C : LawfulCache σ} {m : Mem} {N q i : ℕ} {s : σ} {chain : List ℕ}

/-- Where the bitmap is as if its bit had been freed, the rest of the memory decides. -/
theorem cleared_alloc (hq : q % getBlocksInPage = 0) (hi : i < getBlocksInPage)
    (hpage : m.view q = some (.fsm (fsmAt m.view q))) (hpos : 0 < (fsmAt m.view q).freeBlocks) :
    cleared (m.set q (.fsm ((fsmAt m.view q).alloc i))) (q + i) = m := by
  obtain ⟨hdiv, hmod⟩ := (eq_add_iff (x := q + i) hq hi).mp rfl
  rw [cleared, hdiv, hmod, fsmAt_set_self, free_alloc hpos, Mem.set_set, Mem.set_eq_self hpage]

theorem freed_eq_cleared {id : ℕ} (h : bitmapOf id ≠ 0 →
    ((fsmAt m.view (bitmapOf id)).free (id % getBlocksInPage)).freeBlocks ≠ 1) :
    freed m id = cleared m id := by
  rw [freed, if_neg]
  exact fun hc => h hc.1 hc.2

theorem Pages.freeBlocks_pos (h : Pages m.view N) (hq : IsFSM N q) (hi : i ∈ (fsmAt m.view q).freeBits) :
    0 < (fsmAt m.view q).freeBlocks := by
  rw [(h.sound q hq).count]
  exact Finset.card_pos.mpr ⟨i, hi⟩

theorem Inv.freed_first (h : Inv m.view N chain) (hi : i ∈ (fsmAt m.view 0).freeBits) :
    freed (m.set 0 (.fsm ((fsmAt m.view 0).alloc i))) i = m := by
  have hlt := (mem_freeBits.mp hi).1
  have hcleared := cleared_alloc (m := m) (q := 0) (Nat.zero_mod _) hlt (h.page 0 h.isFSM_zero)
    (h.freeBlocks_pos h.isFSM_zero hi)
  rw [Nat.zero_add] at hcleared
  rw [freed_eq_cleared, hcleared]
  intro hne
  rw [bitmapOf, Nat.div_eq_of_lt hlt, Nat.zero_mul] at hne
  exact absurd rfl hne

theorem Inv.freed_next (h : Inv m.view N (q :: chain)) (hi : i ∈ (fsmAt m.view q).freeBits)
    (hlast : ((fsmAt m.view q).alloc i).freeBlocks ≠ 0) :
    freed (m.set q (.fsm ((fsmAt m.view q).alloc i))) (q + i) = m := by
  obtain ⟨-, hq, -, -⟩ := h.head
  have hlt := (mem_freeBits.mp hi).1
  have hpos := h.freeBlocks_pos hq hi
  obtain ⟨hdiv, hmod⟩ := (eq_add_iff (x := q + i) hq.1 hlt).mp rfl
  rw [freed_eq_cleared, cleared_alloc hq.1 hlt (h.page q hq) hpos]
  intro _
  rw [hdiv, hmod, fsmAt_set_self, free_alloc hpos]
  change (fsmAt m.view q).freeBlocks - 1 ≠ 0 at hlast
  omega

/-- The bitmap has left the chain and comes back to its front. -/
theorem Inv.freed_last (h : Inv m.view N (q :: chain)) (hi : i ∈ (fsmAt m.view q).freeBits)
    (hlast : ((fsmAt m.view q).alloc i).freeBlocks = 0) :
    freed ((m.set q (.fsm ((fsmAt m.view q).alloc i))).set 0
      (.fsm ((fsmAt m.view 0).setNextPageID (fsmAt m.view q).nextPageID))) (q + i) = m := by
  obtain ⟨hnext, hq, hq0, -⟩ := h.head
  have hlt := (mem_freeBits.mp hi).1
  have hpos := h.freeBlocks_pos hq hi
  obtain ⟨hdiv, hmod⟩ := (eq_add_iff (x := q + i) hq.1 hlt).mp rfl
  have hone : (fsmAt m.view q).freeBlocks = 1 := by
    change (fsmAt m.view q).freeBlocks - 1 = 0 at hlast
    omega
  rw [freed, cleared, hdiv, hmod, fsmAt_set_of_ne hq0, fsmAt_set_self, free_alloc hpos, if_pos ⟨hq0, hone⟩]
  -- page 0 points to the bitmap again, and the bitmap to what page 0 pointed to in between
  rw [pushed, fsmAt_set_self, fsmAt_set_of_ne hq0.symm, fsmAt_set_self]
  apply Mem.ext
  · funext x
    by_cases hxq : x = q
    · rw [hxq, Mem.set_self, h.page q hq]
      rfl
    rw [Mem.set_of_ne hxq]
    by_cases hx0 : x = 0
    · rw [hx0, Mem.set_self, h.page 0 h.isFSM_zero, ← hnext]
      rfl
    · rw [Mem.set_of_ne hx0, Mem.set_of_ne hxq, Mem.set_of_ne hx0, Mem.set_of_ne hxq]
  · rfl

theorem Pages.returns_freed_of_notMem {id : ℕ} (h : Pages m.view N) (hid : id < N * getBlocksInPage)
    (hnot : id ∉ freeIds m.view N) : C.Returns (freeBit C.toCacheOps id) m () (freed m id) := by
  apply returns_freed h hid
  rw [← Bool.not_eq_false, used_eq_false_iff hid]
  exact hnot

/-- The memory comes back as it was. -/
theorem Inv.restored (h : Inv m.view N chain) (hN : N ≤ 131457) (hne : freeIds m.view N ≠ ∅) :
    ∃ id m', C.Returns (allocBit C.toCacheOps) m id m' ∧ C.Returns (freeBit C.toCacheOps id) m' () m := by
  have h0 := h.isFSM_zero
  by_cases hfirst : (fsmAt m.view 0).freeBlocks = 0
  · obtain ⟨q, chain, rfl⟩ := h.exists_cons hne hfirst
    obtain ⟨-, hq, hq0, -⟩ := h.head
    obtain ⟨i, hi, -, hrun⟩ := returns_allocBit_next (C := C) h hne hfirst
    obtain ⟨-, hbits, -⟩ := (h.sound q hq).allocBit hi
    have hlt := (mem_freeBits.mp hi).1
    have hid : q + i < N * getBlocksInPage := add_lt hq hlt
    have hmod : (q + i) % 2 ^ 32 = q + i :=
      Nat.mod_eq_of_lt (hid.trans_le ((Nat.mul_le_mul_right _ hN).trans (by decide)))
    have hids := freeIds_erase (m := m) hq hlt hbits
    have hnot : q + i ∉ freeIds (m.set q (.fsm ((fsmAt m.view q).alloc i))).view N := by
      rw [hids]
      exact Finset.notMem_erase _ _
    rw [hmod] at hrun
    -- a bitmap that has become full leaves the chain, and `freeBit` puts it back in front
    by_cases hlast : ((fsmAt m.view q).alloc i).freeBlocks = 0
    · rw [if_pos hlast] at hrun
      refine ⟨_, _, hrun, ?_⟩
      have hfreed := (h.allocLast hi hlast).returns_freed_of_notMem (C := C) hid (by
        rwa [freeIds_set_of_eq (by rw [fsmAt_set_of_ne hq0.symm]; rfl)])
      rwa [h.freed_last hi hlast] at hfreed
    · rw [if_neg hlast] at hrun
      refine ⟨_, _, hrun, ?_⟩
      have hfreed := (h.allocIn hq hi fun _ => hlast).returns_freed_of_notMem (C := C) hid hnot
      rwa [h.freed_next hi hlast] at hfreed
  · obtain ⟨i, hi, -, hrun⟩ := returns_allocBit_first (C := C) h hne hfirst
    obtain ⟨-, hbits, -⟩ := (h.sound 0 h0).allocBit hi
    have hlt := (mem_freeBits.mp hi).1
    have hids := freeIds_erase (m := m) h0 hlt hbits
    have hid := add_lt h0 hlt
    rw [Nat.zero_add] at hids hid
    have hfreed := (h.allocIn h0 hi fun hc => absurd rfl hc).returns_freed_of_notMem (C := C) hid (by
      rw [hids]
      exact Finset.notMem_erase _ _)
    rw [h.freed_first hi] at hfreed
    exact ⟨i, _, hrun, hfreed⟩

/-- With at most 131457 bitmaps, allocating an id and freeing it restores every bitmap. -/
theorem restored_of_reachable (h : Reachable C N s) (hN : N ≤ 131457)
    (hfull : ∃ t, isFull C.toCacheOps s = .ok false t) :
    ∃ id s' s'', allocBit C.toCacheOps s = .ok id s' ∧ freeBit C.toCacheOps id s' = .ok () s'' ∧
      ∀ q, IsFSM N q → C.view s'' q = C.view s q := by
  obtain ⟨ok, chain, hinv⟩ := h.inv
  have hne : freeIds (C.view s) N ≠ ∅ := by
    obtain ⟨t, ht⟩ := hfull
    obtain ⟨t', ht', -⟩ := Returns.start ok (returns_isFull (m := C.mem s) hinv)
    intro hempty
    rw [mem_view, decide_eq_true hempty, ht] at ht'
    cases ht'
  obtain ⟨id, m', halloc, hfree⟩ := hinv.restored (C := C) (m := C.mem s) hN hne
  obtain ⟨s', hs', ok', hmem'⟩ := halloc.start ok
  obtain ⟨s'', hs'', -, hmem''⟩ := hfree s' ok' hmem'
  exact ⟨id, s', s'', hs', hs'', fun q _ => congrFun (congrArg Mem.view hmem'') q⟩

/-- Three bitmaps, of which the first is full and the last has one id left: it becomes full, leaves the chain and
comes back. -/
theorem restored_oneBitmap : ∃ s id s' s'', fillRun 2 32670 oneBitmap = .ok () s ∧
    allocBit Mem.cache.toCacheOps s = .ok id s' ∧ freeBit Mem.cache.toCacheOps id s' = .ok () s'' ∧
    ∀ q, IsFSM 3 q → Mem.cache.view s'' q = Mem.cache.view s q := by
  obtain ⟨s, chain, -, hrun, hreach, -, -, hfull, -⟩ := fillRun_ok (n := 2) (k := 32670) (by decide) (by decide)
    (by decide)
  obtain ⟨id, s', s'', hs', hs'', hview⟩ := restored_of_reachable hreach (by decide) hfull
  exact ⟨s, id, s', s'', hrun, hs', hs'', hview⟩

/-- With 131458 bitmaps `allocBit` comes to return 0, and freeing that frees the bitmap 0 itself. -/
theorem restored_counterexample : ∃ s s' s'', fillRun 131457 4191 oneBitmap = .ok () s ∧
    Reachable Mem.cache 131458 s ∧ (∃ t, isFull Mem.cache.toCacheOps s = .ok false t) ∧
    allocBit Mem.cache.toCacheOps s = .ok 0 s' ∧ freeBit Mem.cache.toCacheOps 0 s' = .ok () s'' ∧
    Mem.cache.view s'' 0 ≠ Mem.cache.view s 0 := by
  obtain ⟨s, chain, s', hrun, hreach, hinv, -, hfull, hs'⟩ := fillRun_ok (n := 131457) (k := 4191)
    (by decide) (by decide) (by decide)
  obtain ⟨ok', chain', hinv'⟩ := (hreach.alloc hs').inv
  have h0 := hinv'.isFSM_zero
  have hfree := hinv'.toPages.returns_freed_of_notMem (C := Mem.cache) (m := Mem.cache.mem s') h0.2
    (hinv'.not_mem_freeIds h0)
  obtain ⟨s'', hs'', -, hmem⟩ := hfree.start ok'
  refine ⟨s, s', s'', hrun, hreach, hfull, hs', hs'', fun heq => ?_⟩
  have hcleared : freed (Mem.cache.mem s') 0 = cleared (Mem.cache.mem s') 0 :=
    freed_eq_cleared fun hne => absurd rfl hne
  have hat := fsmAt_congr heq
  rw [← mem_view, hmem, hcleared] at hat
  have hlen : 0 < (fsmAt (Mem.cache.view s') 0).bitmap.length * 8 :=
    Nat.lt_of_lt_of_le (by decide) (hinv'.sound 0 h0).length
  have hused : (fsmAt (cleared (Mem.cache.mem s') 0).view 0).used 0 = false := by
    change (fsmAt ((Mem.cache.mem s').set 0 _).view 0).used 0 = false
    rw [fsmAt_set_self]
    exact (free_used hlen 0).trans (by rw [(hinv'.sound 0 h0).own]; rfl)
  rw [hat, (hinv.sound 0 hinv.isFSM_zero).own] at hused
  cases hused

end Kndb.FreeSpaceMap
