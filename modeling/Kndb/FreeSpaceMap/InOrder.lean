import Kndb.FreeSpaceMap.Reachable

namespace Kndb.FreeSpaceMap

open Imp.Prog FSMPage LawfulCache

variable {Ref σ : Type}

def linkBitmaps (C : CacheOps Ref σ) : ℕ → Code σ Unit
  | 0 => pure ()
  | n + 1 => do
    linkBitmaps C n
    C.insertPage (.fsm (.new ((n + 1) * getBlocksInPage)))
    linkFSMPage C ((n + 1) * getBlocksInPage)

def allocBits (C : CacheOps Ref σ) : ℕ → Code σ Unit
  | 0 => pure ()
  | n + 1 => do
    allocBits C n
    let _ ← allocBit C

/-- The bitmap has given out the ids below `n`. -/
def Filled (n : ℕ) (p : FSMPage) : Prop := p.freeBits = Finset.Ico n getBlocksInPage

variable {C : LawfulCache σ} {N n k q : ℕ} {s : σ} {chain : List ℕ}

theorem filled_new (id : ℕ) : Filled 1 (.new id) := by
  rw [Filled, (sound_new id).2]
  ext i
  rw [Finset.mem_erase, Finset.mem_range, Finset.mem_Ico]
  omega

theorem Filled.first {p : FSMPage} {i : ℕ} (h : Filled n p) (hi : i ∈ p.freeBits)
    (hleast : ∀ j < i, p.used j = true) : i = n := by
  rw [h, Finset.mem_Ico] at hi
  by_contra hne
  have hn : n ∈ p.freeBits := by
    rw [h, Finset.mem_Ico]
    omega
  have := hleast n (by omega)
  rw [(mem_freeBits.mp hn).2] at this
  cases this

theorem Filled.alloc {p : FSMPage} (h : Filled n p) (hp : p.Sound) (hn : n < getBlocksInPage) :
    Filled (n + 1) (p.alloc n) ∧ (p.alloc n).freeBlocks = getBlocksInPage - (n + 1) := by
  have hmem : n ∈ p.freeBits := by
    rw [h, Finset.mem_Ico]
    exact ⟨le_rfl, hn⟩
  obtain ⟨-, hbits, hsound⟩ := hp.allocBit hmem
  have hfilled : Filled (n + 1) (p.alloc n) := by
    rw [Filled, hbits, h]
    ext i
    rw [Finset.mem_erase, Finset.mem_Ico, Finset.mem_Ico]
    omega
  refine ⟨hfilled, ?_⟩
  rw [hsound.count, hfilled, Nat.card_Ico]

theorem linkBitmaps_run (ok : C.Ok s) (hnew : C.view s 0 = some (.fsm (.new 0)))
    (hsmall : n * getBlocksInPage < 2 ^ 32) (hblocks : n * getBlocksInPage < C.getNumBlocks s) :
    ∃ s' chain, linkBitmaps C.toCacheOps n s = .ok () s' ∧ Reachable C (n + 1) s' ∧
      C.getNumBlocks s' = C.getNumBlocks s ∧ Inv (C.view s') (n + 1) chain ∧
      (n ≠ 0 → chain.head? = some (n * getBlocksInPage)) ∧ Filled 1 (fsmAt (C.view s') 0) ∧
      Filled 1 (fsmAt (C.view s') (n * getBlocksInPage)) := by
  induction n with
  | zero =>
    have hfilled : Filled 1 (fsmAt (C.view s) 0) := by
      rw [fsmAt_of_eq hnew]
      exact filled_new 0
    refine ⟨s, [], rfl, .start ok hnew, rfl, inv_start hnew, by simp, hfilled, ?_⟩
    rwa [Nat.zero_mul]
  | succ n ih =>
    have hmul : (n + 1) * getBlocksInPage = n * getBlocksInPage + getBlocksInPage := Nat.succ_mul ..
    obtain ⟨s₁, chain, hrun, hreach, hnum, hinv, -, hfirst, -⟩ := ih (by omega) (by omega)
    have ok₁ := hreach.inv.1
    rw [← hnum] at hblocks
    obtain ⟨t, s', ht, hs', -, hmem, hlink⟩ := link_run ok₁ hinv hsmall hblocks
    have hview : C.view s' = (pushed ((C.mem s₁).set ((n + 1) * getBlocksInPage)
        (.fsm (.new ((n + 1) * getBlocksInPage)))) ((n + 1) * getBlocksInPage)).view := by
      rw [← hmem]
      rfl
    have hne : (0 : ℕ) ≠ (n + 1) * getBlocksInPage :=
      (Nat.mul_pos (Nat.succ_pos n) getBlocksInPage_pos).ne
    refine ⟨s', _, ?_, hreach.link hsmall hblocks ht hs', ?_, hlink, fun _ => rfl, ?_, ?_⟩
    · rw [linkBitmaps, bind_ok hrun, bind_ok ht, hs']
    · rw [← hnum]
      exact congrArg Mem.blocks hmem
    · rw [hview, pushed, fsmAt_set_of_ne hne, fsmAt_set_self, fsmAt_set_of_ne hne]
      exact hfirst
    · rw [hview, pushed, fsmAt_set_self, fsmAt_set_self]
      exact filled_new ((n + 1) * getBlocksInPage)

/-- Page 0 gives out its next ids. -/
theorem allocBits_first (hreach : Reachable C N s) (h : Inv (C.view s) N chain)
    (hf : Filled n (fsmAt (C.view s) 0)) (hk : n + k ≤ getBlocksInPage) :
    ∃ s', allocBits C.toCacheOps k s = .ok () s' ∧ Reachable C N s' ∧ Inv (C.view s') N chain ∧
      Filled (n + k) (fsmAt (C.view s') 0) ∧ ∀ q, q ≠ 0 → fsmAt (C.view s') q = fsmAt (C.view s) q := by
  induction k with
  | zero => exact ⟨s, rfl, hreach, h, hf, fun _ _ => rfl⟩
  | succ k ih =>
    obtain ⟨s₁, hrun, hreach₁, hinv, hfill, hrest⟩ := ih (by omega)
    obtain ⟨ok₁, -⟩ := hreach₁.inv
    have hsound := hinv.sound 0 hinv.isFSM_zero
    have hbit : n + k ∈ (fsmAt (C.view s₁) 0).freeBits := by
      rw [hfill, Finset.mem_Ico]
      omega
    have hfree : (fsmAt (C.view s₁) 0).freeBlocks ≠ 0 := by
      rw [ne_eq, hinv.freeBlocks_eq_zero_iff hinv.isFSM_zero]
      exact Finset.ne_empty_of_mem hbit
    have hne : freeIds (C.view s₁) N ≠ ∅ := fun hempty =>
      hfree (hinv.freeIds_eq_empty_iff.mp hempty).1
    obtain ⟨i, hi, hleast, hret⟩ := returns_allocBit_first (C := C) (m := C.mem s₁) hinv hne hfree
    obtain rfl := hfill.first hi hleast
    obtain ⟨s', hs', -, hmem⟩ := hret.start ok₁
    have hview : C.view s' = ((C.mem s₁).set 0 _).view := congrArg Mem.view hmem
    refine ⟨s', ?_, hreach₁.alloc hs', ?_, ?_, fun q hq => ?_⟩
    · rw [allocBits, bind_ok hrun, bind_ok hs']
      rfl
    · rw [hview]
      exact hinv.allocIn hinv.isFSM_zero hi fun hc => absurd rfl hc
    · rw [hview, fsmAt_set_self]
      exact (hfill.alloc hsound (by omega)).1
    · rw [hview, fsmAt_set_of_ne hq]
      exact hrest q hq

/-- With page 0 full, the head of the chain gives out its next ids, but its last one. -/
theorem allocBits_next (hreach : Reachable C N s) (h : Inv (C.view s) N (q :: chain))
    (hfull : (fsmAt (C.view s) 0).freeBlocks = 0) (hf : Filled n (fsmAt (C.view s) q))
    (hk : n + k < getBlocksInPage) :
    ∃ s', allocBits C.toCacheOps k s = .ok () s' ∧ Reachable C N s' ∧
      Inv (C.view s') N (q :: chain) ∧ (fsmAt (C.view s') 0).freeBlocks = 0 ∧
      Filled (n + k) (fsmAt (C.view s') q) := by
  induction k with
  | zero => exact ⟨s, rfl, hreach, h, hfull, hf⟩
  | succ k ih =>
    obtain ⟨s₁, hrun, hreach₁, hinv, hzero, hfill⟩ := ih (by omega)
    obtain ⟨ok₁, -⟩ := hreach₁.inv
    obtain ⟨-, hq, hq0, hfree⟩ := hinv.head
    have hne : freeIds (C.view s₁) N ≠ ∅ := fun hempty =>
      absurd (hinv.freeIds_eq_empty_iff.mp hempty).2 (by simp)
    obtain ⟨i, hi, hleast, hret⟩ := returns_allocBit_next (C := C) (m := C.mem s₁) hinv hne hzero
    -- the least free bit is the one after those that were taken
    obtain rfl := hfill.first hi hleast
    obtain ⟨hfill', hcount⟩ := hfill.alloc (hinv.sound q hq) (by omega)
    have hleft : ((fsmAt (C.view s₁) q).alloc (n + k)).freeBlocks ≠ 0 := by
      rw [hcount]
      omega
    rw [mem_view, if_neg hleft] at hret
    obtain ⟨s', hs', -, hmem⟩ := hret.start ok₁
    have hview : C.view s' = ((C.mem s₁).set q _).view := congrArg Mem.view hmem
    refine ⟨s', ?_, hreach₁.alloc hs', ?_, ?_, ?_⟩
    · rw [allocBits, bind_ok hrun, bind_ok hs']
      rfl
    · rw [hview]
      exact hinv.allocIn hq hi fun _ => hleft
    · rw [hview, fsmAt_set_of_ne hq0.symm]
      exact hzero
    · rw [hview, fsmAt_set_self]
      exact hfill'

end Kndb.FreeSpaceMap
