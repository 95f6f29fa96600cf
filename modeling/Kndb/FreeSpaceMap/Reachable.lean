import Kndb.FSMPage.Bytes
import Kndb.FreeSpaceMap.Operations
import Kndb.MemCache

namespace Kndb.FreeSpaceMap

open Imp Imp.Prog FSMPage Chain LawfulCache

variable {σ : Type} {C : LawfulCache σ} {m : Mem} {N : ℕ} {s s' : σ} {chain : List ℕ}

/-- A bitmap has been written to a buffer and read back. -/
def Reread (id : ℕ) (pg pg' : Option Page) : Prop :=
  ∃ (p p' : FSMPage) (J : Junk) (out : Codec.Bytes), pg = some (.fsm p) ∧
    p.toBytes [] = .ok () out ∧ parse id (fillBlock J out) = .ok p' [] ∧ pg' = some (.fsm p')

/-- The states of a run that starts from one new bitmap, and their numbers of bitmaps. -/
inductive Reachable (C : LawfulCache σ) : ℕ → σ → Prop
  | start {s : σ} : C.Ok s → C.view s 0 = some (.fsm (.new 0)) → Reachable C 1 s
  | alloc {N id : ℕ} {s s' : σ} : Reachable C N s → allocBit C.toCacheOps s = .ok id s' →
      Reachable C N s'
  | free {N id : ℕ} {s s' : σ} : Reachable C N s → id < N * getBlocksInPage →
      id % getBlocksInPage ≠ 0 → freeBit C.toCacheOps id s = .ok () s' → Reachable C N s'
  /-- The id of the new bitmap is a `pgid_t`, and its block exists. -/
  | link {N : ℕ} {s t s' : σ} : Reachable C N s → N * getBlocksInPage < 2 ^ 32 →
      N * getBlocksInPage < C.getNumBlocks s →
      C.insertPage (.fsm (.new (N * getBlocksInPage))) s = .ok () t →
      linkFSMPage C.toCacheOps (N * getBlocksInPage) t = .ok () s' → Reachable C (N + 1) s'
  /-- Other pages and the file may change as well. -/
  | reread {N : ℕ} {s s' : σ} : Reachable C N s → C.Ok s' →
      (∀ q, IsFSM N q → C.view s' q = C.view s q ∨ Reread q (C.view s q) (C.view s' q)) →
      Reachable C N s'

theorem Inv.reread {view view' : ℕ → Option Page} (h : Inv view N chain)
    (hre : ∀ q, IsFSM N q → view' q = view q ∨ Reread q (view q) (view' q)) :
    Inv view' N chain := by
  have hext : ∀ q, IsFSM N q → view' q = some (.fsm (fsmAt view' q)) ∧
      Extends (fsmAt view q) (fsmAt view' q) ∧ (fsmAt view' q).Sound := by
    intro q hq
    rcases hre q hq with heq | ⟨p, p', J, out, hp, hw, hr, hp'⟩
    · rw [fsmAt_congr heq, heq]
      exact ⟨h.page q hq, .refl _, h.sound q hq⟩
    · have hpq := fsmAt_of_eq hp
      obtain ⟨out', hw', -, p'', hr', hx, hs⟩ := (h.sound q hq).reread J
      rw [h.pageID_eq q hq] at hr'
      rw [hpq] at hw' hx
      obtain rfl : out = out' := by simpa [hw] using hw'
      obtain rfl : p' = p'' := by simpa [hr] using hr'
      rw [fsmAt_of_eq hp', hpq, hp']
      exact ⟨rfl, hx, hs⟩
  have hpages : Pages view' N := ⟨h.pos, h.id_lt, fun q hq => (hext q hq).1,
    fun q hq => (hext q hq).2.2, fun q hq => (hext q hq).2.1.pageID.trans (h.pageID_eq q hq)⟩
  refine { hpages with lists := ?_, mem_chain := fun q => ?_ }
  · apply h.lists.congr
    · exact (hext 0 h.isFSM_zero).2.1.nextPageID
    · exact fun q hq => (hext q ((h.mem_chain q).mp hq).1).2.1.nextPageID
  · rw [h.mem_chain]
    refine and_congr_right fun hq => ?_
    rw [(hext q hq).2.1.freeBlocks]

/-- `allocBit` stops the process on a full map. -/
theorem freeIds_ne_of_allocBit {id : ℕ} (ok : C.Ok s) (h : Inv (C.view s) N chain)
    (hrun : allocBit C.toCacheOps s = .ok id s') : freeIds (C.view s) N ≠ ∅ := by
  intro hempty
  obtain ⟨t, hfull, -⟩ := Returns.start ok (returns_isFull (m := C.mem s) h)
  rw [mem_view, decide_eq_true hempty] at hfull
  rw [allocBit, bind_ok hfull] at hrun
  cases hrun

/-- `freeBit` stops the process on a free id. -/
theorem not_mem_freeIds_of_freeBit {id : ℕ} (ok : C.Ok s) (h : Inv (C.view s) N chain)
    (hid : id < N * getBlocksInPage) (hrun : freeBit C.toCacheOps id s = .ok () s') :
    id ∉ freeIds (C.view s) N := by
  intro hmem
  obtain ⟨t, hfree, -⟩ := Returns.start ok (returns_isFree (m := C.mem s) h.toPages hid)
  rw [mem_view, (used_eq_false_iff hid).mpr hmem] at hfree
  rw [freeBit, bind_ok hfree] at hrun
  cases hrun

theorem link_run (ok : C.Ok s) (h : Inv (C.view s) N chain) (hsmall : N * getBlocksInPage < 2 ^ 32)
    (hblock : N * getBlocksInPage < C.getNumBlocks s) :
    ∃ t s', C.insertPage (.fsm (.new (N * getBlocksInPage))) s = .ok () t ∧
      linkFSMPage C.toCacheOps (N * getBlocksInPage) t = .ok () s' ∧ C.Ok s' ∧
      C.mem s' = pushed ((C.mem s).set (N * getBlocksInPage) (.fsm (.new (N * getBlocksInPage))))
        (N * getBlocksInPage) ∧
      Inv (C.view s') (N + 1) (N * getBlocksInPage :: chain) := by
  obtain ⟨t, ht, okt, hmemt⟩ := Returns.start ok
    (returns_insertPage (C := C) (m := C.mem s) (.fsm (.new (N * getBlocksInPage))) hblock)
  have hinv : Inv (C.mem t).view N chain := by
    rw [hmemt]
    exact h.congr fun q hq => Mem.set_of_ne hq.2.ne ..
  have hnew : (C.mem t).view (N * getBlocksInPage) = some (.fsm (.new (N * getBlocksInPage))) := by
    rw [hmemt]
    exact Mem.set_self ..
  obtain ⟨s', hs', ok', hmem⟩ := (returns_linkFSMPage (C := C) hinv hsmall hnew).start okt
  have hlink := hinv.link hsmall hnew
  rw [← hmem] at hlink
  rw [hmemt] at hmem
  exact ⟨t, s', ht, hs', ok', hmem, hlink⟩

theorem Reachable.inv (h : Reachable C N s) : C.Ok s ∧ ∃ chain, Inv (C.view s) N chain := by
  induction h with
  | start ok h0 => exact ⟨ok, [], inv_start h0⟩
  | @alloc N id s s' _ hrun ih =>
    obtain ⟨ok, chain, hinv⟩ := ih
    obtain ⟨x, -, m', hret, hstep, -⟩ :=
      returns_allocBit (m := C.mem s) hinv (freeIds_ne_of_allocBit ok hinv hrun)
    obtain ⟨t, ht, ok', hmem⟩ := hret.start ok
    obtain ⟨-, rfl⟩ : id = x % 2 ^ 32 ∧ s' = t := by simpa [hrun] using ht
    exact ⟨ok', by simpa [← hmem] using hstep.inv⟩
  | @free N id s s' _ hid hfsm hrun ih =>
    obtain ⟨ok, chain, hinv⟩ := ih
    obtain ⟨m', hret, hstep, -⟩ := returns_freeBit (m := C.mem s) hinv hid
      (not_mem_freeIds_of_freeBit ok hinv hid hrun) hfsm
    obtain ⟨t, ht, ok', hmem⟩ := hret.start ok
    obtain rfl : s' = t := by simpa [hrun] using ht
    exact ⟨ok', by simpa [← hmem] using hstep.inv⟩
  | @link N s t s' _ hsmall hblock hins hrun ih =>
    obtain ⟨ok, chain, hinv⟩ := ih
    obtain ⟨u, v, hu, hv, ok', -, hlink⟩ := link_run ok hinv hsmall hblock
    obtain rfl : t = u := by simpa [hins] using hu
    obtain rfl : s' = v := by simpa [hrun] using hv
    exact ⟨ok', _, hlink⟩
  -- the bitmaps may have been written and read back in between
  | @reread N s s' _ ok' hre ih =>
    obtain ⟨-, chain, hinv⟩ := ih
    exact ⟨ok', chain, hinv.reread hre⟩

end Kndb.FreeSpaceMap
