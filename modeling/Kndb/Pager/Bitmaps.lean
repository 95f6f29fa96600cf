import Kndb.Pager.Run

namespace Kndb.Pager

open Imp Imp.Prog FSMPage FreeSpaceMap LawfulCache

variable {σ : Type} {C : LawfulCache σ} {s s' : σ} {m : Mem} {N q id : ℕ}

/-- The states that new pages and freed pages lead to, as long as no bitmap is freed. -/
inductive FreeRun (C : LawfulCache σ) : σ → Prop
  | start {s : σ} : C.Ok s → C.getNumBlocks s = 0 → FreeRun C s
  | create {s s' : σ} {args : PageArgs} {id : ℕ} : FreeRun C s →
      createNewPage C.toCacheOps args s = .ok id s' → FreeRun C s'
  | full {s s' : σ} {args : PageArgs} {e : Exn} : FreeRun C s →
      createNewPage C.toCacheOps args s = .throw e s' → FreeRun C s'
  | free {s s' : σ} {id : ℕ} : FreeRun C s → id % getBlocksInPage ≠ 0 →
      freePage C.toCacheOps id s = .ok () s' → FreeRun C s'

/-- `freePage` does not reject the id. -/
def Accepted (C : LawfulCache σ) (s : σ) (id : ℕ) : Prop :=
  id < C.getNumBlocks s ∧ ∃ s', FreeSpaceMap.isFree C.toCacheOps id s = .ok false s'

/-- Every bitmap is in place and marked as allocated. -/
def BitmapsKept (C : LawfulCache σ) (s : σ) : Prop :=
  ∀ q, q % getBlocksInPage = 0 → q < C.getNumBlocks s →
    (∃ p, C.view s q = some (.fsm p)) ∧ Status C s q false

theorem bitmapOf_self (hq : q % getBlocksInPage = 0) : bitmapOf q = q :=
  ((eq_add_iff hq getBlocksInPage_pos).mp (Nat.add_zero q).symm).1

theorem freed_own (h : Pages m.view N) (hq : IsFSM N q) : (freed m q).blocks = m.blocks ∧
    ∃ p : FSMPage, (freed m q).view q = some (.fsm p) ∧ 0 < p.bitmap.length * 8 ∧ p.used 0 = false := by
  have hpos := getBlocksInPage_pos.trans_le (h.sound q hq).length
  have hclear := flip_used (p := (fsmAt m.view q).setFreeBlocks ((fsmAt m.view q).freeBlocks + 1))
    (j := 0) hpos
  rw [setFreeBlocks_used, (h.sound q hq).own] at hclear
  have hlen : 0 < ((fsmAt m.view q).free 0).bitmap.length * 8 := by
    rw [FSMPage.free, flip_length]
    exact hpos
  rw [freed, cleared, bitmapOf_self hq.1, hq.1]
  split
  · refine ⟨rfl, _, Mem.set_self .., ?_, ?_⟩
    · rw [fsmAt_set_self]
      exact hlen
    · rw [fsmAt_set_self]
      exact hclear
  · exact ⟨rfl, _, Mem.set_self .., hlen, hclear⟩

theorem returns_isFree_own (hq : q % getBlocksInPage = 0) {p : FSMPage} (hp : m.view q = some (.fsm p))
    (hlen : 0 < p.bitmap.length * 8) (hclear : p.used 0 = false) :
    C.Returns (FreeSpaceMap.isFree C.toCacheOps q) m true m := by
  rw [← bitmapOf_self hq] at hp
  refine (returns_retrieveFSM hp).bind (returns_call_const (T := FSMPage) hp ?_)
  rw [hq, isFree_eq hlen, hclear]
  rfl

theorem Accepted.cases (ok : C.Ok s) (h : Inv (C.mem s) N) (hid : Accepted C s id) :
    id ∈ liveIds (C.mem s) ∨ IsFSM N id := by
  obtain ⟨hlt, t, ht⟩ := hid
  have hlt' : id < N * getBlocksInPage := h.blocks ▸ hlt
  obtain ⟨t', ht', -⟩ := Returns.start ok (Pager.returns_isFree h id)
  have hstatus : Status C s id false := by
    refine ⟨t, ?_⟩
    rw [Pager.isFree, bind_ok (show gets C.getNumBlocks s = .ok (C.getNumBlocks s) s from rfl),
      if_neg hlt.not_ge]
    exact ht
  rcases (status_iff ok h).mp hstatus |>.mp rfl with hlive | hfsm
  · exact .inl hlive
  · exact .inr ⟨hfsm.1, hlt'⟩

/-- The id of a bitmap passes both checks of `freePage`. -/
theorem returns_freePage_own (h : Inv m N) (hq : IsFSM N q) :
    C.Returns (freePage C.toCacheOps q) m () (freed m q) := by
  obtain ⟨chain, hinv⟩ := h.fsm_of_lt hq.2
  have hused : FreeSpaceMap.used m.view q = true := by
    rw [FreeSpaceMap.used, bitmapOf_self hq.1, hq.1]
    exact (hinv.sound q hq).own
  refine (returns_getNumBlocks m).bind ?_
  refine (returns_require _ (decide_eq_true (h.blocks ▸ hq.2)) _).bind ?_
  refine (FreeSpaceMap.returns_isFree hinv.toPages hq.2).bind ?_
  exact (returns_require _ (by rw [hused]; rfl) _).bind (returns_freed hinv.toPages hq.2 hused)

theorem accepted_of_freePage (h : freePage C.toCacheOps id s = .ok () s') : Accepted C s id := by
  obtain ⟨n, t, hn, h⟩ := ok_of_bind h
  cases hn
  obtain ⟨_, t', hlt, h⟩ := ok_of_bind h
  obtain ⟨b, u, hb, h⟩ := ok_of_bind h
  obtain ⟨_, v, hv, -⟩ := ok_of_bind h
  rw [require] at hlt hv
  split at hlt
  · cases hlt
    rename_i hlt
    refine ⟨of_decide_eq_true hlt, u, ?_⟩
    split at hv
    · rename_i hnot
      rw [Bool.not_eq_true'] at hnot
      rwa [hnot] at hb
    · cases hv
  · cases hlt

/-- Every run that frees no bitmap is one that frees live ids only. -/
theorem FreeRun.run (h : FreeRun C s) : ∃ L, Run C s L := by
  induction h with
  | start ok h0 => exact ⟨∅, .start ok h0⟩
  | create _ hrun ih =>
    obtain ⟨L, hL⟩ := ih
    exact ⟨_, hL.create hrun⟩
  | full _ hrun ih =>
    obtain ⟨L, hL⟩ := ih
    exact ⟨L, hL.full hrun⟩
  | @free s s' id _ hmod hrun ih =>
    obtain ⟨L, hL⟩ := ih
    obtain ⟨ok, rfl, N, hinv⟩ := hL.inv
    rcases (accepted_of_freePage hrun).cases ok hinv with hlive | hfsm
    · exact ⟨_, hL.free hlive hrun⟩
    · exact absurd hfsm.1 hmod

theorem bitmapsKept_of_inv (ok : C.Ok s) (h : Inv (C.mem s) N) : BitmapsKept C s := by
  intro q hq hlt
  have hlt' : q < N * getBlocksInPage := h.blocks ▸ hlt
  obtain ⟨chain, hinv⟩ := h.fsm_of_lt hlt'
  exact ⟨⟨_, hinv.page q ⟨hq, hlt'⟩⟩, (status_iff ok h).mpr (iff_of_true rfl (.inr ⟨hq, hlt⟩))⟩

theorem not_bitmapsKept_of_freed (h : Inv m N) (hq : IsFSM N q) (ok : C.Ok s) (hs : C.mem s = freed m q) :
    ¬BitmapsKept C s := by
  intro hkept
  obtain ⟨chain, hinv⟩ := h.fsm_of_lt hq.2
  obtain ⟨hblocks, p, hp, hlen, hclear⟩ := freed_own hinv.toPages hq
  rw [← hs] at hblocks hp
  have hlt : q < C.getNumBlocks s := hq.2.trans_eq (h.blocks.symm.trans hblocks.symm)
  obtain ⟨-, t, ht⟩ := hkept q hq.1 hlt
  obtain ⟨u, hu, -⟩ := (returns_isFree_own hq.1 hp hlen hclear).start ok
  rw [Pager.isFree, bind_ok (show gets C.getNumBlocks s = .ok (C.getNumBlocks s) s from rfl),
    if_neg hlt.not_ge, hu] at ht
  cases ht

/-- In a run that frees no bitmap all bitmaps stay in place, and `freePage` of an id that it accepts
keeps them so exactly if the id is not a bitmap's. -/
theorem bitmapsKept_iff (h : FreeRun C s) : BitmapsKept C s ∧ ∀ id, Accepted C s id →
    ∃ s', freePage C.toCacheOps id s = .ok () s' ∧
      (BitmapsKept C s' ↔ id % getBlocksInPage ≠ 0) := by
  obtain ⟨L, hL⟩ := h.run
  obtain ⟨ok, -, N, hinv⟩ := hL.inv
  refine ⟨bitmapsKept_of_inv ok hinv, fun id hid => ?_⟩
  rcases hid.cases ok hinv with hlive | hfsm
  · obtain ⟨m', hret, ⟨N', hinv'⟩, -, -⟩ := returns_freePage (C := C) hinv hlive
    obtain ⟨s', hs', ok', rfl⟩ := hret.start ok
    refine ⟨s', hs', iff_of_true (bitmapsKept_of_inv ok' hinv') ?_⟩
    exact ((mem_liveIds hinv.blocks).mp hlive).2.1
  · obtain ⟨s', hs', ok', hmem⟩ := (returns_freePage_own hinv hfsm).start ok
    exact ⟨s', hs', iff_of_false (not_bitmapsKept_of_freed hinv hfsm ok' hmem) (not_not.mpr hfsm.1)⟩

theorem freeRun_schema : ∃ id s, createNewPage Mem.cache.toCacheOps .schema ⟨fun _ => none, 0⟩ = .ok id s ∧
    FreeRun Mem.cache s ∧ ∃ N, Inv (Mem.cache.mem s) N ∧ IsFSM N 0 := by
  have hstart : FreeRun Mem.cache ⟨fun _ => none, 0⟩ := .start (fun id p hp => by cases hp) rfl
  have hrun : Run Mem.cache ⟨fun _ => none, 0⟩ ∅ := run_empty
  obtain ⟨id, s, hs⟩ := (pagerOk_of_run hrun).returns .schema trivial (by decide)
  obtain ⟨-, -, N, hinv⟩ := (hrun.create hs).inv
  refine ⟨id, s, hs, hstart.create hs, N, hinv, Nat.zero_mod _, ?_⟩
  have hlt := ((pagerOk_of_run hrun).create _ _ _ hs).1
  exact hinv.blocks ▸ (Nat.zero_le id).trans_lt hlt

theorem bitmapsKept_schema : ∃ id s,
    createNewPage Mem.cache.toCacheOps .schema ⟨fun _ => none, 0⟩ = .ok id s ∧ BitmapsKept Mem.cache s ∧
      ∀ id, Accepted Mem.cache s id → ∃ s', freePage Mem.cache.toCacheOps id s = .ok () s' ∧
        (BitmapsKept Mem.cache s' ↔ id % getBlocksInPage ≠ 0) := by
  obtain ⟨id, s, hs, hrun, -⟩ := freeRun_schema
  exact ⟨id, s, hs, bitmapsKept_iff hrun⟩

/-- The only bitmap of a file is freed by its id 0. -/
theorem bitmapsKept_counterexample : ∃ id s s',
    createNewPage Mem.cache.toCacheOps .schema ⟨fun _ => none, 0⟩ = .ok id s ∧
      freePage Mem.cache.toCacheOps 0 s = .ok () s' ∧ ¬BitmapsKept Mem.cache s' := by
  obtain ⟨id, s, hs, hrun, N, hinv, h0⟩ := freeRun_schema
  obtain ⟨L, hL⟩ := hrun.run
  obtain ⟨ok, -, -⟩ := hL.inv
  obtain ⟨s', hs', ok', hmem⟩ := (returns_freePage_own hinv h0).start ok
  exact ⟨id, s, s', hs, hs', not_bitmapsKept_of_freed hinv h0 ok' hmem⟩

end Kndb.Pager
