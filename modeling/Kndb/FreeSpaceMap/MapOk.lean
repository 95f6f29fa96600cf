import Kndb.FreeSpaceMap.InOrder

namespace Kndb.FreeSpaceMap

open Imp Imp.Prog FSMPage Chain LawfulCache

variable {σ : Type} {C : LawfulCache σ} {m : Mem} {N : ℕ} {s s' : σ} {chain : List ℕ}

def Status (C : LawfulCache σ) (s : σ) (id : ℕ) (b : Bool) : Prop :=
  ∃ s', isFree C.toCacheOps id s = .ok b s'

/-- Between the two states one id changes its status, which was `was`. -/
def FlipsOnly (C : LawfulCache σ) (N : ℕ) (s s' : σ) (id : ℕ) (was : Bool) : Prop :=
  Status C s id was ∧ Status C s' id (!was) ∧
    ∀ x < N * getBlocksInPage, x ≠ id → ∀ b, Status C s' x b ↔ Status C s x b

/-- The map with `N` bitmaps works. -/
structure MapOk (C : LawfulCache σ) (N : ℕ) (s : σ) : Prop where
  chain : ∃ chain, Lists (next (C.view s)) 0 PGID_INVALID chain ∧
    ∀ q, q ∈ chain ↔ IsFSM N q ∧ q ≠ 0 ∧ (fsmAt (C.view s) q).freeBits ≠ ∅
  count : ∀ q, IsFSM N q → ∃ p, C.view s q = some (.fsm p) ∧ p.freeBlocks = p.freeBits.card
  isFull : ∃ b s', isFull C.toCacheOps s = .ok b s' ∧
    (b = true ↔ ∀ q, IsFSM N q → (fsmAt (C.view s) q).freeBits = ∅)
  alloc : (∃ s', FreeSpaceMap.isFull C.toCacheOps s = .ok false s') →
    ∃ id s', allocBit C.toCacheOps s = .ok id s' ∧ id < N * getBlocksInPage ∧
      FlipsOnly C N s s' id true
  free : ∀ id < N * getBlocksInPage, id % getBlocksInPage ≠ 0 → Status C s id false →
    ∃ s', freeBit C.toCacheOps id s = .ok () s' ∧ FlipsOnly C N s s' id false

theorem status_iff {id : ℕ} {b : Bool} (ok : C.Ok s) (h : Pages (C.view s) N)
    (hid : id < N * getBlocksInPage) :
    Status C s id b ↔ (b = true ↔ id ∈ freeIds (C.view s) N) := by
  have hb : Status C s id b ↔ b = !used (C.view s) id := (returns_isFree (m := C.mem s) h hid).ok_iff ok
  rw [hb, ← used_eq_false_iff hid]
  cases b <;> cases used (C.view s) id <;> simp

theorem flipsOnly {id : ℕ} {was : Bool} (ok : C.Ok s) (h : Pages (C.view s) N) (ok' : C.Ok s')
    (h' : Pages (C.view s') N) (hid : id < N * getBlocksInPage)
    (hwas : was = true ↔ id ∈ freeIds (C.view s) N)
    (hnow : (!was) = true ↔ id ∈ freeIds (C.view s') N)
    (hrest : ∀ x, x ≠ id → (x ∈ freeIds (C.view s') N ↔ x ∈ freeIds (C.view s) N)) :
    FlipsOnly C N s s' id was := by
  refine ⟨(status_iff ok h hid).mpr hwas, (status_iff ok' h' hid).mpr hnow, fun x hx hne b => ?_⟩
  rw [status_iff ok h hx, status_iff ok' h' hx, hrest x hne]

/-- With at most 131457 bitmaps, so that every id is a `pgid_t`, the map works after every run. -/
theorem mapOk_of_reachable (h : Reachable C N s) (hN : N ≤ 131457) : MapOk C N s := by
  obtain ⟨ok, chain, hinv⟩ := h.inv
  have hlt : ∀ id < N * getBlocksInPage, id < 2 ^ 32 := fun id hid =>
    hid.trans_le ((Nat.mul_le_mul_right _ hN).trans (by decide))
  obtain ⟨t, hfull, -⟩ := Returns.start ok (returns_isFull (m := C.mem s) hinv)
  refine ⟨⟨chain, hinv.lists, fun q => ?_⟩, fun q hq => ?_, ⟨_, t, hfull, ?_⟩, ?_, ?_⟩
  · rw [hinv.mem_chain]
    exact and_congr_right fun hq => and_congr_right fun _ => (hinv.freeBlocks_eq_zero_iff hq).not
  · exact ⟨_, hinv.page q hq, (hinv.sound q hq).count⟩
  · rw [decide_eq_true_iff, mem_view, freeIds_eq_empty_iff]
  · rintro ⟨t', hfull'⟩
    have hne : freeIds (C.view s) N ≠ ∅ := by
      intro hempty
      rw [mem_view, decide_eq_true hempty, hfull'] at hfull
      cases hfull
    obtain ⟨id, hid, m', hret, hstep, hids⟩ := returns_allocBit (C := C) (m := C.mem s) hinv hne
    obtain ⟨s', hs', ok', rfl⟩ := hret.start ok
    obtain ⟨chain', hinv'⟩ := hstep.inv
    have hidN := (mem_freeIds.mp hid).1
    rw [Nat.mod_eq_of_lt (hlt id hidN)] at hs'
    rw [mem_view, mem_view] at hids
    refine ⟨id, s', hs', hidN, flipsOnly ok hinv.toPages ok' hinv'.toPages hidN ?_ ?_ fun x hx => ?_⟩
    · exact iff_of_true rfl hid
    · rw [hids]
      simp
    · rw [hids, Finset.mem_erase]
      exact and_iff_right hx
  · intro id hidN hfsm hused
    have hnot : id ∉ freeIds (C.view s) N := by
      have := (status_iff ok hinv.toPages hidN).mp hused
      exact fun hid => absurd (this.mpr hid) (by simp)
    obtain ⟨m', hret, hstep, hids⟩ := returns_freeBit (C := C) (m := C.mem s) hinv hidN hnot hfsm
    obtain ⟨s', hs', ok', rfl⟩ := hret.start ok
    obtain ⟨chain', hinv'⟩ := hstep.inv
    rw [mem_view, mem_view] at hids
    refine ⟨s', hs', flipsOnly ok hinv.toPages ok' hinv'.toPages hidN ?_ ?_ fun x hx => ?_⟩
    · exact iff_of_false (by simp) hnot
    · rw [hids]
      simp
    · rw [hids, Finset.mem_insert]
      exact or_iff_right hx

def oneBitmap : Mem := (⟨fun _ => none, 2 ^ 32 - 1⟩ : Mem).set 0 (.fsm (.new 0))

theorem ok_oneBitmap : oneBitmap.Ok := by
  refine Mem.Ok.set (fun id p hp => ?_) rfl
  cases hp

theorem status_unique {id : ℕ} {b b' : Bool} (h : Status C s id b) (h' : Status C s id b') :
    b = b' := by
  obtain ⟨t, ht⟩ := h
  obtain ⟨t', ht'⟩ := h'
  rw [ht] at ht'
  cases ht'
  rfl

/-- Link `n` bitmaps, fill the first, and take `k` ids of the last. -/
def fillRun (n k : ℕ) : Code Mem Unit := do
  linkBitmaps Mem.cache.toCacheOps n
  allocBits Mem.cache.toCacheOps 32671
  allocBits Mem.cache.toCacheOps k

/-- The next id is that of the next bit of the last bitmap, as far as it fits. -/
theorem fillRun_ok {n k : ℕ} (hn : n ≠ 0) (hblocks : n * getBlocksInPage < 2 ^ 32 - 1) (hk : 1 + k < getBlocksInPage) :
    ∃ s chain s', fillRun n k oneBitmap = .ok () s ∧ Reachable Mem.cache (n + 1) s ∧
      Inv (Mem.cache.view s) (n + 1) (n * getBlocksInPage :: chain) ∧ (fsmAt (Mem.cache.view s) 0).freeBlocks = 0 ∧
      (∃ t, isFull Mem.cache.toCacheOps s = .ok false t) ∧
      allocBit Mem.cache.toCacheOps s = .ok ((n * getBlocksInPage + (1 + k)) % 2 ^ 32) s' := by
  obtain ⟨s₁, chain, hrun₁, hreach₁, -, hinv₁, hhead, hfirst, hq⟩ :=
    linkBitmaps_run (C := Mem.cache) ok_oneBitmap rfl (hblocks.trans (by decide)) hblocks
  obtain ⟨chain, rfl⟩ := List.head?_eq_some_iff.mp (hhead hn)
  obtain ⟨s₂, hrun₂, hreach₂, hinv₂, hfirst₂, hrest⟩ :=
    allocBits_first (k := 32671) hreach₁ hinv₁ hfirst (by decide)
  rw [← hrest _ hinv₁.head.2.2.1] at hq
  have hzero : (fsmAt (Mem.cache.view s₂) 0).freeBlocks = 0 := by
    rw [hinv₂.freeBlocks_eq_zero_iff hinv₂.isFSM_zero, hfirst₂]
    decide
  obtain ⟨s₃, hrun₃, hreach₃, hinv₃, hzero₃, hq₃⟩ := allocBits_next hreach₂ hinv₂ hzero hq hk
  obtain ⟨ok₃, -⟩ := hreach₃.inv
  have hne : freeIds (Mem.cache.view s₃) (n + 1) ≠ ∅ := fun hempty =>
    absurd (hinv₃.freeIds_eq_empty_iff.mp hempty).2 (by simp)
  obtain ⟨i, hi, hleast, hret⟩ :=
    returns_allocBit_next (C := Mem.cache) (m := Mem.cache.mem s₃) hinv₃ hne hzero₃
  obtain rfl := hq₃.first hi hleast
  obtain ⟨s', hs', -⟩ := hret.start ok₃
  obtain ⟨t, hfull, -⟩ := Returns.start ok₃ (returns_isFull (C := Mem.cache) (m := Mem.cache.mem s₃) hinv₃)
  rw [mem_view, decide_eq_false hne] at hfull
  refine ⟨s₃, chain, s', ?_, hreach₃, hinv₃, hzero₃, ⟨t, hfull⟩, hs'⟩
  rw [fillRun, bind_ok hrun₁, bind_ok hrun₂, hrun₃]

/-- Two bitmaps are linked to the first, which is filled, and six ids of the last one are taken.  Then an id of the
first is given back. -/
theorem mapOk_oneBitmap : ∃ s s₁ s₂, fillRun 2 5 oneBitmap = .ok () s ∧ MapOk Mem.cache 3 s ∧
    allocBit Mem.cache.toCacheOps s = .ok 65350 s₁ ∧ MapOk Mem.cache 3 s₁ ∧
    freeBit Mem.cache.toCacheOps 7 s₁ = .ok () s₂ ∧ MapOk Mem.cache 3 s₂ := by
  obtain ⟨s, chain, s₁, hrun, hreach, hinv, hzero, hfull, hs₁⟩ := fillRun_ok (n := 2) (k := 5) (by decide) (by decide)
    (by decide)
  obtain ⟨ok, -⟩ := hreach.inv
  have hok := mapOk_of_reachable hreach (by decide)
  have hreach₁ := hreach.alloc hs₁
  have hok₁ := mapOk_of_reachable hreach₁ (by decide)
  have hused : Status Mem.cache s 7 false := by
    refine (status_iff ok hinv.toPages (by decide)).mpr (iff_of_false (by simp) fun hmem => ?_)
    have hbit : 7 ∈ (fsmAt (Mem.cache.view s) 0).freeBits := (mem_freeIds.mp hmem).2
    rw [(hinv.freeBlocks_eq_zero_iff hinv.isFSM_zero).mp hzero] at hbit
    cases hbit
  have hused₁ : Status Mem.cache s₁ 7 false := by
    obtain ⟨id, t, ht, -, -, -, hrest⟩ := hok.alloc hfull
    cases hs₁.symm.trans ht
    exact (hrest 7 (by decide) (by decide) false).mpr hused
  obtain ⟨s₂, hs₂, -⟩ := hok₁.free 7 (by decide) (by decide) hused₁
  exact ⟨s, s₁, s₂, hrun, hok, hs₁, hok₁, hs₂,
    mapOk_of_reachable (hreach₁.free (by decide) (by decide) hs₂) (by decide)⟩

/-- With 131458 bitmaps `allocBit` comes to return 0, the id of the first bitmap. -/
theorem mapOk_counterexample : ∃ s, (do
      linkBitmaps Mem.cache.toCacheOps 131457
      allocBits Mem.cache.toCacheOps 32671
      allocBits Mem.cache.toCacheOps 4191) oneBitmap = .ok () s ∧
    Reachable Mem.cache 131458 s ∧ (∃ s', allocBit Mem.cache.toCacheOps s = .ok 0 s') ∧
    Status Mem.cache s 0 false ∧ ¬MapOk Mem.cache 131458 s := by
  obtain ⟨s, chain, s', hrun, hreach, hinv, -, hfull, hs'⟩ := fillRun_ok (n := 131457) (k := 4191)
    (by decide) (by decide) (by decide)
  obtain ⟨ok, -⟩ := hreach.inv
  have hown : Status Mem.cache s 0 false := by
    refine (status_iff ok hinv.toPages hinv.isFSM_zero.2).mpr (iff_of_false (by simp) ?_)
    exact hinv.not_mem_freeIds hinv.isFSM_zero
  refine ⟨s, hrun, hreach, ⟨s', hs'⟩, hown, fun hok => ?_⟩
  obtain ⟨id, u, hu, -, hflip, -⟩ := hok.alloc hfull
  rw [hs'] at hu
  cases hu
  exact absurd (status_unique hflip hown) (by simp)

end Kndb.FreeSpaceMap
