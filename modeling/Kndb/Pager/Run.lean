import Kndb.MemCache
import Kndb.Pager.Invariant

namespace Kndb.Pager

open Imp Imp.Prog FSMPage LawfulCache

variable {σ : Type} {C : LawfulCache σ} {s s' : σ} {L : Finset ℕ}

inductive Run (C : LawfulCache σ) : σ → Finset ℕ → Prop
  | start {s : σ} : C.Ok s → C.getNumBlocks s = 0 → Run C s ∅
  | create {s s' : σ} {L : Finset ℕ} {args : PageArgs} {id : ℕ} : Run C s L →
      createNewPage C.toCacheOps args s = .ok id s' → Run C s' (insert id L)
  | full {s s' : σ} {L : Finset ℕ} {args : PageArgs} {e : Exn} : Run C s L →
      createNewPage C.toCacheOps args s = .throw e s' → Run C s' L
  | free {s s' : σ} {L : Finset ℕ} {id : ℕ} : Run C s L → id ∈ L →
      freePage C.toCacheOps id s = .ok () s' → Run C s' (L.erase id)
  /-- The contents of pages that are not bitmaps may change in between. -/
  | write {s s' : σ} {L : Finset ℕ} : Run C s L → C.Ok s' → C.getNumBlocks s' = C.getNumBlocks s →
      (∀ q, q % getBlocksInPage = 0 → C.view s' q = C.view s q) → Run C s' L

theorem run_empty : Run Mem.cache ⟨fun _ => none, 0⟩ ∅ := .start (fun id p hp => by cases hp) rfl

def Status (C : LawfulCache σ) (s : σ) (id : ℕ) (b : Bool) : Prop :=
  ∃ s', isFree C.toCacheOps id s = .ok b s'

/-- The pager works, with the live ids `L`. -/
structure PagerOk (C : LawfulCache σ) (s : σ) (L : Finset ℕ) : Prop where
  isFree : ∀ id, ∃ b, Status C s id b ∧
    (b = false ↔ id ∈ L ∨ id % getBlocksInPage = 0 ∧ id < C.getNumBlocks s)
  create : ∀ args s' id, createNewPage C.toCacheOps args s = .ok id s' →
    id < C.getNumBlocks s' ∧ id ∉ L ∧ id % getBlocksInPage ≠ 0
  throws_iff : ∀ args, (∃ e s', createNewPage C.toCacheOps args s = .throw e s') ↔
    L.card = MAX_FSMPAGES * (getBlocksInPage - 1)
  unchanged : ∀ args e s', createNewPage C.toCacheOps args s = .throw e s' →
    ∀ id b, Status C s' id b ↔ Status C s id b
  returns : ∀ args : PageArgs, args.Accepts → L.card ≠ MAX_FSMPAGES * (getBlocksInPage - 1) →
    ∃ id s', createNewPage C.toCacheOps args s = .ok id s'
  free : ∀ id ∈ L, ∃ s', freePage C.toCacheOps id s = .ok () s'

/-- What `createNewPage` does, by whether the file is full and the constructor takes its arguments. -/
theorem createNewPage_cases {N : ℕ} (ok : C.Ok s) (h : Inv (C.mem s) N) (args : PageArgs) :
    ((liveIds (C.mem s)).card = capacity ∧ ∃ s', createNewPage C.toCacheOps args s = .throw sizeLimit s' ∧
        C.Ok s' ∧ C.mem s' = C.mem s) ∨
      ((liveIds (C.mem s)).card ≠ capacity ∧ ¬args.Accepts ∧
        ∃ msg, createNewPage C.toCacheOps args s = .abort msg) ∨
      ((liveIds (C.mem s)).card ≠ capacity ∧ ∃ id s', createNewPage C.toCacheOps args s = .ok id s' ∧
        C.Ok s' ∧ id < C.getNumBlocks s' ∧ id % getBlocksInPage ≠ 0 ∧ id ∉ liveIds (C.mem s) ∧
        Step (C.mem s) (C.mem s') (insert id (liveIds (C.mem s)))) := by
  by_cases hfull : (liveIds (C.mem s)).card = capacity
  · exact .inl ⟨hfull, throws_createNewPage (C := C) h hfull s ok rfl⟩
  by_cases hargs : args.Accepts
  · obtain ⟨id, m', hret, hlt, hmod, hnot, -, -, hstep⟩ := returns_createNewPage (C := C) h hargs hfull
    obtain ⟨s', hs', ok', rfl⟩ := hret.start ok
    exact .inr (.inr ⟨hfull, id, s', hs', ok', hlt, hmod, hnot, hstep⟩)
  · exact .inr (.inl ⟨hfull, hargs, aborts_createNewPage (C := C) h hargs hfull ok rfl⟩)

theorem createNewPage_throws_iff {N : ℕ} (ok : C.Ok s) (h : Inv (C.mem s) N) (args : PageArgs) :
    (∃ e s', createNewPage C.toCacheOps args s = .throw e s') ↔ (liveIds (C.mem s)).card = capacity := by
  obtain ⟨hfull, t, ht, -⟩ | ⟨hfull, -, msg, hmsg⟩ | ⟨hfull, id, t, ht, -⟩ := createNewPage_cases ok h args
  · exact iff_of_true ⟨_, _, ht⟩ hfull
  · refine iff_of_false (fun ⟨e, s', hs'⟩ => ?_) hfull
    rw [hmsg] at hs'
    cases hs'
  · refine iff_of_false (fun ⟨e, s', hs'⟩ => ?_) hfull
    rw [ht] at hs'
    cases hs'

theorem Run.inv (h : Run C s L) : C.Ok s ∧ liveIds (C.mem s) = L ∧ ∃ N, Inv (C.mem s) N := by
  induction h with
  | @start s ok h0 =>
    have hblocks : (C.mem s).blocks = 0 * getBlocksInPage := h0.trans (Nat.zero_mul _).symm
    refine ⟨ok, ?_, 0, hblocks, Nat.zero_le _, fun hne => absurd rfl hne⟩
    rw [liveIds, hblocks]
    simp
  | @create s s' L args id _ hrun ih =>
    obtain ⟨ok, rfl, N, hinv⟩ := ih
    obtain ⟨-, t, ht, -⟩ | ⟨-, -, msg, hmsg⟩ | ⟨-, id', t, ht, ok', -, -, -, hstep⟩ :=
      createNewPage_cases ok hinv args
    · rw [hrun] at ht
      cases ht
    · rw [hrun] at hmsg
      cases hmsg
    · rw [hrun] at ht
      cases ht
      exact ⟨ok', hstep.live, hstep.inv⟩
  | @full s s' L args e _ hrun ih =>
    obtain ⟨ok, rfl, N, hinv⟩ := ih
    obtain ⟨-, t, ht, ok', hmem⟩ | ⟨-, -, msg, hmsg⟩ | ⟨-, id', t, ht, -⟩ :=
      createNewPage_cases ok hinv args
    · rw [hrun] at ht
      cases ht
      exact ⟨ok', by rw [hmem], N, by rwa [hmem]⟩
    · rw [hrun] at hmsg
      cases hmsg
    · rw [hrun] at ht
      cases ht
  | @free s s' L id _ hid hrun ih =>
    obtain ⟨ok, rfl, N, hinv⟩ := ih
    obtain ⟨m', hret, hstep⟩ := returns_freePage (C := C) hinv hid
    obtain ⟨t, ht, ok', rfl⟩ := hret.start ok
    rw [hrun] at ht
    cases ht
    exact ⟨ok', hstep.live, hstep.inv⟩
  | @write s s' L _ ok' hblocks hview ih =>
    obtain ⟨-, rfl, N, hinv⟩ := ih
    obtain ⟨hinv', hlive⟩ :=
      hinv.congr (show (C.mem s').blocks = (C.mem s).blocks from hblocks) hview
    exact ⟨ok', hlive, N, hinv'⟩

theorem status_iff {N id : ℕ} {b : Bool} (ok : C.Ok s) (h : Inv (C.mem s) N) :
    Status C s id b ↔ (b = false ↔
      id ∈ liveIds (C.mem s) ∨ id % getBlocksInPage = 0 ∧ id < C.getNumBlocks s) := by
  have hb : Status C s id b ↔ b = !decide (id ∈ liveIds (C.mem s) ∨
      id % getBlocksInPage = 0 ∧ id < C.getNumBlocks s) := (returns_isFree h id).ok_iff ok
  rw [hb]
  by_cases hu : id ∈ liveIds (C.mem s) ∨ id % getBlocksInPage = 0 ∧ id < C.getNumBlocks s
  · rw [decide_eq_true hu, iff_true_right hu]
    rfl
  · rw [decide_eq_false hu, iff_false_right hu, Bool.not_eq_false]
    rfl

theorem status_congr {N id : ℕ} {b : Bool} (ok : C.Ok s) (h : Inv (C.mem s) N) (ok' : C.Ok s')
    (hm : C.mem s' = C.mem s) : Status C s' id b ↔ Status C s id b := by
  have hblocks : C.getNumBlocks s' = C.getNumBlocks s := congrArg Mem.blocks hm
  rw [status_iff ok h, status_iff ok' (hm ▸ h), hm, hblocks]

/-- The pager works after every run. -/
theorem pagerOk_of_run (h : Run C s L) : PagerOk C s L := by
  obtain ⟨ok, rfl, N, hinv⟩ := h.inv
  have hcases := fun args => createNewPage_cases ok hinv args
  refine ⟨fun id => ?_, fun args s' id hrun => ?_, fun args => ?_, fun args e s' hrun => ?_,
    fun args hargs hne => ?_, fun id hid => ?_⟩
  · obtain ⟨t, ht, -⟩ := Returns.start ok (returns_isFree hinv id)
    exact ⟨_, ⟨t, ht⟩, (status_iff ok hinv).mp ⟨t, ht⟩⟩
  · obtain ⟨-, t, ht, -⟩ | ⟨-, -, msg, hmsg⟩ | ⟨-, id', t, ht, -, hlt, hmod, hnot, -⟩ := hcases args
    · rw [hrun] at ht
      cases ht
    · rw [hrun] at hmsg
      cases hmsg
    · rw [hrun] at ht
      cases ht
      exact ⟨hlt, hnot, hmod⟩
  · exact createNewPage_throws_iff ok hinv args
  · obtain ⟨-, t, ht, ok', hmem⟩ | ⟨-, -, msg, hmsg⟩ | ⟨-, id', t, ht, -⟩ := hcases args
    · rw [hrun] at ht
      cases ht
      exact fun id b => status_congr ok hinv ok' hmem
    · rw [hrun] at hmsg
      cases hmsg
    · rw [hrun] at ht
      cases ht
  · obtain ⟨id, m', hret, -⟩ := returns_createNewPage (C := C) hinv hargs hne
    obtain ⟨s', hs', -⟩ := hret.start ok
    exact ⟨id, s', hs'⟩
  · obtain ⟨m', hret, -⟩ := returns_freePage (C := C) hinv hid
    obtain ⟨s', hs', -⟩ := hret.start ok
    exact ⟨s', hs'⟩

/-- An empty file, into which a schema page and a table page are put, and the first of them is freed. -/
theorem pagerOk_schema : ∃ id s id' s' s'', PagerOk Mem.cache ⟨fun _ => none, 0⟩ ∅ ∧
    createNewPage Mem.cache.toCacheOps .schema ⟨fun _ => none, 0⟩ = .ok id s ∧ PagerOk Mem.cache s {id} ∧
    createNewPage Mem.cache.toCacheOps (.table [.int 0] PGID_INVALID) s = .ok id' s' ∧
    PagerOk Mem.cache s' {id', id} ∧
    freePage Mem.cache.toCacheOps id s' = .ok () s'' ∧ PagerOk Mem.cache s'' (Finset.erase {id', id} id) := by
  have h := pagerOk_of_run run_empty
  obtain ⟨id, s, hs⟩ := h.returns .schema trivial (by decide)
  have hrun : Run Mem.cache s {id} := run_empty.create hs
  obtain ⟨id', s', hs'⟩ := (pagerOk_of_run hrun).returns (.table [.int 0] PGID_INVALID) ⟨by simp, by decide⟩
    (by rw [Finset.card_singleton]; decide)
  have hrun' : Run Mem.cache s' {id', id} := hrun.create hs'
  have hmem : id ∈ ({id', id} : Finset ℕ) := by simp
  obtain ⟨s'', hs''⟩ := (pagerOk_of_run hrun').free id hmem
  exact ⟨id, s, id', s', s'', h, hs, pagerOk_of_run hrun, hs', pagerOk_of_run hrun', hs'',
    pagerOk_of_run (hrun'.free hmem hs'')⟩

end Kndb.Pager
