import Kndb.PageCache.Mirror
import Kndb.Pager.Run

namespace Kndb

open Imp Imp.Prog FSMPage PageCache

variable {E : Exn → Prop} {held : List (ℕ × ℕ)} {m : Mem} {s : PageCache Page Block} {id a b : ℕ}
variable {R : Mem → PageCache Page Block → Prop}

namespace FreeSpaceMap

theorem sim_isFull (h : Mirrors [] m s) (hE : ∀ e, E e → e = Pager.sizeLimit) :
    Sim E (isFull Mem.cache.toCacheOps) (isFull cacheOps) m s (fun x y m' s' => x = y ∧ Mirrors [] m' s') R := by
  apply (h.sim_retrievePage 0 .fsm (Nat.zero_le _) hE).bind
  rintro r page m' s' - ⟨rfl, rfl, h, -⟩
  apply (h.sim_deref (List.mem_cons_self ..)).bind
  rintro p q m'' s'' - ⟨rfl, rfl, hext, -⟩
  apply sim_pure
  rw [hext.freeBlocks, hext.nextPageID]
  exact ⟨rfl, h.forget⟩

theorem sim_isFree (h : Mirrors [] m s) (hE : ∀ e, E e → e = Pager.sizeLimit) (id : ℕ) :
    Sim E (isFree Mem.cache.toCacheOps id) (isFree cacheOps id) m s
      (fun x y m' s' => x = y ∧ Mirrors [] m' s') R := by
  apply (h.sim_retrievePage _ .fsm (Nat.zero_le _) hE).bind
  rintro r page m' s' - ⟨rfl, rfl, h, -⟩
  apply (h.sim_call (List.mem_cons_self ..) (tracks_isFree _)).mono
  · rintro x y m' s' ⟨rfl, h⟩
    exact ⟨rfl, h.forget⟩
  · exact fun _ _ hR => hR

theorem sim_popIfFull (h : Mirrors held m s) (h0 : (0, a) ∈ held) (hid : (id, b) ∈ held) :
    Sim E (popIfFull Mem.cache.toCacheOps 0 id) (popIfFull cacheOps a b) m s
      (fun _ _ m' s' => Mirrors [] m' s') R := by
  apply (h.sim_deref hid).bind
  rintro p q m' s' - ⟨rfl, rfl, hext, -, hnext⟩
  apply sim_ite (by rw [hext.freeBlocks])
  · intro _
    rw [hext.nextPageID]
    apply (h.sim_call h0 (tracks_setNextPageID hnext)).mono
    · exact fun _ _ _ _ hpost => hpost.2.forget
    · exact fun _ _ hR => hR
  · intro _
    exact sim_pure h.forget

theorem sim_allocBit (h : Mirrors [] m s) (hE : ∀ e, E e → e = Pager.sizeLimit) :
    Sim E (allocBit Mem.cache.toCacheOps) (allocBit cacheOps) m s
      (fun x y m' s' => x = y ∧ Mirrors [] m' s') R := by
  apply (sim_isFull h hE).bind
  rintro x y m' s' - ⟨rfl, h⟩
  apply sim_require
  · exact fun hx => hx
  intro _
  apply (h.sim_retrievePage 0 .fsm (Nat.zero_le _) hE).bind
  rintro r a m' s' - ⟨rfl, rfl, h, -⟩
  apply (h.sim_deref (List.mem_cons_self ..)).bind
  rintro p q m'' s'' - ⟨rfl, rfl, hext, -⟩
  apply sim_ite (by rw [hext.freeBlocks])
  · intro _
    apply (h.sim_call (List.mem_cons_self ..) tracks_findNextFree).bind
    rintro bit bit' m' s' - ⟨rfl, h⟩
    apply (h.sim_call (List.mem_cons_self ..) (tracks_allocBit bit)).bind
    rintro - - m' s' - ⟨-, h⟩
    exact sim_pure ⟨rfl, h.forget⟩
  · intro _
    apply (h.sim_deref (List.mem_cons_self ..)).bind
    rintro p q m' s' - ⟨rfl, rfl, hext, -⟩
    rw [hext.nextPageID]
    -- page 0 stays in the cache while the next bitmap comes
    apply (h.sim_retrievePage p.nextPageID .fsm le_rfl hE).bind
    rintro r b m' s' - ⟨rfl, rfl, h, hsame, -⟩
    have h0 := mem_hold (List.mem_cons_self ..) hsame
    apply (h.sim_call (List.mem_cons_self ..) tracks_findNextFree).bind
    rintro bit bit' m' s' - ⟨rfl, h⟩
    apply (h.sim_call (List.mem_cons_self ..) (tracks_allocBit bit)).bind
    rintro - - m' s' - ⟨-, h⟩
    apply (sim_popIfFull h h0 (List.mem_cons_self ..)).bind
    rintro - - m' s' - h
    exact sim_pure ⟨rfl, h⟩

theorem sim_push (h : Mirrors held m s) (h0 : (0, a) ∈ held) (hid : (id, b) ∈ held) {pageID : ℕ}
    (hlt : pageID < 2 ^ 32) : Sim E (push Mem.cache.toCacheOps 0 id pageID) (push cacheOps a b pageID) m s
      (fun _ _ m' s' => Mirrors [] m' s') R := by
  apply (h.sim_deref h0).bind
  rintro p q m' s' - ⟨rfl, rfl, hext, -, hnext⟩
  apply (h.sim_call h0 (tracks_setNextPageID hlt)).bind
  rintro - - m' s' - ⟨-, h⟩
  rw [hext.nextPageID]
  apply (h.sim_call hid (tracks_setNextPageID hnext)).mono
  · exact fun _ _ _ _ hpost => hpost.2.forget
  · exact fun _ _ hR => hR

theorem sim_freeBit (h : Mirrors [] m s) (hE : ∀ e, E e → e = Pager.sizeLimit) (id : ℕ) :
    Sim E (freeBit Mem.cache.toCacheOps id) (freeBit cacheOps id) m s
      (fun _ _ m' s' => Mirrors [] m' s') R := by
  apply (sim_isFree h hE id).bind
  rintro x y m' s' - ⟨rfl, h⟩
  apply sim_require
  · exact fun hx => hx
  intro _
  apply (h.sim_retrievePage _ .fsm (Nat.zero_le _) hE).bind
  rintro r b m' s' - ⟨rfl, rfl, h, -⟩
  apply (h.sim_retrievePage 0 .fsm le_rfl hE).bind
  rintro r a m' s' - ⟨rfl, rfl, h, hsame, -⟩
  have hid := mem_hold (List.mem_cons_self ..) hsame
  apply (h.sim_call hid (tracks_freeBit _)).bind
  rintro - - m' s' - ⟨-, h⟩
  apply (h.sim_deref hid).bind
  rintro p q m' s' - ⟨rfl, rfl, hext, hlt, -⟩
  apply sim_ite (by rw [hext.pageID, hext.freeBlocks])
  · intro _
    rw [hext.pageID]
    exact sim_push h (List.mem_cons_self ..) hid hlt
  · intro _
    exact sim_pure h.forget

theorem sim_linkFSMPage (h : Mirrors [] m s) (hE : ∀ e, E e → e = Pager.sizeLimit) (hid : id < 2 ^ 32) :
    Sim E (linkFSMPage Mem.cache.toCacheOps id) (linkFSMPage cacheOps id) m s
      (fun _ _ m' s' => Mirrors [] m' s') R := by
  apply (h.sim_retrievePage 0 .fsm (Nat.zero_le _) hE).bind
  rintro r a m' s' - ⟨rfl, rfl, h, -⟩
  apply (h.sim_retrievePage id .fsm le_rfl hE).bind
  rintro r b m' s' - ⟨rfl, rfl, h, hsame, -⟩
  exact sim_push h (mem_hold (List.mem_cons_self ..) hsame) (List.mem_cons_self ..) hid

end FreeSpaceMap

namespace Pager

variable {N : ℕ} {args : PageArgs}

theorem sim_createFSMPage (h : Mirrors [] m s) (hE : ∀ e, E e → e = sizeLimit) (hinv : Inv m N) :
    Sim E (createFSMPage Mem.cache.toCacheOps) (createFSMPage cacheOps) m s
      (fun _ _ m' s' => Mirrors [] m' s') (Mirrors []) := by
  apply sim_gets
  rw [h.getNumBlocks_eq]
  dsimp only
  apply sim_ite Iff.rfl
  · intro _
    exact (sim_raise (Q := fun _ _ _ _ => False) h).bind fun _ _ _ _ _ hfalse => hfalse.elim
  intro hnum
  have hfull : N ≠ MAX_FSMPAGES := by
    rintro rfl
    apply hnum
    change m.blocks / getBlocksInPage = MAX_FSMPAGES
    rw [hinv.blocks, Nat.mul_div_cancel _ FreeSpaceMap.getBlocksInPage_pos]
  have hle : m.blocks + getBlocksInPage ≤ 2 ^ 32 := by
    rw [hinv.blocks, ← Nat.succ_mul]
    exact (Nat.mul_le_mul_right _ (hinv.le.lt_of_ne hfull)).trans (by decide)
  apply (h.sim_createMultipleBlocks FreeSpaceMap.getBlocksInPage_pos hle).bind
  rintro k l m' s' - ⟨rfl, rfl, rfl, h⟩
  have hevict : Page.Evictable (.fsm (.new m.blocks)) := (sound_new m.blocks).1.evictable
  have hin : m.blocks < m.blocks + getBlocksInPage := Nat.lt_add_of_pos_right FreeSpaceMap.getBlocksInPage_pos
  apply (h.sim_insertPage (p := .fsm (.new m.blocks)) hevict hin).bind
  rintro - - m' s' - ⟨rfl, h⟩
  apply sim_ite Iff.rfl
  · exact fun _ => FreeSpaceMap.sim_linkFSMPage h hE (hin.trans_le hle)
  · exact fun _ => sim_pure h

theorem sim_fsmPageNeeded (h : Mirrors [] m s) (hE : ∀ e, E e → e = sizeLimit) :
    Sim E (fsmPageNeeded Mem.cache.toCacheOps) (fsmPageNeeded cacheOps) m s
      (fun x y m' s' => x = y ∧ Mirrors [] m' s') R := by
  apply sim_gets
  rw [h.getNumBlocks_eq]
  apply sim_ite Iff.rfl
  · exact fun _ => sim_pure ⟨rfl, h⟩
  · exact fun _ => FreeSpaceMap.sim_isFull h hE

theorem sim_allocPageID (h : Mirrors [] m s) (hE : ∀ e, E e → e = sizeLimit) (ok : m.Ok) (hinv : Inv m N) :
    Sim E (allocPageID Mem.cache.toCacheOps) (allocPageID cacheOps) m s
      (fun x y m' s' => x = y ∧ Mirrors [] m' s') (Mirrors []) := by
  apply (sim_fsmPageNeeded h hE).bind
  rintro needed needed' m' s' hrun ⟨rfl, h'⟩
  obtain ⟨m₁, hm₁, -, hmem⟩ := (returns_fsmPageNeeded (C := Mem.cache) (m := m) hinv).start (s := m) ok
  rw [hrun] at hm₁
  cases hm₁
  obtain rfl : m' = m := hmem
  dsimp only
  apply sim_ite Iff.rfl
  · exact fun _ => (sim_createFSMPage h' hE hinv).bind fun _ _ _ _ _ h => FreeSpaceMap.sim_allocBit h hE
  · exact fun _ => FreeSpaceMap.sim_allocBit h' hE

theorem sim_getPage (h : Mirrors [] m s) (hE : ∀ e, E e → e = sizeLimit) (T : PageType) (id : ℕ) :
    Sim E (getPage Mem.cache.toCacheOps T id) (getPage cacheOps T id) m s
      (fun r page m' s' => Mirrors [] m' s' ∧ (Mem.cache.load r m').pageID = (cacheOps.load page s').pageID) R := by
  apply sim_gets
  rw [h.getNumBlocks_eq]
  apply sim_require
  · exact fun hx => hx
  intro _
  apply (FreeSpaceMap.sim_isFree h hE id).bind
  rintro x y m' s' - ⟨rfl, h⟩
  apply sim_require
  · exact fun hx => hx
  intro _
  apply (h.sim_retrievePage id T (Nat.zero_le _) hE).mono
  · rintro r page m'' s'' ⟨rfl, rfl, h, -, p, hview⟩
    obtain ⟨-, -, -, -, -, -, -, -, -, halike⟩ := h.exists_entry (List.mem_cons_self ..) hview
    refine ⟨h.forget, ?_⟩
    rw [show Mem.cache.load r m'' = p from congrArg (Option.getD · _) hview]
    exact halike.pageID_eq.symm
  · exact fun _ _ hR => hR

/-- The arguments are values of their types. -/
def Typed : PageArgs → Prop
  | .table _ btreePageID => btreePageID < 2 ^ 32
  | .node deg parentID _ _ => deg < 2 ^ 16 ∧ parentID < 2 ^ 32
  | _ => True

/-- The page, if the constructor takes the arguments, can be serialised. -/
structure Storable (args : PageArgs) : Prop where
  typed : Typed args
  toBytes : args.Accepts → ∀ (J : Junk) (id : ℕ), ∃ b, Page.format.toBytes J (args.page id) = some b

theorem Storable.evictable (h : Storable args) (hacc : args.Accepts) (id : ℕ) : (args.page id).Evictable := by
  cases args with
  | schema => exact ⟨Nat.zero_le _, List.nodup_nil, nofun, nofun⟩
  | fsm => exact (sound_new id).1.evictable
  | table types btreePageID => exact ⟨hacc, h.typed, Nat.two_pow_pos 64⟩
  | node deg parentID is_root is_leaf =>
    apply Page.nodeSound_new h.typed.1 h.typed.2
    obtain ⟨b, hb⟩ := h.toBytes hacc ⟨fun _ => 0, fun _ => []⟩ id
    cases is_leaf with
    | true => exact .inl rfl
    | false =>
      cases is_root with
      | true => exact .inr rfl
      | false => cases hb

theorem sim_createNewPage (h : Mirrors [] m s) (hE : ∀ e, E e → e = sizeLimit) (ok : m.Ok) (hinv : Inv m N)
    (hargs : Storable args) :
    Sim E (createNewPage Mem.cache.toCacheOps args) (createNewPage cacheOps args) m s
      (fun r page m' s' => Mirrors [] m' s' ∧ (Mem.cache.load r m').pageID = (cacheOps.load page s').pageID)
      (Mirrors []) := by
  apply (sim_allocPageID h hE ok hinv).bind
  rintro id id' m₁ s₁ hrun ⟨rfl, h₁⟩
  -- both constructors check the same arguments
  by_cases hacc : args.Accepts
  · have hlt : id < m₁.blocks := by
      by_cases hfull : (liveIds m).card = capacity
      · obtain ⟨m₂, hm₂, -⟩ := throws_allocPageID (C := Mem.cache) hinv hfull m ok rfl
        rw [hrun] at hm₂
        cases hm₂
      · obtain ⟨id', m', hret, hlt, -⟩ := returns_allocPageID (C := Mem.cache) hinv hfull
        obtain ⟨m₂, hm₂, -, rfl⟩ := hret m ok rfl
        rw [hrun] at hm₂
        cases hm₂
        exact hlt
    apply (sim_of_ok (Q := fun p q m' s' => p = args.page id ∧ q = p ∧ m' = m₁ ∧ s' = s₁)
      (PageArgs.construct_of_accepts hacc id m₁) (PageArgs.construct_of_accepts hacc id s₁)
      ⟨rfl, rfl, rfl, rfl⟩).bind
    rintro p q m' s' - ⟨rfl, rfl, rfl, rfl⟩
    apply (h₁.sim_insertPage (hargs.evictable hacc id) (by rwa [PageArgs.page_pageID])).bind
    rintro - - m' s' - ⟨-, h⟩
    exact sim_getPage h hE args.type id
  · obtain ⟨msg, hmsg⟩ := PageArgs.construct_of_not_accepts hacc id m₁
    exact sim_of_abort (by rw [bind_apply, seq, hmsg])

theorem aborts_mirrored (h : Mirrors [] m s) (ok : m.Ok) (hinv : Inv m N) (hargs : ¬args.Accepts)
    (hfull : (liveIds m).card ≠ capacity) : ∃ msg, createNewPage cacheOps args s = .abort msg := by
  obtain ⟨id, m₁, hret, -⟩ := returns_allocPageID (C := Mem.cache) hinv hfull
  obtain ⟨m', hm', -⟩ := hret m ok rfl
  have hsim := sim_allocPageID h (fun _ he => he) ok hinv
  obtain ⟨id', s₁, hs₁, -, -⟩ := (wp_of_ok hm').mp hsim
  obtain ⟨msg, hmsg⟩ := PageArgs.construct_of_not_accepts hargs id' s₁
  refine ⟨msg, ?_⟩
  rw [createNewPage, bind_ok hs₁, bind_apply, seq, hmsg]

theorem sim_freePage (h : Mirrors [] m s) (hE : ∀ e, E e → e = sizeLimit) (id : ℕ) :
    Sim E (freePage Mem.cache.toCacheOps id) (freePage cacheOps id) m s
      (fun _ _ m' s' => Mirrors [] m' s') R := by
  apply sim_gets
  rw [h.getNumBlocks_eq]
  apply sim_require
  · exact fun hx => hx
  intro _
  apply (FreeSpaceMap.sim_isFree h hE id).bind
  rintro x y m' s' - ⟨rfl, h⟩
  apply sim_require
  · exact fun hx => hx
  intro _
  exact FreeSpaceMap.sim_freeBit h hE id

theorem sim_isFree (h : Mirrors [] m s) (hE : ∀ e, E e → e = sizeLimit) (id : ℕ) :
    Sim E (isFree Mem.cache.toCacheOps id) (isFree cacheOps id) m s
      (fun x y m' s' => x = y ∧ Mirrors [] m' s') R := by
  apply sim_gets
  rw [h.getNumBlocks_eq]
  apply sim_ite Iff.rfl
  · exact fun _ => sim_pure ⟨rfl, h⟩
  · exact fun _ => FreeSpaceMap.sim_isFree h hE id

/-- A call of the pager. -/
inductive PagerOp where
  | createNewPage (args : PageArgs)
  | freePage (pageID : ℕ)
  | isFree (pageID : ℕ)

inductive PagerReply where
  | created (pageID : ℕ)
  | freed
  | free (b : Bool)
deriving DecidableEq

def PagerOp.run {Ref σ : Type} (C : CacheOps Ref σ) : PagerOp → Code σ PagerReply
  | createNewPage args => do
    let page ← Pager.createNewPage C args
    return .created (← gets fun s => (C.load page s).pageID)
  | freePage pageID => do
    Pager.freePage C pageID
    return .freed
  | isFree pageID => do return .free (← Pager.isFree C pageID)

/-- The calls of a run with their answers, the latest first. -/
abbrev Log := List (PagerOp × Except Exn PagerReply)

/-- The ids that have been returned and not freed since. -/
def live : Log → Finset ℕ
  | [] => ∅
  | (_, .ok (.created pageID)) :: log => insert pageID (live log)
  | (.freePage pageID, .ok .freed) :: log => (live log).erase pageID
  | _ :: log => live log

def Allowed (log : Log) : PagerOp → Prop
  | .createNewPage args => Storable args
  | .freePage pageID => pageID ∈ live log
  | .isFree _ => True

/-- The runs from a state. -/
inductive History {Ref σ : Type} (C : CacheOps Ref σ) (s₀ : σ) : Log → σ → Prop
  | nil : History C s₀ [] s₀
  | call {log : Log} {s s' : σ} {op : PagerOp} {x : Except Exn PagerReply} : History C s₀ log s →
      Allowed log op → op.run C s = .answer x s' → History C s₀ ((op, x) :: log) s'

variable {log : Log} {op : PagerOp} {x : Except Exn PagerReply}

theorem sim_run (h : Mirrors [] m s) (ok : m.Ok) (hinv : Inv m N) (hop : Allowed log op) :
    Sim (· = sizeLimit) (op.run Mem.cache.toCacheOps) (op.run cacheOps) m s
      (fun x y m' s' => x = y ∧ Mirrors [] m' s') (Mirrors []) := by
  cases op with
  | createNewPage args =>
    apply (sim_createNewPage h (fun _ he => he) ok hinv hop).bind
    rintro r page m' s' - ⟨h, hpid⟩
    apply sim_gets
    rw [hpid]
    exact sim_pure ⟨rfl, h⟩
  | freePage id =>
    apply (sim_freePage h (fun _ he => he) id).bind
    rintro - - m' s' - h
    exact sim_pure ⟨rfl, h⟩
  | isFree id =>
    apply (sim_isFree h (fun _ he => he) id).bind
    rintro x y m' s' - ⟨rfl, h⟩
    exact sim_pure ⟨rfl, h⟩

structure Kept (log : Log) (m : Mem) : Prop where
  ok : m.Ok
  inv : ∃ N, Inv m N
  live : liveIds m = live log

theorem load_pageID (ok : m.Ok) (id : ℕ) : (Mem.cache.load id m).pageID = id := by
  change ((m.view id).getD (.schema (.new id))).pageID = id
  cases hview : m.view id with
  | none => rfl
  | some p => exact ok id p hview

/-- A call that is allowed is answered from memory, and throws only if the file is full. -/
theorem Kept.answers (h : Kept log m) (hop : Allowed log op) :
    (∃ x m', op.run Mem.cache.toCacheOps m = .answer x m' ∧ (∀ e, x = .error e → e = sizeLimit) ∧
        Kept ((op, x) :: log) m') ∨
      ∃ args, op = .createNewPage args ∧ ¬args.Accepts ∧ (liveIds m).card ≠ capacity := by
  obtain ⟨ok, ⟨N, hinv⟩, hlive⟩ := h
  cases op with
  | createNewPage args =>
    -- no page is left, or the arguments are refused, or the page is created
    obtain ⟨-, m', hm', ok', hmem⟩ | ⟨hfull, hnot, -⟩ | ⟨-, id, m', hm', ok', -, -, -, hstep⟩ :=
      createNewPage_cases (C := Mem.cache) ok hinv args
    · obtain rfl : m' = m := hmem
      refine .inl ⟨.error sizeLimit, m', ?_, fun e he => (Except.error.inj he).symm, ok, ⟨N, hinv⟩, hlive⟩
      rw [PagerOp.run, bind_apply, seq, hm']
      rfl
    · exact .inr ⟨args, rfl, hnot, hfull⟩
    · refine .inl ⟨.ok (.created id), m', ?_, nofun, ok', hstep.inv, ?_⟩
      · rw [PagerOp.run, bind_ok hm']
        exact congrArg (fun id => Outcome.ok (PagerReply.created id) m') (load_pageID ok' id)
      · exact hstep.live.trans (congrArg (insert id) hlive)
  | freePage id =>
    have hid : id ∈ liveIds m := hlive ▸ hop
    obtain ⟨m', hret, hstep⟩ := returns_freePage (C := Mem.cache) hinv hid
    obtain ⟨m₁, hm₁, ok', rfl⟩ := hret m ok rfl
    refine .inl ⟨.ok .freed, m₁, ?_, nofun, ok', hstep.inv, ?_⟩
    · rw [PagerOp.run, bind_ok hm₁]
      rfl
    · exact hstep.live.trans (congrArg (Finset.erase · id) hlive)
  | isFree id =>
    obtain ⟨m', hm', -, hmem⟩ := (returns_isFree (C := Mem.cache) (m := m) hinv id).start (s := m) ok
    obtain rfl : m' = m := hmem
    have hrun : (PagerOp.isFree id).run Mem.cache.toCacheOps m' = .answer (.ok (.free _)) m' := bind_ok hm'
    exact .inl ⟨_, m', hrun, nofun, ok, ⟨N, hinv⟩, hlive⟩

theorem kept_empty : Kept [] ⟨fun _ => none, 0⟩ := by
  obtain ⟨ok, hlive, hinv⟩ := run_empty.inv
  exact ⟨ok, hinv, hlive⟩

def PagerOp.Rejected : PagerOp → Prop
  | createNewPage args => ¬args.Accepts
  | _ => False

theorem Kept.mirrors_run (h : Kept log m) (hs : Mirrors [] m s) (hop : Allowed log op) :
    (∃ x m' s', op.run Mem.cache.toCacheOps m = .answer x m' ∧ op.run cacheOps s = .answer x s' ∧
        Kept ((op, x) :: log) m' ∧ Mirrors [] m' s') ∨
      op.Rejected ∧ (∃ msg, op.run Mem.cache.toCacheOps m = .abort msg) ∧
        ∃ msg, op.run cacheOps s = .abort msg := by
  obtain ⟨N, hinv⟩ := h.inv
  obtain ⟨x, m', hm', hE, h'⟩ | ⟨args, rfl, hnot, hfull⟩ := h.answers hop
  · obtain ⟨s', hs', hmirrors⟩ := (sim_run hs h.ok hinv hop).answer hm' hE
    exact .inl ⟨x, m', s', hm', hs', h', hmirrors⟩
  · obtain ⟨msg, hmsg⟩ := aborts_createNewPage (C := Mem.cache) hinv hnot hfull h.ok rfl
    obtain ⟨msg', hmsg'⟩ := aborts_mirrored hs h.ok hinv hnot hfull
    refine .inr ⟨hnot, ⟨msg, ?_⟩, msg', ?_⟩
    · rw [PagerOp.run, bind_apply, seq, hmsg]
    · rw [PagerOp.run, bind_apply, seq, hmsg']

theorem History.mirrors {s₀ : PageCache Page Block} (h : History cacheOps s₀ log s)
    (h₀ : Mirrors [] ⟨fun _ => none, 0⟩ s₀) :
    ∃ m, History Mem.cache.toCacheOps ⟨fun _ => none, 0⟩ log m ∧ Kept log m ∧ Mirrors [] m s := by
  induction h with
  | nil => exact ⟨_, .nil, kept_empty, h₀⟩
  | call _ hop hrun ih =>
    obtain ⟨m, hm, hkept, hs⟩ := ih
    obtain ⟨x, m', s', hm', hs', hkept', hmirrors⟩ | ⟨-, -, msg, hmsg⟩ := hkept.mirrors_run hs hop
    · obtain ⟨rfl, rfl⟩ := Outcome.answer_inj (hrun.symm.trans hs')
      exact ⟨m', hm.call hop hm', hkept', hmirrors⟩
    · exact absurd (hrun.symm.trans hmsg) Outcome.answer_ne_abort

theorem History.mirrored {s₀ : PageCache Page Block} (h : History Mem.cache.toCacheOps ⟨fun _ => none, 0⟩ log m)
    (h₀ : Mirrors [] ⟨fun _ => none, 0⟩ s₀) : ∃ s, History cacheOps s₀ log s ∧ Kept log m ∧ Mirrors [] m s := by
  induction h with
  | nil => exact ⟨s₀, .nil, kept_empty, h₀⟩
  | call _ hop hrun ih =>
    obtain ⟨s, hs, hkept, hmirrors⟩ := ih
    obtain ⟨x, m', s', hm', hs', hkept', hmirrors'⟩ | ⟨-, ⟨msg, hmsg⟩, -⟩ := hkept.mirrors_run hmirrors hop
    · obtain ⟨rfl, rfl⟩ := Outcome.answer_inj (hrun.symm.trans hm')
      exact ⟨s', hs.call hop hs', hkept', hmirrors'⟩
    · exact absurd (hrun.symm.trans hmsg) Outcome.answer_ne_abort

/-- The calls over two caches have the same answers, and only a constructor that does not take its arguments
stops the process. -/
structure SameAnswers (s₀ s₀' : PageCache Page Block) : Prop where
  logs : ∀ log, (∃ s, History cacheOps s₀ log s) ↔ ∃ s, History cacheOps s₀' log s
  answers : ∀ log s, History cacheOps s₀ log s → ∀ op, Allowed log op →
    (∃ x s', op.run cacheOps s = .answer x s') ∨ op.Rejected ∧ ∃ msg, op.run cacheOps s = .abort msg

/-- A cache of two pages answers like one of any other capacity, in particular like one that has room for all
pages and so never evicts one. -/
theorem sameAnswers_of_two_le {c c' : ℕ} (hc : 2 ≤ c) (hc' : 2 ≤ c') (blocks blocks' : ℕ → Block)
    (objects objects' : ℕ → Page) (junk junk' : ℕ → Junk) :
    SameAnswers (new c 0 blocks objects junk) (new c' 0 blocks' objects' junk') := by
  have h := mirrors_new hc blocks objects junk
  have h' := mirrors_new hc' blocks' objects' junk'
  refine ⟨fun log => ⟨fun ⟨s, hs⟩ => ?_, fun ⟨s, hs⟩ => ?_⟩, fun log s hs op hop => ?_⟩
  · obtain ⟨m, hm, -⟩ := hs.mirrors h
    obtain ⟨s', hs', -⟩ := hm.mirrored h'
    exact ⟨s', hs'⟩
  · obtain ⟨m, hm, -⟩ := hs.mirrors h'
    obtain ⟨s', hs', -⟩ := hm.mirrored h
    exact ⟨s', hs'⟩
  · obtain ⟨m, -, hkept, hmirrors⟩ := hs.mirrors h
    obtain ⟨x, -, s', -, hs', -⟩ | ⟨hrej, -, hmsg⟩ := hkept.mirrors_run hmirrors hop
    · exact .inl ⟨x, s', hs'⟩
    · exact .inr ⟨hrej, hmsg⟩

/-- A cache of two pages, and one that never evicts a page. -/
theorem sameAnswers_two : SameAnswers
    (new 2 0 (fun _ => []) (fun _ => .schema (.new 0)) fun _ => ⟨fun _ => 0, fun _ => []⟩)
    (new (MAX_FSMPAGES * getBlocksInPage) 0 (fun _ => []) (fun _ => .schema (.new 0))
      fun _ => ⟨fun _ => 0, fun _ => []⟩) :=
  sameAnswers_of_two_le le_rfl (by decide) _ _ _ _ _ _

end Pager
end Kndb
