import Kndb.PageCache.InStep
import Kndb.Pager.Invariant

namespace Kndb

open Imp Imp.Prog FSMPage PageCache

variable {E : Exn → Prop} {c : ℕ} {V : Finset ℕ} {H : List (ℕ × ℕ)} {m : Mem} {s : PageCache Page Block} {id a b N : ℕ}
variable {α : Type} {R : Mem → PageCache Page Block → Prop}

namespace PageCache.Works

theorem sim_retrieveFSM (h : Works c V H m s) (hE : Outer E) (hV : bitmaps ⊆ V) (id : ℕ) :
    Sim E (Mem.cache.retrieve FSMPage id) (cacheOps.retrieve FSMPage id) m s
      (fun r page m' s' => r = id ∧ m' = m ∧ Works c V ((id, page) :: H) m s') R := by
  refine (h.sim_retrievePage hE .fsm fun p hp htype => ?_).mono ?_ fun _ _ hR => hR
  · cases p with
    | fsm p => exact hV (h.fsm id p hp)
    | _ => cases htype
  · rintro r page m' s' ⟨rfl, rfl, h', -⟩
    exact ⟨rfl, rfl, h'⟩

/-- A bitmap is looked at; the one in the cache may be longer. -/
theorem sim_derefFSM (h : Works c V H m s) (hmem : (id, a) ∈ H) :
    Sim E (Mem.cache.deref FSMPage id) (cacheOps.deref FSMPage a) m s (fun p q m' s' => m' = m ∧ s' = s ∧
      Extends p q ∧ q.Evictable) R := by
  refine (h.sim_deref hmem).mono ?_ fun _ _ hR => hR
  rintro p q m' s' ⟨rfl, rfl, -, hs⟩
  exact ⟨rfl, rfl, hs.again, hs.basic⟩

theorem sim_track {f : Code FSMPage α} (h : Works c V H m s) (hmem : (id, a) ∈ H) (hf : Tracks E f) :
    Sim E (Mem.cache.call id f) (cacheOps.call a f) m s (fun x y m' s' => x = y ∧ Works c V H m' s') R := by
  refine (h.sim_call (Q := fun x y _ => x = y) (S := fun _ => False) hmem fun p q _ hs => ?_).mono ?_ ?_
  · refine (hf p q hs.again hs.basic).mono ?_ fun _ _ hfalse => hfalse.elim
    rintro x y p' q' ⟨rfl, hext, hq, hid⟩
    exact ⟨rfl, hext, hq, hid.trans hs.pageID⟩
  · rintro x y m' s' ⟨p', rfl, -, h'⟩
    exact ⟨rfl, h'⟩
  · rintro m' s' ⟨-, hfalse, -⟩
    exact hfalse.elim

theorem sim_isFull (h : Works c V H m s) (hE : Outer E) (hV : bitmaps ⊆ V) :
    Sim E (FreeSpaceMap.isFull Mem.cache.toCacheOps) (FreeSpaceMap.isFull cacheOps) m s
      (fun x y m' s' => x = y ∧ m' = m ∧ Works c V H m s') R := by
  apply (h.sim_retrieveFSM hE hV 0).bind
  rintro r page m' s' - ⟨rfl, rfl, h⟩
  apply (h.sim_derefFSM (List.mem_cons_self ..)).bind
  rintro p q m'' s'' - ⟨rfl, rfl, hext, -⟩
  apply sim_pure
  rw [hext.freeBlocks, hext.nextPageID]
  exact ⟨rfl, rfl, h.forget fun _ => List.mem_cons_of_mem _⟩

theorem sim_isFree (h : Works c V H m s) (hE : Outer E) (hV : bitmaps ⊆ V) (id : ℕ) :
    Sim E (FreeSpaceMap.isFree Mem.cache.toCacheOps id) (FreeSpaceMap.isFree cacheOps id) m s
      (fun x y m' s' => x = y ∧ m' = m ∧ Works c V H m s') R := by
  apply (h.sim_retrieveFSM hE hV _).bind
  rintro r page m' s' - ⟨rfl, rfl, h'⟩
  refine (h'.sim_call (Q := fun x y p => x = y ∧ m'.view (id / getBlocksInPage * getBlocksInPage) = some (.fsm p))
    (S := fun _ => False) (List.mem_cons_self ..) fun p q hp hs => ?_).mono ?_ ?_
  · refine (sim_isFree (R := fun _ _ => False) _ hs.again).mono ?_ fun _ _ hfalse => hfalse.elim
    rintro x y p' q' ⟨rfl, rfl, rfl⟩
    exact ⟨⟨rfl, hp⟩, hs⟩
  · rintro x y m'' s'' ⟨p, ⟨rfl, hp⟩, rfl, h''⟩
    have hsame := Mem.set_eq_self hp
    refine ⟨rfl, hsame, ?_⟩
    rw [← hsame]
    exact h''.forget fun _ => List.mem_cons_of_mem _
  · rintro m'' s'' ⟨-, hfalse, -⟩
    exact hfalse.elim

theorem sim_popIfFull (h : Works c V H m s) (h0 : (0, a) ∈ H) (hid : (id, b) ∈ H) :
    Sim E (FreeSpaceMap.popIfFull Mem.cache.toCacheOps 0 id) (FreeSpaceMap.popIfFull cacheOps a b) m s
      (fun _ _ m' s' => Works c V H m' s') R := by
  apply (h.sim_derefFSM hid).bind
  rintro p q m' s' - ⟨rfl, rfl, hext, hq⟩
  apply sim_ite (by rw [hext.freeBlocks])
  · intro _
    rw [hext.nextPageID]
    exact (h.sim_track h0 (tracks_setNextPageID (hext.nextPageID ▸ hq.next_lt))).mono (fun _ _ _ _ hpost => hpost.2)
      fun _ _ hR => hR
  · exact fun _ => sim_pure h

theorem sim_allocBit (h : Works c V H m s) (hE : Outer E) (hV : bitmaps ⊆ V) :
    Sim E (FreeSpaceMap.allocBit Mem.cache.toCacheOps) (FreeSpaceMap.allocBit cacheOps) m s
      (fun x y m' s' => x = y ∧ Works c V H m' s') R := by
  apply (h.sim_isFull hE hV).bind
  rintro x y m' s' - ⟨rfl, rfl, h⟩
  apply sim_require
  · exact fun hx => hx
  intro _
  apply (h.sim_retrieveFSM hE hV 0).bind
  rintro r a m' s' - ⟨rfl, rfl, h0⟩
  apply (h0.sim_derefFSM (List.mem_cons_self ..)).bind
  rintro p q m'' s'' - ⟨rfl, rfl, hext, -⟩
  apply sim_ite (by rw [hext.freeBlocks])
  · intro _
    apply (h0.sim_track (List.mem_cons_self ..) tracks_findNextFree).bind
    rintro bit bit' m' s' - ⟨rfl, h₁⟩
    apply (h₁.sim_track (List.mem_cons_self ..) (tracks_allocBit bit)).bind
    rintro - - m' s' - ⟨-, h₂⟩
    exact sim_pure ⟨rfl, h₂.forget fun _ => List.mem_cons_of_mem _⟩
  · intro _
    apply (h0.sim_derefFSM (List.mem_cons_self ..)).bind
    rintro p q m' s' - ⟨rfl, rfl, hext, -⟩
    rw [hext.nextPageID]
    apply (h0.sim_retrieveFSM hE hV p.nextPageID).bind
    rintro r b m' s' - ⟨rfl, rfl, h₁⟩
    apply (h₁.sim_track (List.mem_cons_self ..) tracks_findNextFree).bind
    rintro bit bit' m' s' - ⟨rfl, h₂⟩
    apply (h₂.sim_track (List.mem_cons_self ..) (tracks_allocBit bit)).bind
    rintro - - m' s' - ⟨-, h₃⟩
    apply (h₃.sim_popIfFull (List.mem_cons_of_mem _ (List.mem_cons_self ..)) (List.mem_cons_self ..)).bind
    rintro - - m' s' - h₄
    exact sim_pure ⟨rfl, h₄.forget fun _ hr => List.mem_cons_of_mem _ (List.mem_cons_of_mem _ hr)⟩

theorem sim_linkFSMPage (h : Works c V H m s) (hE : Outer E) (hV : bitmaps ⊆ V) (hid : id < 2 ^ 32) :
    Sim E (FreeSpaceMap.linkFSMPage Mem.cache.toCacheOps id) (FreeSpaceMap.linkFSMPage cacheOps id) m s
      (fun _ _ m' s' => Works c V H m' s') R := by
  apply (h.sim_retrieveFSM hE hV 0).bind
  rintro r a m' s' - ⟨rfl, rfl, h₁⟩
  apply (h₁.sim_retrieveFSM hE hV id).bind
  rintro r b m' s' - ⟨rfl, rfl, h₂⟩
  apply (h₂.sim_derefFSM (List.mem_cons_of_mem _ (List.mem_cons_self ..))).bind
  rintro p q m' s' - ⟨rfl, rfl, hext, hq⟩
  apply (h₂.sim_track (List.mem_cons_of_mem _ (List.mem_cons_self ..)) (tracks_setNextPageID hid)).bind
  rintro - - m' s' - ⟨-, h₃⟩
  rw [hext.nextPageID]
  refine (h₃.sim_track (List.mem_cons_self ..) (tracks_setNextPageID (hext.nextPageID ▸ hq.next_lt))).mono ?_
    fun _ _ hR => hR
  rintro - - m' s' ⟨-, h₄⟩
  exact h₄.forget fun _ hr => List.mem_cons_of_mem _ (List.mem_cons_of_mem _ hr)

theorem blocks_mem_bitmaps (h : Works c V H m s) (hnum : m.blocks / getBlocksInPage ≠ MAX_FSMPAGES) :
    m.blocks ∈ bitmaps := by
  obtain ⟨n, hn, hm⟩ := h.blocks_eq
  rw [hm, Nat.mul_div_cancel _ FreeSpaceMap.getBlocksInPage_pos] at hnum
  rw [hm]
  obtain rfl | rfl := Nat.le_one_iff_eq_zero_or_eq_one.mp (Nat.lt_succ_iff.mp (hn.lt_of_ne hnum))
  · rw [Nat.zero_mul]
    exact Finset.mem_insert_self ..
  · rw [Nat.one_mul]
    exact Finset.mem_insert_of_mem (Finset.mem_singleton_self _)

theorem sim_createFSMPage (h : Works c V H m s) (hE : Outer E) (hR : E Pager.sizeLimit → ∀ m s, R m s)
    (hV : bitmaps ⊆ V) :
    Sim E (Pager.createFSMPage Mem.cache.toCacheOps) (Pager.createFSMPage cacheOps) m s
      (fun _ _ m' s' => Works c V H m' s') R := by
  apply sim_gets
  rw [h.getNumBlocks_eq]
  dsimp only
  apply sim_ite Iff.rfl
  · intro _
    exact sim_raise_bind fun he => hR he m s
  intro hnum
  have hmem := blocks_mem_bitmaps h hnum
  have hin : m.blocks < m.blocks + getBlocksInPage := Nat.lt_add_of_pos_right FreeSpaceMap.getBlocksInPage_pos
  apply (h.sim_createMultipleBlocks hnum).bind
  rintro k l m' s' - ⟨rfl, rfl, rfl, h₁⟩
  have hbasic : Page.Basic (.fsm (.new m.blocks)) := (FSMPage.sound_new m.blocks).1.evictable
  have hH : ∀ r ∈ H, r.1 ≠ m.blocks := by
    rintro ⟨id, page⟩ hr
    obtain ⟨-, -, -, -, -, -, hlt⟩ := h.object hr
    exact hlt.ne
  apply (h₁.sim_insertPage (p := .fsm (.new m.blocks)) hbasic (hV hmem) hin (fun _ _ => hmem) hH).bind
  rintro - - m' s' - ⟨rfl, h₂⟩
  apply sim_ite Iff.rfl
  · exact fun _ => h₂.sim_linkFSMPage hE hV (hin.trans_le h₁.blocks_le)
  · exact fun _ => sim_pure h₂

theorem sim_allocPageID (h : Works c V H m s) (hE : Outer E) (hR : E Pager.sizeLimit → ∀ m s, R m s)
    (hV : bitmaps ⊆ V) :
    Sim E (Pager.allocPageID Mem.cache.toCacheOps) (Pager.allocPageID cacheOps) m s
      (fun x y m' s' => x = y ∧ Works c V H m' s') R := by
  have hneeded : Sim E (Pager.fsmPageNeeded Mem.cache.toCacheOps) (Pager.fsmPageNeeded cacheOps) m s
      (fun x y m' s' => x = y ∧ m' = m ∧ Works c V H m s') R := by
    apply sim_gets
    rw [h.getNumBlocks_eq]
    apply sim_ite Iff.rfl
    · exact fun _ => sim_pure ⟨rfl, rfl, h⟩
    · exact fun _ => h.sim_isFull hE hV
  apply hneeded.bind
  rintro needed needed' m' s' - ⟨rfl, rfl, h'⟩
  dsimp only
  apply sim_ite Iff.rfl
  · intro _
    exact (h'.sim_createFSMPage hE hR hV).bind fun _ _ _ _ _ h => h.sim_allocBit hE hV
  · exact fun _ => h'.sim_allocBit hE hV

theorem sim_getPage (h : Works c V H m s) (hE : Outer E) (hV : bitmaps ⊆ V) (T : PageType) (hid : id ∈ V) :
    Sim E (Pager.getPage Mem.cache.toCacheOps T id) (Pager.getPage cacheOps T id) m s
      (fun r page m' s' => r = id ∧ m' = m ∧ Works c V ((id, page) :: H) m s' ∧
        ∀ W, id ∈ W → W.card ≤ c → m.CleanBut {id} → Works c W [(id, page)] m s') R := by
  apply sim_gets
  rw [h.getNumBlocks_eq]
  apply sim_require
  · exact fun hx => hx
  intro _
  apply (h.sim_isFree hE hV id).bind
  rintro x y m' s' - ⟨rfl, rfl, h⟩
  apply sim_require
  · exact fun hx => hx
  intro _
  refine (h.sim_retrievePage hE T fun _ _ _ => hid).mono ?_ fun _ _ hR => hR
  rintro r page m'' s'' ⟨rfl, rfl, h', -, hnarrow⟩
  exact ⟨rfl, rfl, h', hnarrow⟩

theorem sim_newPage {T : PageType} (mk : ℕ → Page) (h : Works c V H m s) (hE : Outer E)
    (hR : E Pager.sizeLimit → ∀ m s, R m s) (hV : bitmaps ⊆ V) (hcard : V.card < c) (ok : m.Ok)
    (hinv : Pager.Inv m N) (hH : ∀ r ∈ H, r.1 ∈ Pager.liveIds m) (hid : ∀ id, (mk id).pageID = id)
    (hbasic : ∀ id, (mk id).Basic) (hfsm : ∀ id b, mk id ≠ .fsm b) :
    Sim E (Pager.placePage Mem.cache.toCacheOps T mk) (Pager.placePage cacheOps T mk) m s
      (fun r page m' s' => Works c (insert r V) ((r, page) :: H) m' s') R := by
  apply (h.sim_allocPageID hE hR hV).bind
  rintro id id' m₁ s₁ hrun ⟨rfl, h₁⟩
  obtain ⟨hlt, hnot⟩ : id < m₁.blocks ∧ id ∉ Pager.liveIds m := by
    by_cases hfull : (Pager.liveIds m).card = Pager.capacity
    · obtain ⟨m₂, hm₂, -⟩ := Pager.throws_allocPageID (C := Mem.cache) hinv hfull m ok rfl
      rw [hrun] at hm₂
      cases hm₂
    · obtain ⟨id', m', hret, hlt, -, hnot, -⟩ := Pager.returns_allocPageID (C := Mem.cache) hinv hfull
      obtain ⟨m₂, hm₂, -, rfl⟩ := hret m ok rfl
      rw [hrun] at hm₂
      cases hm₂
      exact ⟨hlt, hnot⟩
  have hcard' : (insert id V).card ≤ c := (Finset.card_insert_le ..).trans hcard
  have hmem : id ∈ insert id V := Finset.mem_insert_self ..
  have h₂ : Works c (insert id V) H m₁ s₁ := h₁.extend (Finset.subset_insert ..) hcard'
  apply (h₂.sim_insertPage (hbasic id) ((hid id).symm ▸ hmem) ((hid id).symm ▸ hlt)
    (fun b hb => absurd hb (hfsm id b)) fun r hr => ?_).bind
  swap
  · rw [hid]
    rintro rfl
    exact hnot (hH r hr)
  rintro - - m' s' - ⟨-, h₃⟩
  refine (h₃.sim_getPage hE (hV.trans (Finset.subset_insert ..)) T hmem).mono ?_ fun _ _ hR => hR
  rintro r page m'' s'' ⟨rfl, rfl, h₄, -⟩
  exact h₄

theorem sim_createNewPage (args : PageArgs) (h : Works c V H m s) (hE : Outer E)
    (hR : E Pager.sizeLimit → ∀ m s, R m s) (hV : bitmaps ⊆ V) (hcard : V.card < c) (ok : m.Ok)
    (hinv : Pager.Inv m N) (hH : ∀ r ∈ H, r.1 ∈ Pager.liveIds m) (hacc : args.Accepts)
    (hbasic : ∀ id, (args.page id).Basic) (hfsm : ∀ id b, args.page id ≠ .fsm b) :
    Sim E (Pager.createNewPage Mem.cache.toCacheOps args) (Pager.createNewPage cacheOps args) m s
      (fun r page m' s' => (m'.Ok ∧ (∃ N, Pager.Inv m' N) ∧ Pager.liveIds m' = insert r (Pager.liveIds m)) ∧
        Works c (insert r V) ((r, page) :: H) m' s') R := by
  rw [Pager.createNewPage_eq hacc, Pager.createNewPage_eq hacc]
  have hwp : (Pager.placePage Mem.cache.toCacheOps args.type args.page).wp m (fun r m' => m'.Ok ∧
      (∃ N, Pager.Inv m' N) ∧
      Pager.liveIds m' = insert r (Pager.liveIds m)) (fun _ _ => True) fun _ => True := by
    by_cases hfull : (Pager.liveIds m).card = Pager.capacity
    · obtain ⟨m', hm', -⟩ := Pager.throws_placePage (C := Mem.cache) hinv hfull args.type args.page m ok rfl
      exact (wp_of_throw hm').mpr trivial
    · obtain ⟨id, m', hret, -, -, -, -, -, hstep⟩ := Pager.returns_placePage (C := Mem.cache) hinv
        (fun _ => PageArgs.page_pageID _) (fun _ => PageArgs.page_type _) hfull
      obtain ⟨m₁, hm₁, ok₁, rfl⟩ := hret m ok rfl
      exact (wp_of_ok hm₁).mpr ⟨ok₁, hstep.inv, hstep.live⟩
  exact (h.sim_newPage _ hE hR hV hcard ok hinv hH (fun _ => PageArgs.page_pageID _) hbasic hfsm).and hwp

end PageCache.Works
end Kndb
