import Kndb.PageCache.Working

namespace Kndb

open Imp Imp.Prog

/-- The pages of a class are told by their type. -/
class LawfulPageClass (T : Type) [PageClass T] : Prop where
  wrap_of_cast : ∀ {p : Page} {t : T}, PageClass.cast p = some t → p = PageClass.wrap t
  exists_cast : ∀ {p : Page}, p.type = PageClass.type T → ∃ t : T, PageClass.cast p = some t

instance : LawfulPageClass SchemaPage where
  wrap_of_cast {p t} h := by
    cases p with
    | schema u =>
      cases h
      rfl
    | _ => cases h
  exists_cast {p} h := by
    cases p with
    | schema u => exact ⟨u, rfl⟩
    | _ => cases h

instance : LawfulPageClass FSMPage where
  wrap_of_cast {p t} h := by
    cases p with
    | fsm u =>
      cases h
      rfl
    | _ => cases h
  exists_cast {p} h := by
    cases p with
    | fsm u => exact ⟨u, rfl⟩
    | _ => cases h

instance : LawfulPageClass TablePage where
  wrap_of_cast {p t} h := by
    cases p with
    | table u =>
      cases h
      rfl
    | _ => cases h
  exists_cast {p} h := by
    cases p with
    | table u => exact ⟨u, rfl⟩
    | _ => cases h

instance : LawfulPageClass (BtreeNodePage Tuple) where
  wrap_of_cast {p t} h := by
    cases p with
    | node u =>
      cases h
      rfl
    | _ => cases h
  exists_cast {p} h := by
    cases p with
    | node u => exact ⟨u, rfl⟩
    | _ => cases h

theorem LawfulPageClass.exists_wrap {T : Type} [PageClass T] [LawfulPageClass T] {p : Page}
    (h : p.type = PageClass.type T) : ∃ t : T, p = PageClass.wrap t := by
  obtain ⟨t, ht⟩ := LawfulPageClass.exists_cast h
  exact ⟨t, LawfulPageClass.wrap_of_cast ht⟩

/-- The exceptions of `E` are none of those that the wrong pages cause. -/
def Outer (E : Exn → Prop) : Prop := ∀ e, E e → e ≠ .runtimeError "no such page" ∧ e ≠ .badCast

namespace PageCache

open Page (Evictable Again Basic)

variable {E : Exn → Prop} {c : ℕ} {V W : Finset ℕ} {H : List (ℕ × ℕ)} {m : Mem} {s : PageCache Page Block}
variable {id page : ℕ} {p q : Page} {α β T : Type} [PageClass T] [LawfulPageClass T]

/-- The page `q` may stand for the page `p` with this id. -/
structure Stands (id : ℕ) (p q : Page) : Prop where
  again : Again p q
  basic : q.Basic
  pageID : q.pageID = id

theorem Stands.eq_node {n : BtreeNodePage Tuple} (h : Stands id (.node n) q) : q = .node n := h.again.symm

theorem Stands.eq_schema {p : SchemaPage} (h : Stands id (.schema p) q) : q = .schema p := h.again.symm

namespace Works

variable {R : Mem → PageCache Page Block → Prop}

theorem getNumBlocks_eq (h : Works c V H m s) : cacheOps.getNumBlocks s = Mem.cache.getNumBlocks m := h.blocks.symm

/-- A page of the working set is retrieved, with which the set may begin again. -/
theorem sim_retrievePage (h : Works c V H m s) (hE : Outer E) (T : PageType)
    (hid : ∀ p, m.view id = some p → p.type = T → id ∈ V) :
    Sim E (Mem.cache.retrievePage T id) (cacheOps.retrievePage T id) m s
      (fun r page m' s' => r = id ∧ m' = m ∧ Works c V ((id, page) :: H) m s' ∧
        (∃ p, m.view id = some p ∧ p.type = T) ∧
        ∀ W, id ∈ W → W.card ≤ c → m.CleanBut {id} → Works c W [(id, page)] m s') R := by
  change Prog.wp (Mem.retrievePage T id) m _ _ _
  cases hview : m.view id with
  | none =>
    have hthrow : Mem.retrievePage T id m = .throw (.runtimeError "no such page") m := by
      rw [Mem.retrievePage, hview]
    exact sim_of_throw hthrow fun he => (hE _ he).1 rfl
  | some p =>
    by_cases htype : p.type = T
    · have hok : Mem.retrievePage T id m = .ok id m := by
        rw [Mem.retrievePage, hview]
        exact if_pos htype
      obtain ⟨page, s', front, back, M, hrun, hcap, hnum, hpage, hparts⟩ := h.retrieve (hid p hview htype) hview
      rw [htype] at hrun
      refine (wp_of_ok hok).mpr ⟨page, s', hrun, rfl, rfl, ?_, ⟨p, rfl, htype⟩, fun W hW hcard hclean => ?_⟩
      · exact ⟨hcap.trans h.capacity, h.fits, h.pos, h.blocks.trans hnum.symm, h.blocks_eq, h.fsm, _, _, M, hparts⟩
      · have hfirst := hparts.narrow (W := W) (hpage.symm ▸ hW) (hpage.symm ▸ hclean)
        rw [hpage] at hfirst
        exact ⟨hcap.trans h.capacity, hcard, h.pos, h.blocks.trans hnum.symm, h.blocks_eq, h.fsm, _, _, M, hfirst⟩
    · have hthrow : Mem.retrievePage T id m = .throw .badCast m := by
        rw [Mem.retrievePage, hview]
        exact if_neg htype
      exact sim_of_throw hthrow fun he => (hE _ he).2 rfl

theorem load_eq (h : m.view id = some p) : Mem.cache.load id m = p := congrArg (Option.getD · _) h

theorem stands (h : Works c V H m s) (hmem : (id, page) ∈ H) :
    ∃ p, m.view id = some p ∧ Stands id p (s.objects page) := by
  obtain ⟨-, p, hp, hagain, hbasic, hpid, -⟩ := h.object hmem
  exact ⟨p, hp, hagain, hbasic, hpid⟩

theorem sim_deref (h : Works c V H m s) (hmem : (id, page) ∈ H) :
    Sim E (Mem.cache.deref T id) (cacheOps.deref T page) m s (fun t u m' s' => m' = m ∧ s' = s ∧
      m.view id = some (PageClass.wrap t) ∧ Stands id (PageClass.wrap t) (PageClass.wrap u)) R := by
  obtain ⟨p, hp, hs⟩ := h.stands hmem
  cases hcast : (PageClass.cast p : Option T) with
  | none =>
    have habort : Mem.cache.deref T id m = .abort "dangling reference" := by
      rw [CacheOps.deref, load_eq hp, hcast]
    exact sim_of_abort habort
  | some t =>
    have hok : Mem.cache.deref T id m = .ok t m := by rw [CacheOps.deref, load_eq hp, hcast]
    obtain rfl := LawfulPageClass.wrap_of_cast hcast
    obtain ⟨u, hu⟩ := LawfulPageClass.exists_cast (hs.again.type_eq.trans (PageClass.type_wrap t))
    have hok' : cacheOps.deref T page s = .ok u s := by
      rw [CacheOps.deref, show cacheOps.load page s = s.objects page from rfl, hu]
    exact sim_of_ok hok hok' ⟨rfl, rfl, hp, LawfulPageClass.wrap_of_cast hu ▸ hs⟩

theorem sim_call {f : Code T α} {g : Code T β} {Q : α → β → T → Prop} {S : T → Prop} (h : Works c V H m s)
    (hmem : (id, page) ∈ H)
    (hf : ∀ t u, m.view id = some (PageClass.wrap t) → Stands id (PageClass.wrap t) (PageClass.wrap u) →
      Sim E f g t u (fun a b t' u' => Q a b t' ∧ Stands id (PageClass.wrap t') (PageClass.wrap u'))
        fun t' u' => S t' ∧ Stands id (PageClass.wrap t') (PageClass.wrap u')) :
    Sim E (Mem.cache.call id f) (cacheOps.call page g) m s
      (fun a b m' s' => ∃ t', Q a b t' ∧ m' = m.set id (PageClass.wrap t') ∧ Works c V H m' s')
      fun m' s' => ∃ t', S t' ∧ m' = m.set id (PageClass.wrap t') ∧ Works c V H m' s' := by
  obtain ⟨p, hp, hs⟩ := h.stands hmem
  cases hcast : (PageClass.cast p : Option T) with
  | none =>
    have habort : Mem.cache.call id f m = .abort "dangling reference" := by
      rw [CacheOps.call, load_eq hp, hcast]
    exact sim_of_abort habort
  | some t =>
    obtain rfl := LawfulPageClass.wrap_of_cast hcast
    obtain ⟨u, hu⟩ := LawfulPageClass.exists_cast (hs.again.type_eq.trans (PageClass.type_wrap t))
    have hobject := LawfulPageClass.wrap_of_cast hu
    have hcall : Mem.cache.call id f m = (f.zoom (fun _ : Mem => t)
        fun t' m' => m'.set id (PageClass.wrap t')) m := by
      rw [CacheOps.call, load_eq hp, hcast]
      rfl
    have hcall' : cacheOps.call page g s = (g.zoom (fun _ : PageCache Page Block => u)
        fun u' s' => PageCache.store page (PageClass.wrap u') s') s := by
      rw [CacheOps.call, show cacheOps.load page s = s.objects page from rfl, hu]
      rfl
    have hstore : ∀ t' u' : T, Stands id (PageClass.wrap t') (PageClass.wrap u') →
        Works c V H (m.set id (PageClass.wrap t')) (PageCache.store page (PageClass.wrap u') s) := by
      intro t' u' hs'
      refine h.store hmem hs'.again hs'.basic hs'.pageID fun b hb => ?_
      have htype : (PageClass.wrap t).type = .fsm := by
        rw [PageClass.type_wrap, ← PageClass.type_wrap t', hb]
        rfl
      obtain ⟨b', hb'⟩ := LawfulPageClass.exists_wrap (T := FSMPage) htype
      exact h.fsm id b' (hp.trans (congrArg some hb'))
    unfold Sim
    rw [wp_congr hcall, wp_zoom]
    apply wp_mono (hf t u hp (hobject ▸ hs))
    · rintro a t' ⟨b, u', hg, hQ, hs'⟩
      exact ⟨b, _, hcall'.trans (zoom_ok hg), t', hQ, rfl, hstore t' u' hs'⟩
    · intro e t' hthrow he
      obtain ⟨u', hg, hQ', hs'⟩ := hthrow he
      exact ⟨_, hcall'.trans (zoom_throw hg), t', hQ', rfl, hstore t' u' hs'⟩
    · exact fun _ hx => hx

theorem sim_insertPage (h : Works c V H m s) (hp : p.Basic) (hid : p.pageID ∈ V) (hlt : p.pageID < m.blocks)
    (hfsm : ∀ b, p = .fsm b → p.pageID ∈ bitmaps) (hH : ∀ r ∈ H, r.1 ≠ p.pageID) :
    Sim E (Mem.cache.insertPage p) (cacheOps.insertPage p) m s
      (fun _ _ m' s' => m' = m.set p.pageID p ∧ Works c V H m' s') R := by
  obtain ⟨s', hrun, h'⟩ := h.insertPage hp hid hlt hfsm hH
  have hok : Mem.cache.insertPage p m = .ok () (m.set p.pageID p) := rfl
  exact sim_of_ok hok hrun ⟨rfl, h'⟩

theorem cacheOps_createMultipleBlocks {n : ℕ} (hn : 0 < n) (s : PageCache Page Block) :
    cacheOps.createMultipleBlocks n s = .ok s.numBlocks { s with numBlocks := s.numBlocks + n } := by
  change PageCache.createMultipleBlocks n s = _
  rw [PageCache.createMultipleBlocks, bind_ok (require_ok _ s (decide_eq_true hn))]
  exact congrArg (Outcome.ok · _) (Nat.add_sub_cancel ..)

theorem sim_createMultipleBlocks (h : Works c V H m s) (hblocks : m.blocks / FSMPage.getBlocksInPage ≠ MAX_FSMPAGES) :
    Sim E (Mem.cache.createMultipleBlocks FSMPage.getBlocksInPage)
      (cacheOps.createMultipleBlocks FSMPage.getBlocksInPage) m s (fun k l m' s' => k = m.blocks ∧ l = k ∧
        m' = { m with blocks := m.blocks + FSMPage.getBlocksInPage } ∧ Works c V H m' s') R :=
  sim_of_ok rfl (cacheOps_createMultipleBlocks FreeSpaceMap.getBlocksInPage_pos s)
    ⟨rfl, h.blocks.symm, rfl, h.grow hblocks⟩

end Works
end PageCache
end Kndb
