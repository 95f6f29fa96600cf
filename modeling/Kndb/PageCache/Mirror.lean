import Kndb.FSMPage.Longer
import Kndb.MemCache
import Kndb.PageCache.Format
import Kndb.PageCache.Refines
import Kndb.Pager

namespace Kndb

open Imp Imp.Prog

namespace Page

/-- Pages that can be written and read back; a bitmap may have any bits. -/
def Evictable : Page → Prop
  | fsm p => p.Evictable
  | p => p.Sound

/-- `q` stands for `p`: a bitmap may have got longer, and of other pages only the type and the id matter. -/
def Alike : Page → Page → Prop
  | fsm p, fsm q => FSMPage.Extends p q
  | p, q => q.type = p.type ∧ q.pageID = p.pageID

variable {p q r : Page}

theorem Alike.type_eq (h : Alike p q) : q.type = p.type := by
  unfold Alike at h
  split at h
  · rfl
  · exact h.1

theorem Alike.pageID_eq (h : Alike p q) : q.pageID = p.pageID := by
  unfold Alike at h
  split at h
  · exact h.pageID
  · exact h.2

theorem alike_refl (p : Page) : Alike p p := by
  unfold Alike
  split
  · rename_i heq
    cases heq
    exact FSMPage.Extends.refl _
  · exact ⟨rfl, rfl⟩

theorem Alike.exists_fsm {p : FSMPage} (h : Alike (.fsm p) q) : ∃ q', q = .fsm q' ∧ FSMPage.Extends p q' := by
  have htype : q.type = .fsm := h.type_eq
  cases q with
  | fsm q => exact ⟨q, rfl, h⟩
  | schema _ => cases htype
  | table _ => cases htype
  | node _ => cases htype

theorem alike_of_again (h : Again p q) : Alike p q := by
  unfold Again at h
  split at h
  · exact h
  · exact ⟨rfl, h.pageID⟩
  · exact h ▸ alike_refl p

theorem Alike.trans (h : Alike p q) (h' : Alike q r) : Alike p r := by
  unfold Alike at h
  split at h
  · obtain ⟨r, rfl, hr⟩ := h'.exists_fsm
    exact h.trans hr
  · rename_i hne
    unfold Alike
    split
    · have htype : q.type = .fsm := h.1
      cases q with
      | fsm q => exact absurd rfl (hne _ _ rfl)
      | schema _ => cases htype
      | table _ => cases htype
      | node _ => cases htype
    · exact ⟨h'.type_eq.trans h.1, h'.pageID_eq.trans h.2⟩

theorem format_recovers_evictable : format.Recovers Evictable Again := by
  intro J p hp
  cases p with
  | fsm p =>
    have hp : p.Evictable := hp
    obtain ⟨out, tail, hw, -, hlen, hr⟩ := FSMPage.reread_append hp.next_lt hp.free_lt hp.fits J
    refine ⟨_, format_toBytes hw, .fsm { p with bitmap := p.bitmap ++ tail }, ⟨rfl, rfl, rfl, tail, rfl⟩,
      ⟨hp.next_lt, hp.free_lt, hlen.le⟩, fun J' => ?_⟩
    exact format_ofBytes (T := .fsm) (by rw [parse]; exact bind_ok hr)
  | schema p =>
    obtain ⟨b, hb, q, rfl, hq, hr⟩ := format_recovers J (.schema p) hp
    exact ⟨b, hb, _, rfl, hq, hr⟩
  | table p =>
    obtain ⟨b, hb, q, hagain, hq, hr⟩ := format_recovers J (.table p) hp
    cases q with
    | table q => exact ⟨b, hb, .table q, hagain, hq, hr⟩
    | schema _ => cases hagain
    | fsm _ => cases hagain
    | node _ => cases hagain
  | node n =>
    obtain ⟨b, hb, q, rfl, hq, hr⟩ := format_recovers J (.node n) hp
    exact ⟨b, hb, _, rfl, hq, hr⟩

end Page

namespace PageCache

open Page (Evictable Again Alike)

/-- What the classes over the cache use of it. -/
def cacheOps : CacheOps ℕ (PageCache Page Block) where
  retrievePage := retrievePage Page.format none
  insertPage := insertPage Page.format none
  load page s := s.objects page
  store := store
  getNumBlocks := getNumBlocks
  createMultipleBlocks := createMultipleBlocks

variable {P B : Type} {F : PageFormat P B} {Good : P → Prop} {Again' : P → P → Prop}

def refs (F : PageFormat P B) (s : PageCache P B) (es : List Entry) : List (ℕ × ℕ) :=
  es.map fun e => (idAt F s e.page, e.page)

/-- The references after the page `id` at `page` has been retrieved. -/
def hold (id page : ℕ) (held : List (ℕ × ℕ)) : List (ℕ × ℕ) := (id, page) :: held.filter fun r => r.1 ≠ id

theorem hold_prefix {id page c : ℕ} {held refs : List (ℕ × ℕ)} (h : held <+: refs)
    (hfew : (hold id page held).length ≤ c) : hold id page held <+: (hold id page refs).take c :=
  List.prefix_take_iff.mpr ⟨(List.cons_prefix_cons.mpr ⟨rfl, h.filter _⟩), hfew⟩

theorem mem_hold {id x page a : ℕ} {held : List (ℕ × ℕ)} (hmem : (x, a) ∈ held)
    (hsame : ∀ b, (id, b) ∈ held → page = b) : (x, a) ∈ hold id page held := by
  by_cases hx : x = id
  · subst hx
    rw [hsame a hmem]
    exact List.mem_cons_self ..
  · exact List.mem_cons_of_mem _ (List.mem_filter.mpr ⟨hmem, decide_eq_true hx⟩)

theorem refs_toFront {s s' : PageCache P B} {es : List Entry} {id page : ℕ} (hid : idAt F s' page = id)
    (hkept : ∀ e ∈ es, idAt F s' e.page = idAt F s e.page) :
    refs F s' (toFront F page id s es) = hold id page (refs F s es) := by
  rw [refs, toFront, List.map_cons, hid, hold, refs, List.filter_map]
  apply congrArg
  apply List.map_congr_left
  intro e he
  rw [hkept e (List.mem_filter.mp he).1]

theorem Fetched.refs_eq {s s' : PageCache P B} {es es' : List Entry} {id page : ℕ} {p : P} {M' : ℕ → Option P}
    (h : Fetched F Good Again' s es id p page s' es' M') (hid : F.pageID p = id) :
    refs F s' es' = (hold id page (refs F s es)).take s.capacity := by
  have hpage : idAt F s' page = id := by rw [idAt, h.object, hid]
  have hkept : ∀ e ∈ es, idAt F s' e.page = idAt F s e.page := fun e he => congrArg F.pageID (h.kept e he)
  rw [h.order, ← refs_toFront hpage hkept, refs, refs, List.map_take]

/-- The memory `m` has the pages that the cache and its file have, and the references `held` are good. -/
structure Mirrors (held : List (ℕ × ℕ)) (m : Mem) (s : PageCache Page Block) : Prop where
  two_le : 2 ≤ s.capacity
  blocks : m.blocks = s.numBlocks
  blocks_le : m.blocks ≤ 2 ^ 32
  pages : ∃ es M, Refines Page.format Evictable Again s es M ∧ held <+: refs Page.format s es ∧
    ∀ id p, m.view id = some p → ∃ q, M id = some q ∧ Alike p q

variable {E : Exn → Prop} {held : List (ℕ × ℕ)} {m : Mem} {s : PageCache Page Block} {M M' : ℕ → Option Page}
variable {id page : ℕ} {p : Page} {α : Type}

theorem Faded.alike (h : Faded Again M M') (hM : ∃ q, M id = some q ∧ Alike p q) :
    ∃ q, M' id = some q ∧ Alike p q := by
  obtain ⟨q, hq, halike⟩ := hM
  obtain heq | ⟨q₀, r, hq₀, hr, hagain⟩ := h id
  · exact ⟨q, heq.trans hq, halike⟩
  · rw [hq, Option.some.injEq] at hq₀
    subst hq₀
    exact ⟨r, hr, halike.trans (Page.alike_of_again hagain)⟩

namespace Mirrors

theorem getNumBlocks_eq (h : Mirrors held m s) : cacheOps.getNumBlocks s = Mem.cache.getNumBlocks m := h.blocks.symm

theorem forget (h : Mirrors held m s) : Mirrors [] m s := by
  obtain ⟨es, M, href, -, hM⟩ := h.pages
  exact ⟨h.two_le, h.blocks, h.blocks_le, es, M, href, List.nil_prefix, hM⟩

theorem exists_entry (h : Mirrors held m s) (hmem : (id, page) ∈ held) (hp : m.view id = some p) :
    ∃ es M, Refines Page.format Evictable Again s es M ∧ held <+: refs Page.format s es ∧
      (∀ id p, m.view id = some p → ∃ q, M id = some q ∧ Alike p q) ∧
      ∃ e ∈ es, idAt Page.format s e.page = id ∧ e.page = page ∧ Alike p (s.objects page) := by
  obtain ⟨es, M, href, hheld, hM⟩ := h.pages
  obtain ⟨e, he, heq⟩ := List.mem_map.mp (hheld.subset hmem)
  rw [Prod.mk.injEq] at heq
  obtain ⟨q, hq, halike⟩ := hM id p hp
  have hcached := href.cached e he
  rw [heq.1, hq, Option.some.injEq] at hcached
  rw [hcached, heq.2] at halike
  exact ⟨es, M, href, hheld, hM, e, he, heq.1, heq.2, halike⟩

variable {R : Mem → PageCache Page Block → Prop}

/-- A page is retrieved, and with it one other reference at most stays good. -/
theorem sim_retrievePage (h : Mirrors held m s) (id : ℕ) (T : PageType) (hfew : held.length ≤ 1)
    (hE : ∀ e, E e → e = Pager.sizeLimit) :
    Sim E (Mem.cache.retrievePage T id) (cacheOps.retrievePage T id) m s
      (fun r page m' s' => r = id ∧ m' = m ∧ Mirrors (hold id page held) m s' ∧
        (∀ a, (id, a) ∈ held → page = a) ∧ ∃ p, m.view id = some p) R := by
  obtain ⟨es, M, href, hheld, hM⟩ := h.pages
  change Prog.wp (Mem.retrievePage T id) m _ _ _
  cases hview : m.view id with
  | none =>
    have hthrow : Mem.retrievePage T id m = .throw (.runtimeError "no such page") m := by
      rw [Mem.retrievePage, hview]
    exact (wp_of_throw hthrow).mpr fun he => absurd (hE _ he) (by decide)
  | some p =>
    by_cases htype : p.type = T
    · have hok : Mem.retrievePage T id m = .ok id m := by
        rw [Mem.retrievePage, hview]
        exact if_pos htype
      obtain ⟨q, hq, halike⟩ := hM id p hview
      have hcap : s.capacity ≠ 0 := (Nat.lt_of_lt_of_le Nat.zero_lt_two h.two_le).ne'
      obtain ⟨page, s', es', M', hrun, hfetched, hfade⟩ :=
        href.retrievePage Page.format_recovers_evictable hcap hq
      have htype' : Page.format.type q = T := halike.type_eq.trans htype
      rw [htype'] at hrun
      have hpid : Page.format.pageID q = id := (href.good hq).2.1
      -- the page comes to the front, and the one held before it is the next in the list
      have hfew' : (hold id page held).length ≤ s.capacity :=
        (Nat.succ_le_succ ((List.length_filter_le ..).trans hfew)).trans h.two_le
      refine (wp_of_ok hok).mpr ⟨page, s', hrun, rfl, rfl, ⟨?_, ?_, h.blocks_le, es', M', hfetched.refines, ?_, ?_⟩, ?_,
        p, rfl⟩
      · rw [hfetched.returned.capacity]
        exact h.two_le
      · rw [hfetched.numBlocks]
        exact h.blocks
      · rw [hfetched.refs_eq hpid]
        exact hold_prefix hheld hfew'
      · exact fun x p' hp' => hfade.alike (hM x p' hp')
      · intro a ha
        obtain ⟨e, he, heq⟩ := List.mem_map.mp (hheld.subset ha)
        rw [Prod.mk.injEq] at heq
        rw [← heq.2]
        exact hfetched.same e he heq.1
    · have hthrow : Mem.retrievePage T id m = .throw .badCast m := by
        rw [Mem.retrievePage, hview]
        exact if_neg htype
      exact (wp_of_throw hthrow).mpr fun he => absurd (hE _ he) nofun

theorem view_of_cast {p : FSMPage} (h : PageClass.cast (Mem.cache.load id m) = some p) :
    m.view id = some (.fsm p) := by
  change PageClass.cast ((m.view id).getD (.schema (.new id))) = some p at h
  rcases hview : m.view id with _ | q
  · rw [hview] at h
    cases h
  · rw [hview, Option.getD_some] at h
    cases q with
    | fsm q =>
      cases h
      rfl
    | schema _ => cases h
    | table _ => cases h
    | node _ => cases h

theorem sim_deref (h : Mirrors held m s) (hmem : (id, page) ∈ held) :
    Sim E (Mem.cache.deref FSMPage id) (cacheOps.deref FSMPage page) m s
      (fun p q m' s' => m' = m ∧ s' = s ∧ FSMPage.Extends p q ∧ p.pageID < 2 ^ 32 ∧ p.nextPageID < 2 ^ 32) R := by
  cases hcast : (PageClass.cast (Mem.cache.load id m) : Option FSMPage) with
  | none =>
    have habort : Mem.cache.deref FSMPage id m = .abort "dangling reference" := by
      rw [CacheOps.deref, hcast]
    exact sim_of_abort habort
  | some p =>
    have hok : Mem.cache.deref FSMPage id m = .ok p m := by rw [CacheOps.deref, hcast]
    obtain ⟨es, M, href, -, -, e, he, rfl, rfl, halike⟩ := h.exists_entry hmem (view_of_cast hcast)
    obtain ⟨q, hq, hext⟩ := halike.exists_fsm
    obtain ⟨hgood, -, hlt⟩ := href.good (href.cached e he)
    rw [hq] at hgood
    have hgood : q.Evictable := hgood
    have hpid : idAt Page.format s e.page = q.pageID := congrArg Page.pageID hq
    refine (wp_of_ok hok).mpr ⟨q, s, ?_, ?_⟩
    · rw [CacheOps.deref, show cacheOps.load e.page s = .fsm q from hq]
      rfl
    · refine ⟨rfl, rfl, hext, ?_, hext.nextPageID ▸ hgood.next_lt⟩
      rw [← hext.pageID, ← hpid]
      exact hlt.trans_le (h.blocks ▸ h.blocks_le)

theorem sim_call {f : Code FSMPage α} (h : Mirrors held m s) (hmem : (id, page) ∈ held) (hf : FSMPage.Tracks E f) :
    Sim E (Mem.cache.call id f) (cacheOps.call page f) m s (fun a b m' s' => a = b ∧ Mirrors held m' s') R := by
  cases hcast : (PageClass.cast (Mem.cache.load id m) : Option FSMPage) with
  | none =>
    have habort : Mem.cache.call id f m = .abort "dangling reference" := by rw [CacheOps.call, hcast]
    exact sim_of_abort habort
  | some p =>
    have hview := view_of_cast hcast
    obtain ⟨es, M, href, hheld, hM, e, he, rfl, rfl, halike⟩ := h.exists_entry hmem hview
    -- the two bitmaps may differ in what lies past the end of the shorter one
    obtain ⟨q, hq, hext⟩ := halike.exists_fsm
    have hcall : Mem.cache.call (idAt Page.format s e.page) f m = (f.zoom (fun _ : Mem => p)
        fun p' m' => m'.set (idAt Page.format s e.page) (.fsm p')) m := by
      rw [CacheOps.call, hcast]
      rfl
    have hcall' : cacheOps.call e.page f s = (f.zoom (fun _ : PageCache Page Block => q)
        fun q' s' => store e.page (.fsm q') s') s := by
      rw [CacheOps.call, show cacheOps.load e.page s = .fsm q from hq]
      rfl
    have hevict : q.Evictable := by
      have := (href.good (href.cached e he)).1
      rwa [hq] at this
    unfold Sim
    rw [wp_congr hcall, wp_zoom]
    apply wp_mono (hf p q hext hevict)
    · rintro a p' ⟨b, q', hg, hab, hext', hevict', hpid⟩
      have hpid' : Page.format.pageID (.fsm q') = idAt Page.format s e.page := by
        rw [idAt, hq]
        exact hpid
      have hrefs : refs Page.format (store e.page (.fsm q') s) es = refs Page.format s es := by
        apply List.map_congr_left
        intro e' _
        rw [idAt_store hpid']
      refine ⟨b, store e.page (.fsm q') s, hcall'.trans (zoom_ok hg), hab, h.two_le, h.blocks, h.blocks_le, es, _,
        href.store he hevict' hpid', hrefs ▸ hheld, ?_⟩
      intro x r hr
      by_cases hx : x = idAt Page.format s e.page
      · subst hx
        rw [Mem.set_self, Option.some.injEq] at hr
        subst hr
        exact ⟨.fsm q', Function.update_self .., hext'⟩
      · rw [Mem.set_of_ne hx] at hr
        rw [Function.update_of_ne hx]
        exact hM x r hr
    · intro x p' hthrow hx
      obtain ⟨q', -, hfalse⟩ := hthrow hx
      exact absurd hfalse id
    · exact fun _ _ => trivial

/-- A page that is put into the cache may make another one leave it. -/
theorem sim_insertPage (h : Mirrors held m s) (hp : p.Evictable) (hlt : p.pageID < m.blocks) :
    Sim E (Mem.cache.insertPage p) (cacheOps.insertPage p) m s
      (fun _ _ m' s' => m' = m.set p.pageID p ∧ Mirrors [] m' s') R := by
  obtain ⟨es, M, href, -, hM⟩ := h.pages
  obtain ⟨s', es', M', hrun, hev, href', hfade⟩ :=
    href.insertPage Page.format_recovers_evictable hp (hlt.trans_eq h.blocks)
  have hok : Mem.cache.insertPage p m = .ok () (m.set p.pageID p) := rfl
  refine sim_of_ok hok hrun ⟨rfl, ?_, ?_, h.blocks_le, es', M', href', List.nil_prefix, fun x r hr => hfade.alike ?_⟩
  · rw [hev.capacity]
    exact h.two_le
  · rw [hev.numBlocks]
    exact h.blocks
  · by_cases hx : x = p.pageID
    · subst hx
      rw [Mem.set_self, Option.some.injEq] at hr
      subst hr
      exact ⟨p, Function.update_self .., Page.alike_refl p⟩
    · rw [Mem.set_of_ne hx] at hr
      obtain ⟨q, hq, halike⟩ := hM x r hr
      exact ⟨q, (Function.update_of_ne hx ..).trans hq, halike⟩

theorem sim_createMultipleBlocks (h : Mirrors held m s) {n : ℕ} (hn : 0 < n) (hle : m.blocks + n ≤ 2 ^ 32) :
    Sim E (Mem.cache.createMultipleBlocks n) (cacheOps.createMultipleBlocks n) m s
      (fun k l m' s' => k = m.blocks ∧ l = k ∧ m' = { m with blocks := m.blocks + n } ∧ Mirrors held m' s') R := by
  obtain ⟨es, M, href, hheld, hM⟩ := h.pages
  have hok : Mem.cache.createMultipleBlocks n m = .ok m.blocks { m with blocks := m.blocks + n } := rfl
  have hok' : cacheOps.createMultipleBlocks n s = .ok s.numBlocks { s with numBlocks := s.numBlocks + n } := by
    change createMultipleBlocks n s = _
    rw [createMultipleBlocks, bind_ok (require_ok _ s (decide_eq_true hn))]
    exact congrArg (Outcome.ok · _) (Nat.add_sub_cancel ..)
  have hgrown : Refines Page.format Evictable Again { s with numBlocks := s.numBlocks + n } es M := by
    refine ⟨⟨href.toLinked.congr rfl rfl rfl le_rfl fun _ _ => rfl, href.cached, fun hp => ?_, href.stored⟩,
      href.size⟩
    obtain ⟨hgood, hpid, hlt⟩ := href.good hp
    exact ⟨hgood, hpid, Nat.lt_add_right n hlt⟩
  exact sim_of_ok hok hok' ⟨rfl, h.blocks.symm, rfl, h.two_le, congrArg (· + n) h.blocks, hle, es, M, hgrown, hheld, hM⟩

end Mirrors

theorem mirrors_new {capacity : ℕ} (hcap : 2 ≤ capacity) (blocks : ℕ → Block) (objects : ℕ → Page)
    (junk : ℕ → Junk) : Mirrors [] ⟨fun _ => none, 0⟩ (new capacity 0 blocks objects junk) :=
  ⟨hcap, rfl, Nat.zero_le _, [], fun _ => none, refines_new .., List.nil_prefix, nofun⟩

end PageCache
end Kndb
