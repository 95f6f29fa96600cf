import Kndb.FreeSpaceMap.Invariant
import Kndb.PageCache.Mirror
import Kndb.PageCache.Reopened

namespace Kndb

open Imp Imp.Prog

namespace Page

/-- What is true of a page whatever is being done to it. -/
def Basic : Page → Prop
  | fsm p => p.Evictable
  | node n => n.parentID < 2 ^ 32
  | _ => True

variable {p q r : Page}

theorem Evictable.basic (h : p.Evictable) : p.Basic := by
  cases p with
  | schema p => trivial
  | fsm p => exact h
  | table p => trivial
  | node n =>
    have h : NodeSound n := h
    exact h.encodable.parentID_lt

theorem again_refl (p : Page) : Again p p := by
  cases p with
  | schema p => exact rfl
  | fsm p => exact FSMPage.Extends.refl p
  | table p => exact ⟨rfl, rfl, rfl, rfl⟩
  | node n => exact rfl

theorem Again.type_eq (h : Again p q) : q.type = p.type := (alike_of_again h).type_eq

theorem Again.pageID_eq (h : Again p q) : q.pageID = p.pageID := (alike_of_again h).pageID_eq

theorem Again.exists_table {p : TablePage} (h : Again (.table p) q) : ∃ q', q = .table q' ∧ TablePage.Same p q' := by
  cases q with
  | table q => exact ⟨q, rfl, h⟩
  | _ => cases h

theorem Again.trans (h : Again p q) (h' : Again q r) : Again p r := by
  cases p with
  | schema p =>
    obtain rfl : schema p = q := h
    exact h'
  | fsm p =>
    obtain ⟨q, rfl, hpq⟩ := Alike.exists_fsm (alike_of_again h)
    obtain ⟨r, rfl, hqr⟩ := Alike.exists_fsm (alike_of_again h')
    exact hpq.trans hqr
  | table p =>
    obtain ⟨q, rfl, hpq⟩ := h.exists_table
    obtain ⟨r, rfl, hqr⟩ := h'.exists_table
    exact ⟨hqr.pageID.trans hpq.pageID, hqr.types.trans hpq.types, hqr.btreePageID.trans hpq.btreePageID,
      hqr.numTuples.trans hpq.numTuples⟩
  | node n =>
    obtain rfl : node n = q := h
    exact h'

theorem Again.evictable (h : Again p q) (hp : p.Evictable) (hq : q.Basic) : q.Evictable := by
  cases p with
  | schema p =>
    obtain rfl : schema p = q := h
    exact hp
  | fsm p =>
    obtain ⟨q, rfl, -⟩ := Alike.exists_fsm (alike_of_again h)
    exact hq
  | table p =>
    obtain ⟨q, rfl, hsame⟩ := h.exists_table
    exact hsame.sound hp
  | node n =>
    obtain rfl : node n = q := h
    exact hp

/-- A page that lasts can be written, unless it is a node with a parent id of more than four bytes. -/
theorem Lasts.evictable (h : p.Lasts) (hp : ∀ n, p = .node n → n.parentID < 2 ^ 32) : p.Evictable := by
  cases p with
  | schema p => exact h
  | fsm p => exact FSMPage.Sound.evictable h
  | table p => exact h
  | node n =>
    have hself : n.setParent (n.parentID % 2 ^ 32) = n := by
      rw [Nat.mod_eq_of_lt (hp n rfl)]
      rfl
    have h : NodeSound (n.setParent (n.parentID % 2 ^ 32)) := h
    rwa [hself] at h

theorem recoversAt_evictable (h : p.Evictable) : format.RecoversAt Basic Again p := by
  intro J
  obtain ⟨b, hb, q, hagain, hq, hread⟩ := format_recovers_evictable J p h
  exact ⟨b, hb, q, hagain, hq.basic, hread⟩

end Page

/-- All pages but those of `S` can be written. -/
def Mem.CleanBut (S : Set ℕ) (m : Mem) : Prop := ∀ x p, x ∉ S → m.view x = some p → p.Evictable

/-- All pages but those of `S` last. -/
def Mem.LastBut (S : Set ℕ) (m : Mem) : Prop := ∀ x p, x ∉ S → x < m.blocks → m.view x = some p → p.Lasts

namespace PageCache

open Page (Evictable Again Basic)

variable {c : ℕ} {V W : Finset ℕ} {H H' : List (ℕ × ℕ)} {m m' : Mem} {s s' t : PageCache Page Block}
variable {front back : List Entry} {M : ℕ → Option Page} {e : Entry} {id page : ℕ} {p q : Page}

def bitmaps : Finset ℕ := {0, FSMPage.getBlocksInPage}

/-- The list begins with pages of the working set `V`, among them those of the references `H`, and the pages
behind them can be written.  The pages stand for those of `m`. -/
structure Parts (V : Finset ℕ) (H : List (ℕ × ℕ)) (m : Mem) (s : PageCache Page Block) (front back : List Entry)
    (M : ℕ → Option Page) : Prop where
  refines : Refines Page.format Basic Again s (front ++ back) M
  working : ∀ e ∈ front, idAt Page.format s e.page ∈ V
  resting : ∀ e ∈ back, (s.objects e.page).Evictable
  held : ∀ r ∈ H, ∃ e ∈ front, (idAt Page.format s e.page, e.page) = r
  view : ∀ id, Option.Rel Again (m.view id) (M id)

/-- A cache of `c` pages that has room for the pages of `V`. -/
structure Works (c : ℕ) (V : Finset ℕ) (H : List (ℕ × ℕ)) (m : Mem) (s : PageCache Page Block) : Prop where
  capacity : s.capacity = c
  fits : V.card ≤ c
  pos : c ≠ 0
  blocks : m.blocks = s.numBlocks
  blocks_eq : ∃ N, N ≤ MAX_FSMPAGES ∧ m.blocks = N * FSMPage.getBlocksInPage
  fsm : ∀ id p, m.view id = some (.fsm p) → id ∈ bitmaps
  parts : ∃ front back M, Parts V H m s front back M

theorem length_le_card {l : List ℕ} (hl : l.Nodup) (h : ∀ x ∈ l, x ∈ V) : l.length ≤ V.card := by
  rw [← List.toFinset_card_of_nodup hl]
  exact Finset.card_le_card fun x hx => h x (List.mem_toFinset.mp hx)

theorem length_toFront_le (hl : Linked Page.format s (front ++ back))
    (hfront : ∀ e ∈ front, idAt Page.format s e.page ∈ V) (hid : id ∈ V) :
    (front.filter fun e => idAt Page.format s e.page ≠ id).length + 1 ≤ V.card := by
  have hnodup := hl.ids
  rw [PageCache.ids, List.map_append, List.nodup_append] at hnodup
  set others := front.filter fun e => idAt Page.format s e.page ≠ id
  have hothers : (others.map fun e => idAt Page.format s e.page).Nodup :=
    hnodup.1.sublist (List.filter_sublist.map _)
  have hnot : id ∉ others.map fun e => idAt Page.format s e.page := by
    intro hmem
    obtain ⟨e, he, heq⟩ := List.mem_map.mp hmem
    exact of_decide_eq_true (List.mem_filter.mp he).2 heq
  have hlen := length_le_card (V := V) (List.nodup_cons.mpr ⟨hnot, hothers⟩) fun x hx => by
    rcases List.mem_cons.mp hx with rfl | hx
    · exact hid
    · obtain ⟨e, he, rfl⟩ := List.mem_map.mp hx
      exact hfront e (List.mem_filter.mp he).1
  rwa [List.length_cons, List.length_map] at hlen

theorem droppable_of_front (hlen : front.length ≤ t.capacity) (hback : ∀ e ∈ back, (t.objects e.page).Evictable) :
    Droppable Page.format Basic Again t (front ++ back) := by
  intro init l hl hfull
  rcases List.eq_nil_or_concat back with rfl | ⟨back', l', rfl⟩
  · rw [List.append_nil] at hfull
    omega
  · rw [List.concat_eq_append, ← List.append_assoc] at hl
    obtain rfl : l' = l := by simpa using (List.append_inj' hl rfl).2
    exact Page.recoversAt_evictable (hback l' (by simp))

theorem take_front {k : ℕ} (hlen : front.length ≤ k) :
    (front ++ back).take k = front ++ back.take (k - front.length) := by
  rw [List.take_append, List.take_of_length_le hlen]

theorem toFront_append (page id : ℕ) (s : PageCache Page Block) (front back : List Entry) :
    toFront Page.format page id s (front ++ back) =
      (⟨s.nextIt, page⟩ :: front.filter fun e => idAt Page.format s e.page ≠ id) ++
        back.filter fun e => idAt Page.format s e.page ≠ id := by
  rw [toFront, List.filter_append]
  rfl

theorem view_faded {M' : ℕ → Option Page} (h : ∀ id, Option.Rel Again (m.view id) (M id)) (hM : Faded Again M M')
    (id : ℕ) : Option.Rel Again (m.view id) (M' id) := by
  obtain heq | ⟨q, r, hq, hr, hagain⟩ := hM id
  · exact heq ▸ h id
  · have hid := h id
    rw [hq] at hid
    rw [hr]
    generalize m.view id = o at hid
    cases hid with
    | some hpq => exact .some (hpq.trans hagain)

namespace Parts

theorem evictable (h : Parts V H m s front back M) (he : e ∈ front ++ back)
    (hclean : ∀ p, m.view (idAt Page.format s e.page) = some p → p.Evictable) : (s.objects e.page).Evictable := by
  have hM := h.refines.cached e he
  have hview := h.view (idAt Page.format s e.page)
  rw [hM] at hview
  generalize ho : m.view (idAt Page.format s e.page) = o at hview
  cases hview with
  | some hagain => exact hagain.evictable (hclean _ ho) (h.refines.good hM).1

/-- When all but the first page can be written, the working set may begin again. -/
theorem narrow (h : Parts V H m s (e :: front) back M) (hid : idAt Page.format s e.page ∈ W)
    (hclean : m.CleanBut {idAt Page.format s e.page}) :
    Parts W [(idAt Page.format s e.page, e.page)] m s [e] (front ++ back) M := by
  refine ⟨h.refines, ?_, fun e' he' => ?_, ?_, h.view⟩
  · rintro e' he'
    rwa [List.mem_singleton.mp he']
  · apply h.evictable (List.mem_cons_of_mem _ he')
    intro p hp
    apply hclean _ p _ hp
    have hnodup : (idAt Page.format s e.page :: PageCache.ids Page.format s (front ++ back)).Nodup := h.refines.ids
    intro heq
    exact (List.nodup_cons.mp hnodup).1 (heq ▸ mem_ids.mpr ⟨e', he', rfl⟩)
  · rintro r hr
    exact ⟨e, List.mem_singleton_self e, (List.mem_singleton.mp hr).symm⟩

end Parts

theorem Works.retrieve (h : Works c V H m s) (hid : id ∈ V) (hp : m.view id = some p) : ∃ page s' front back M',
    retrievePage Page.format none p.type id s = .ok page s' ∧ s'.capacity = s.capacity ∧ s'.numBlocks = s.numBlocks ∧
      idAt Page.format s' page = id ∧ Parts V ((id, page) :: H) m s' (⟨s.nextIt, page⟩ :: front) back M' := by
  obtain ⟨front, back, M, hparts⟩ := h.parts
  have href := hparts.refines
  obtain ⟨q, hq, hagain⟩ : ∃ q, M id = some q ∧ Again p q := by
    have hview := hparts.view id
    rw [hp] at hview
    generalize M id = o at hview
    cases hview with
    | some hagain => exact ⟨_, rfl, hagain⟩
  have hpid : q.pageID = id := (href.good hq).2.1
  have hlen := length_toFront_le href.toLinked hparts.working hid
  have hcap : V.card ≤ s.capacity := h.capacity ▸ h.fits
  have hdrop : id ∉ ids Page.format s (front ++ back) → Droppable Page.format Basic Again
      (inserted Page.format q (used s)) (toFront Page.format s.nextObject id s (front ++ back)) := by
    intro _
    rw [toFront_append]
    refine droppable_of_front (hlen.trans hcap) fun e he => ?_
    have hmem := (List.mem_filter.mp he).1
    have hobject : (inserted Page.format q (used s)).objects e.page = s.objects e.page :=
      Function.update_of_ne (href.page_lt e (List.mem_append_right _ hmem)).ne ..
    rw [hobject]
    exact hparts.resting e hmem
  obtain ⟨page, s', es', M', hrun, hf, hfade⟩ := href.retrievePage_of_droppable (h.capacity ▸ h.pos) hq hdrop
  have hpage : idAt Page.format s' page = id := (congrArg Page.pageID hf.object).trans hpid
  have hat : ∀ e ∈ front ++ back, idAt Page.format s' e.page = idAt Page.format s e.page := fun e he =>
    congrArg Page.pageID (hf.kept e he)
  have horder := hf.order
  rw [toFront_append, take_front (hlen.trans hcap)] at horder
  rw [show Page.format.type q = p.type from hagain.type_eq] at hrun
  refine ⟨page, s', _, _, M', hrun, hf.returned.capacity, hf.numBlocks, hpage, horder ▸ hf.refines, fun e he => ?_,
    fun e he => ?_, fun r hr => ?_, view_faded hparts.view hfade⟩
  · rcases List.mem_cons.mp he with rfl | he
    · rw [hpage]
      exact hid
    · have hmem := (List.mem_filter.mp he).1
      rw [hat e (List.mem_append_left _ hmem)]
      exact hparts.working e hmem
  · have hmem := (List.mem_filter.mp (List.mem_of_mem_take he)).1
    rw [hf.kept e (List.mem_append_right _ hmem)]
    exact hparts.resting e hmem
  · rcases List.mem_cons.mp hr with rfl | hr
    · exact ⟨_, List.mem_cons_self .., by rw [hpage]⟩
    obtain ⟨e, he, rfl⟩ := hparts.held r hr
    have hmem := List.mem_append_left back he
    by_cases heq : idAt Page.format s e.page = id
    · refine ⟨_, List.mem_cons_self .., ?_⟩
      rw [hpage, heq, hf.same e hmem heq]
    · exact ⟨e, List.mem_cons_of_mem _ (List.mem_filter.mpr ⟨he, decide_eq_true heq⟩), by rw [hat e hmem]⟩

theorem view_update (h : ∀ id, Option.Rel Again (m.view id) (M id)) (hagain : Again p q) (id : ℕ) (x : ℕ) :
    Option.Rel Again ((m.set id p).view x) (Function.update M id (some q) x) := by
  by_cases hx : x = id
  · subst hx
    rw [Mem.set_self, Function.update_self]
    exact .some hagain
  · rw [Mem.set_of_ne hx, Function.update_of_ne hx]
    exact h x

theorem fsm_set (h : ∀ id p, m.view id = some (.fsm p) → id ∈ bitmaps) (hp : ∀ b, p = .fsm b → id ∈ bitmaps) (x : ℕ)
    (b : FSMPage) (hx : (m.set id p).view x = some (.fsm b)) : x ∈ bitmaps := by
  by_cases hxid : x = id
  · subst hxid
    rw [Mem.set_self, Option.some.injEq] at hx
    exact hp b hx
  · rw [Mem.set_of_ne hxid] at hx
    exact h x b hx

namespace Works

theorem insertPage (h : Works c V H m s) (hp : p.Basic) (hid : p.pageID ∈ V) (hlt : p.pageID < m.blocks)
    (hfsm : ∀ b, p = .fsm b → p.pageID ∈ bitmaps) (hH : ∀ r ∈ H, r.1 ≠ p.pageID) : ∃ s',
      PageCache.insertPage Page.format none p s = .ok () s' ∧ Works c V H (m.set p.pageID p) s' := by
  obtain ⟨front, back, M, hparts⟩ := h.parts
  have href := hparts.refines
  have hlen := length_toFront_le href.toLinked hparts.working hid
  have hcap : V.card ≤ s.capacity := h.capacity ▸ h.fits
  have hobject : ∀ e ∈ front ++ back, (inserted Page.format p s).objects e.page = s.objects e.page := fun e he =>
    Function.update_of_ne (href.page_lt e he).ne ..
  have hdrop : Droppable Page.format Basic Again (inserted Page.format p s)
      (toFront Page.format s.nextObject (Page.format.pageID p) s (front ++ back)) := by
    rw [toFront_append]
    refine droppable_of_front (hlen.trans hcap) fun e he => ?_
    have hmem := (List.mem_filter.mp he).1
    rw [hobject e (List.mem_append_right _ hmem)]
    exact hparts.resting e hmem
  obtain ⟨s', es', M', hrun, hev, href', hfade⟩ := href.insertPage_of_droppable hp (h.blocks ▸ hlt) hdrop
  have horder := hev.take
  rw [toFront_append, take_front (hlen.trans hcap)] at horder
  have hself : idAt Page.format s' s.nextObject = p.pageID := by
    rw [idAt, hev.objects]
    exact congrArg Page.pageID (Function.update_self ..)
  have hkept : ∀ e ∈ front ++ back, s'.objects e.page = s.objects e.page := fun e he => by
    rw [hev.objects, hobject e he]
  have hat : ∀ e ∈ front ++ back, idAt Page.format s' e.page = idAt Page.format s e.page := fun e he =>
    congrArg Page.pageID (hkept e he)
  refine ⟨s', hrun, hev.capacity.trans h.capacity, h.fits, h.pos, h.blocks.trans hev.numBlocks.symm, h.blocks_eq,
    fsm_set h.fsm hfsm, _, _, M', horder ▸ href', fun e he => ?_, fun e he => ?_, fun r hr => ?_,
    view_faded (view_update hparts.view (Page.again_refl p) _) hfade⟩
  · rcases List.mem_cons.mp he with rfl | he
    · rw [hself]
      exact hid
    · have hmem := (List.mem_filter.mp he).1
      rw [hat e (List.mem_append_left _ hmem)]
      exact hparts.working e hmem
  · have hmem := (List.mem_filter.mp (List.mem_of_mem_take he)).1
    rw [hkept e (List.mem_append_right _ hmem)]
    exact hparts.resting e hmem
  · obtain ⟨e, he, rfl⟩ := hparts.held r hr
    have hne := hH _ hr
    refine ⟨e, List.mem_cons_of_mem _ (List.mem_filter.mpr ⟨he, decide_eq_true hne⟩), ?_⟩
    rw [hat e (List.mem_append_left _ he)]

theorem store (h : Works c V H m s) (hmem : (id, page) ∈ H) {p' q' : Page} (hagain : Again p' q') (hq' : q'.Basic)
    (hid : q'.pageID = id) (hfsm : ∀ b, p' = .fsm b → id ∈ bitmaps) :
    Works c V H (m.set id p') (PageCache.store page q' s) := by
  obtain ⟨front, back, M, hparts⟩ := h.parts
  obtain ⟨e, he, heq⟩ := hparts.held _ hmem
  rw [Prod.mk.injEq] at heq
  obtain ⟨rfl, rfl⟩ := heq
  have he' := List.mem_append_left back he
  have hat := idAt_store (F := Page.format) (s := s) hid
  refine ⟨h.capacity, h.fits, h.pos, h.blocks, h.blocks_eq, fsm_set h.fsm hfsm, front, back, _,
    hparts.refines.store he' hq' hid, fun e₁ he₁ => ?_, fun e₁ he₁ => ?_, fun r hr => ?_,
    view_update hparts.view hagain _⟩
  · rw [hat]
    exact hparts.working e₁ he₁
  · have hne : e₁.page ≠ e.page := by
      intro heq
      have hpages := hparts.refines.pages
      rw [List.map_append, List.nodup_append] at hpages
      exact hpages.2.2 _ (List.mem_map_of_mem he) _ (List.mem_map_of_mem he₁) heq.symm
    rw [show (PageCache.store e.page q' s).objects e₁.page = s.objects e₁.page from Function.update_of_ne hne ..]
    exact hparts.resting e₁ he₁
  · obtain ⟨e₁, he₁, rfl⟩ := hparts.held r hr
    exact ⟨e₁, he₁, by rw [hat]⟩

theorem grow (h : Works c V H m s) (hblocks : m.blocks / FSMPage.getBlocksInPage ≠ MAX_FSMPAGES) :
    Works c V H { m with blocks := m.blocks + FSMPage.getBlocksInPage }
      { s with numBlocks := s.numBlocks + FSMPage.getBlocksInPage } := by
  obtain ⟨front, back, M, hparts⟩ := h.parts
  have href := hparts.refines
  refine ⟨h.capacity, h.fits, h.pos, congrArg (· + FSMPage.getBlocksInPage) h.blocks, ?_, h.fsm, front, back, M,
    ⟨⟨?_, href.cached, fun hp => ?_, href.stored⟩, href.size⟩, hparts.working, hparts.resting, hparts.held, hparts.view⟩
  · obtain ⟨N, hN, hm⟩ := h.blocks_eq
    rw [hm, Nat.mul_div_cancel _ FreeSpaceMap.getBlocksInPage_pos] at hblocks
    exact ⟨N + 1, Nat.succ_le_of_lt (hN.lt_of_ne hblocks), by rw [hm, Nat.succ_mul]⟩
  · exact href.toLinked.congr rfl rfl rfl le_rfl fun _ _ => rfl
  · obtain ⟨hgood, hpid, hlt⟩ := href.good hp
    exact ⟨hgood, hpid, Nat.lt_add_right _ hlt⟩

theorem mono (h : Works c V H m s) (hV : V ⊆ W) (hW : W.card ≤ c) (hH : ∀ r ∈ H', r ∈ H) : Works c W H' m s := by
  obtain ⟨front, back, M, hparts⟩ := h.parts
  exact ⟨h.capacity, hW, h.pos, h.blocks, h.blocks_eq, h.fsm, front, back, M, hparts.refines,
    fun e he => hV (hparts.working e he), hparts.resting, fun r hr => hparts.held r (hH r hr), hparts.view⟩

theorem forget (h : Works c V H m s) (hH : ∀ r ∈ H', r ∈ H) : Works c V H' m s := h.mono subset_rfl h.fits hH

theorem extend (h : Works c V H m s) (hV : V ⊆ W) (hW : W.card ≤ c) : Works c W H m s := h.mono hV hW fun _ hr => hr

theorem exists_again (h : Works c V H m s) (hp : m.view id = some p) : ∃ q, Again p q ∧ q.Basic ∧ id < m.blocks := by
  obtain ⟨front, back, M, hparts⟩ := h.parts
  have hview := hparts.view id
  rw [hp] at hview
  generalize hM : M id = o at hview
  cases hview with
  | @some p q hagain =>
    obtain ⟨hbasic, -, hlt⟩ := hparts.refines.good hM
    exact ⟨q, hagain, hbasic, h.blocks ▸ hlt⟩

theorem parentID_lt (h : Works c V H m s) {n : BtreeNodePage Tuple} (hn : m.view id = some (.node n)) :
    n.parentID < 2 ^ 32 := by
  obtain ⟨q, hagain, hbasic, -⟩ := h.exists_again hn
  obtain rfl : Page.node n = q := hagain
  exact hbasic

theorem cleanBut (h : Works c V H m s) {S : Set ℕ} (hlast : m.LastBut S) : m.CleanBut S := by
  intro x p hx hp
  obtain ⟨-, -, -, hlt⟩ := h.exists_again hp
  refine (hlast x p hx hlt hp).evictable fun n hn => ?_
  subst hn
  exact h.parentID_lt hp

/-- When all pages can be written, the working set may begin again. -/
theorem rest (h : Works c V H m s) (hclean : m.CleanBut ∅) : Works c ∅ [] m s := by
  obtain ⟨front, back, M, hparts⟩ := h.parts
  refine ⟨h.capacity, Nat.zero_le _, h.pos, h.blocks, h.blocks_eq, h.fsm, [], front ++ back, M, hparts.refines, nofun,
    fun e he => hparts.evictable he fun p hp => ?_, nofun, hparts.view⟩
  exact hclean _ p (Set.notMem_empty _) hp

theorem object (h : Works c V H m s) (hmem : (id, page) ∈ H) : id ∈ V ∧ ∃ p, m.view id = some p ∧
    Again p (s.objects page) ∧ (s.objects page).Basic ∧ (s.objects page).pageID = id ∧ id < m.blocks := by
  obtain ⟨front, back, M, hparts⟩ := h.parts
  obtain ⟨e, he, heq⟩ := hparts.held _ hmem
  rw [Prod.mk.injEq] at heq
  obtain ⟨rfl, rfl⟩ := heq
  refine ⟨hparts.working e he, ?_⟩
  have hM := hparts.refines.cached e (List.mem_append_left _ he)
  obtain ⟨hgood, -, hlt⟩ := hparts.refines.good hM
  have hview := hparts.view (idAt Page.format s e.page)
  rw [hM] at hview
  generalize m.view (idAt Page.format s e.page) = o at hview
  cases hview with
  | some hagain => exact ⟨_, rfl, hagain, hgood, rfl, h.blocks ▸ hlt⟩

theorem blocks_le (h : Works c V H m s) : m.blocks ≤ 2 ^ 32 := by
  obtain ⟨N, hN, hm⟩ := h.blocks_eq
  rw [hm]
  exact (Nat.mul_le_mul_right _ hN).trans (by decide)

end Works

variable {numBlocks capacity : ℕ} {blocks : ℕ → Block} {objects : ℕ → Page} {junk : ℕ → Junk} {order : List ℕ}

theorem works_of_stored (hcap : capacity ≠ 0) (hblocks : ∃ N, N ≤ MAX_FSMPAGES ∧ m.blocks = N * FSMPage.getBlocksInPage)
    (hfsm : ∀ id p, m.view id = some (.fsm p) → id ∈ bitmaps)
    (hstored : ∀ id, ∃ o, Option.Rel Again (m.view id) o ∧ ∀ q, o = some q → q.Basic ∧ q.pageID = id ∧ id < m.blocks ∧
      Stored Page.format Again (blocks id) q) :
    Works capacity ∅ [] m (new capacity m.blocks blocks objects junk) := by
  choose M hview hM using hstored
  refine ⟨rfl, Nat.zero_le _, hcap, rfl, hblocks, hfsm, [], [], M, ⟨⟨⟨linked_new .., nofun, fun {id p} hp => ?_,
    fun {id p} _ hp => ?_⟩, Nat.zero_le _⟩, nofun, nofun, nofun, hview⟩⟩
  · obtain ⟨hbasic, hpid, hlt, -⟩ := hM id p hp
    exact ⟨hbasic, hpid, hlt⟩
  · exact (hM id p hp).2.2.2

theorem stored_of_toBytes {J : Junk} {b : Block} (hp : p.Evictable) (hb : Page.format.toBytes J p = some b) :
    ∃ q, Again p q ∧ q.Evictable ∧ Stored Page.format Again b q := by
  obtain ⟨b', hb', q, hagain, hq, hread⟩ := Page.format_recovers_evictable J p hp
  obtain rfl : b = b' := Option.some.inj (hb.symm.trans hb')
  refine ⟨q, hagain, hq, fun J' => ?_, J, p, hagain, hb⟩
  rw [show Page.format.type q = p.type from Page.Again.type_eq hagain,
    show Page.format.pageID q = p.pageID from Page.Again.pageID_eq hagain]
  exact hread J'

/-- When all pages can be written, the destructor writes them, and a new cache of the file stands for the same. -/
theorem Works.flush (h : Works c V H m s) (hclean : m.CleanBut ∅) (hn : order.Nodup)
    (horder : ∀ id, id ∈ order ↔ (s.map id).isSome = true) : ∃ s₁, PageCache.flush Page.format order s = .ok () s₁ ∧
      ∀ capacity objects junk, capacity ≠ 0 →
        Works capacity ∅ [] m (new capacity s₁.numBlocks s₁.blocks objects junk) := by
  obtain ⟨front, back, M, hparts⟩ := h.parts
  have hM : ∀ {id p}, M id = some p → p.Evictable := by
    intro id p hp
    have hview := hparts.view id
    rw [hp] at hview
    generalize ho : m.view id = o at hview
    cases hview with
    | some hagain => exact hagain.evictable (hclean id _ (Set.notMem_empty id) ho) (hparts.refines.good hp).1
  have href : Refines Page.format Evictable Again s (front ++ back) M :=
    ⟨⟨hparts.refines.toLinked, hparts.refines.cached, fun hp => ⟨hM hp, (hparts.refines.good hp).2⟩,
      hparts.refines.stored⟩, hparts.refines.size⟩
  have hcached : ∀ id, id ∈ order ↔ id ∈ PageCache.ids Page.format s (front ++ back) := fun id =>
    (horder id).trans href.toLinked.map_isSome_iff
  obtain ⟨s₁, hrun, -, hnum, hother, hwritten⟩ :=
    href.flush Page.format_recovers_evictable hn fun id => (hcached id).mp
  refine ⟨s₁, hrun, fun capacity objects junk hcap => ?_⟩
  rw [hnum, ← h.blocks]
  refine works_of_stored hcap h.blocks_eq h.fsm fun id => ?_
  have hview := hparts.view id
  cases hp : M id with
  | none => exact ⟨none, hp ▸ hview, nofun⟩
  | some p =>
    obtain ⟨hpid, hlt⟩ := (href.good hp).2
    rw [hp] at hview
    rw [← h.blocks] at hlt
    by_cases hid : id ∈ order
    · obtain ⟨J, hb⟩ := hwritten id hid p hp
      obtain ⟨q, hagain, hq, hstored⟩ := stored_of_toBytes (hM hp) hb
      refine ⟨some q, ?_, fun r hr => ?_⟩
      · generalize m.view id = o at hview
        cases hview with
        | some hpp => exact .some (hpp.trans hagain)
      · obtain rfl := Option.some.inj hr
        exact ⟨hq.basic, hagain.pageID_eq.trans hpid, hlt, hstored⟩
    · refine ⟨some p, hview, fun r hr => ?_⟩
      obtain rfl := Option.some.inj hr
      refine ⟨(hM hp).basic, hpid, hlt, ?_⟩
      rw [hother id hid]
      exact href.stored ((hcached id).not.mp hid) hp

end PageCache
end Kndb
