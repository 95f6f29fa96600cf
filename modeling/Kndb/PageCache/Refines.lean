import Kndb.PageCache.Recent

namespace Kndb.PageCache

open Imp Imp.Prog

variable {P B : Type} {F : PageFormat P B} {Good : P → Prop} {Again : P → P → Prop}
variable {s s' t : PageCache P B} {es es' : List Entry} {e : Entry} {id page : ℕ} {p q : P} {b : B}
variable {M M' : ℕ → Option P}

/-- The block holds a page that is read back as `p`. -/
structure Stored (F : PageFormat P B) (Again : P → P → Prop) (b : B) (p : P) : Prop where
  ofBytes : ∀ J, F.ofBytes J (F.type p) (F.pageID p) b = some p
  toBytes : ∃ J p₀, Again p₀ p ∧ F.toBytes J p₀ = some b

/-- `Refines` but for the number of pages. -/
structure Sees (F : PageFormat P B) (Good : P → Prop) (Again : P → P → Prop) (s : PageCache P B)
    (es : List Entry) (M : ℕ → Option P) : Prop extends Linked F s es where
  cached : ∀ e ∈ es, M (idAt F s e.page) = some (s.objects e.page)
  good : ∀ {id p}, M id = some p → Good p ∧ F.pageID p = id ∧ id < s.numBlocks
  stored : ∀ {id p}, id ∉ PageCache.ids F s es → M id = some p → Stored F Again (s.blocks id) p

structure Refines (F : PageFormat P B) (Good : P → Prop) (Again : P → P → Prop) (s : PageCache P B)
    (es : List Entry) (M : ℕ → Option P) : Prop extends Sees F Good Again s es M where
  size : es.length ≤ s.capacity

theorem Refines.coherent (h : Refines F Good Again s es M) : Coherent F s es := ⟨h.toLinked, h.size⟩

/-- Pages of the map that have left the cache are those that will be read back. -/
def Faded (Again : P → P → Prop) (M M' : ℕ → Option P) : Prop :=
  ∀ id, M' id = M id ∨ ∃ p q, M id = some p ∧ M' id = some q ∧ Again p q

theorem Faded.refl (M : ℕ → Option P) : Faded Again M M := fun _ => .inl rfl

theorem Faded.eq (h : Faded Eq M M') : M' = M := by
  funext id
  obtain hid | ⟨p, q, hp, hq, rfl⟩ := h id
  · exact hid
  · rw [hp, hq]

theorem refines_new (capacity numBlocks : ℕ) (blocks : ℕ → B) (objects : ℕ → P) (junk : ℕ → Junk) :
    Refines F Good Again (new capacity numBlocks blocks objects junk) [] fun _ => none :=
  ⟨⟨linked_new .., by simp, by simp, by simp⟩, Nat.zero_le _⟩

theorem Sees.not_overfull (h : Sees F Good Again t es M) : ¬Overfull F none t es := by
  rintro ⟨-, init, l, rfl, hout⟩
  exact refused_iff.mp hout ⟨(h.good (h.cached l (by simp))).2.2, rfl⟩

/-- The last page can leave the list if there are too many. -/
def Droppable (F : PageFormat P B) (Good : P → Prop) (Again : P → P → Prop) (t : PageCache P B)
    (es : List Entry) : Prop :=
  ∀ init l, es = init ++ [l] → t.capacity < es.length → F.RecoversAt Good Again (t.objects l.page)

theorem Sees.droppable (hF : F.Recovers Good Again) (h : Sees F Good Again t es M) :
    Droppable F Good Again t es := by
  rintro init l rfl - J
  exact hF J _ (h.good (h.cached l (by simp))).1

theorem Droppable.not_unwritable (h : Droppable F Good Again t es) : ¬Unwritable F t es := by
  rintro ⟨hfull, init, l, hl, hnone⟩
  obtain ⟨b, hb, -⟩ := h init l hl hfull (t.junk t.uses)
  rw [hb] at hnone
  cases hnone

theorem Evicted.refines (hdrop : Droppable F Good Again t es) (h : Evicted F t es s' es')
    (ht : Sees F Good Again t es M) : ∃ M', Refines F Good Again s' es' M' ∧ Faded Again M M' := by
  have hat : idAt F s' = idAt F t := by
    funext x
    rw [idAt, idAt, h.objects]
  have hids : ∀ l : List Entry, ids F s' l = ids F t l := fun l => by rw [ids, ids, hat]
  obtain ⟨rfl, hblocks⟩ | ⟨l, b, J, rfl, hfull, hb, hlt, hblocks⟩ := h.blocks
  · refine ⟨M, ⟨⟨h.linked, fun e he => ?_, fun hp => ?_, fun hid hp => ?_⟩, h.coherent.size⟩, .refl M⟩
    · rw [hat, h.objects, ht.cached e he]
    · rw [h.numBlocks]
      exact ht.good hp
    · rw [hids] at hid
      rw [hblocks]
      exact ht.stored hid hp
  · have hl := ht.cached l (by simp)
    obtain ⟨b', hb', q, hagain, hq, hread⟩ := hdrop es' l rfl hfull J
    obtain rfl : b' = b := Option.some.inj (hb'.symm.trans hb)
    have hqid : F.pageID q = idAt F t l.page := F.pageID_ofBytes (hread J)
    have hqtype : F.type q = F.type (t.objects l.page) := F.type_ofBytes (hread J)
    have hnodup := ht.ids
    rw [PageCache.ids, List.map_append, List.nodup_append] at hnodup
    have hne : ∀ e ∈ es', idAt F t e.page ≠ idAt F t l.page := fun e he =>
      hnodup.2.2 _ (List.mem_map.mpr ⟨e, he, rfl⟩) _ (List.mem_map.mpr ⟨l, by simp, rfl⟩)
    -- from now on the abstract page is the one that its block is read back as
    refine ⟨Function.update M (idAt F t l.page) (some q), ⟨⟨h.linked, fun e he => ?_, fun {id p} hp => ?_,
      fun {id p} hid hp => ?_⟩, h.coherent.size⟩, fun id => ?_⟩
    · rw [hat, h.objects, Function.update_of_ne (hne e he), ht.cached e (List.mem_append_left _ he)]
    · rw [h.numBlocks]
      by_cases hid : id = idAt F t l.page
      · subst hid
        rw [Function.update_self, Option.some.injEq] at hp
        subst hp
        exact ⟨hq, hqid, hlt⟩
      · rw [Function.update_of_ne hid] at hp
        exact ht.good hp
    · rw [hblocks]
      by_cases hl' : id = idAt F t l.page
      · subst hl'
        rw [Function.update_self, Option.some.injEq] at hp
        subst hp
        rw [Function.update_self]
        refine ⟨fun J' => ?_, J, _, hagain, hb⟩
        rw [hqtype, hqid]
        exact hread J'
      · rw [Function.update_of_ne hl'] at hp ⊢
        refine ht.stored (fun hin => hid ?_) hp
        rw [hids]
        obtain ⟨e, he, rfl⟩ := mem_ids.mp hin
        rcases List.mem_append.mp he with he | he
        · exact mem_ids.mpr ⟨e, he, rfl⟩
        · rw [List.mem_singleton.mp he] at hl'
          exact absurd rfl hl'
    · by_cases hid : id = idAt F t l.page
      · subst hid
        exact .inr ⟨_, q, hl, Function.update_self .., hagain⟩
      · exact .inl (Function.update_of_ne hid ..)

theorem Sees.inserted (h : Sees F Good Again s es M) (hp : Good p) (hlt : F.pageID p < s.numBlocks) :
    Sees F Good Again (inserted F p s) (toFront F s.nextObject (F.pageID p) s es)
      (Function.update M (F.pageID p) (some p)) := by
  have hlinked := h.toLinked.inserted p
  have hobjects : ∀ e ∈ es, (PageCache.inserted F p s).objects e.page = s.objects e.page :=
    fun e he => Function.update_of_ne (h.page_lt e he).ne ..
  have hself : (PageCache.inserted F p s).objects s.nextObject = p := Function.update_self ..
  have hat : ∀ e ∈ es, idAt F (PageCache.inserted F p s) e.page = idAt F s e.page :=
    fun e he => congrArg F.pageID (hobjects e he)
  have hids := ids_toFront (t := PageCache.inserted F p s) (idAt_placed p s) hat
  refine ⟨hlinked, fun e he => ?_, fun {id q} hq => ?_, fun {id q} hid hq => ?_⟩
  · rcases List.mem_cons.mp he with rfl | he
    · rw [hself, show idAt F (PageCache.inserted F p s) s.nextObject = F.pageID p from idAt_placed p s,
        Function.update_self]
    · obtain ⟨hmem, hne⟩ := List.mem_filter.mp he
      rw [hat e hmem, hobjects e hmem, Function.update_of_ne (of_decide_eq_true hne), h.cached e hmem]
  · by_cases hid : id = F.pageID p
    · subst hid
      rw [Function.update_self, Option.some.injEq] at hq
      subst hq
      exact ⟨hp, rfl, hlt⟩
    · rw [Function.update_of_ne hid] at hq
      exact h.good hq
  · rw [hids, Recency.touch, List.mem_cons, not_or, List.mem_filter] at hid
    rw [Function.update_of_ne hid.1] at hq
    exact h.stored (fun hin => hid.2 ⟨hin, decide_eq_true hid.1⟩) hq

theorem Refines.insertPage_of_droppable (h : Refines F Good Again s es M) (hp : Good p)
    (hlt : F.pageID p < s.numBlocks)
    (hdrop : Droppable F Good Again (inserted F p s) (toFront F s.nextObject (F.pageID p) s es)) :
    ∃ s' es' M', insertPage F none p s = .ok () s' ∧
      Evicted F (inserted F p s) (toFront F s.nextObject (F.pageID p) s es) s' es' ∧
      Refines F Good Again s' es' M' ∧ Faded Again (Function.update M (F.pageID p) (some p)) M' := by
  have hins := h.toSees.inserted hp hlt
  obtain ⟨_, s', hrun, es', hev⟩ := ok_of_wp (wp_mono (wp_insertPage h.toLinked h.size p)
    (fun _ _ hq => hq) (fun _ _ hr => hins.not_overfull hr.1) fun _ hx => hdrop.not_unwritable hx.2)
  obtain ⟨M', hM', hfade⟩ := hev.refines hdrop hins
  exact ⟨s', es', M', hrun, hev, hM', hfade⟩

theorem Refines.insertPage (hF : F.Recovers Good Again) (h : Refines F Good Again s es M) (hp : Good p)
    (hlt : F.pageID p < s.numBlocks) : ∃ s' es' M', insertPage F none p s = .ok () s' ∧
      Evicted F (inserted F p s) (toFront F s.nextObject (F.pageID p) s es) s' es' ∧
      Refines F Good Again s' es' M' ∧ Faded Again (Function.update M (F.pageID p) (some p)) M' :=
  h.insertPage_of_droppable hp hlt ((h.toSees.inserted hp hlt).droppable hF)

theorem Sees.touched (h : Sees F Good Again s es M) (he : e ∈ es) :
    Sees F Good Again (touched F e s) (toFront F e.page (idAt F s e.page) s es) M := by
  have hids := ids_toFront (s := s) (t := PageCache.touched F e s) (rfl : idAt F s e.page = _)
    fun e' (_ : e' ∈ es) => rfl
  refine ⟨h.toLinked.touched he, fun e' he' => ?_, h.good, fun {id q} hid hq => ?_⟩
  · rcases List.mem_cons.mp he' with rfl | he'
    · exact h.cached e he
    · exact h.cached e' (List.mem_filter.mp he').1
  · rw [hids, Recency.touch, List.mem_cons, not_or, List.mem_filter] at hid
    exact h.stored (fun hin => hid.2 ⟨hin, decide_eq_true hid.1⟩) hq

theorem Refines.touched (h : Refines F Good Again s es M) (he : e ∈ es) :
    Refines F Good Again (touched F e s) (toFront F e.page (idAt F s e.page) s es) M :=
  ⟨h.toSees.touched he, (Linked.toFront_length he).trans h.size⟩

theorem Sees.used (h : Sees F Good Again s es M) : Sees F Good Again (used s) es M :=
  ⟨h.toLinked.congr rfl rfl rfl le_rfl fun _ _ => rfl, h.cached, h.good, h.stored⟩

theorem Refines.retrieve_miss_of_droppable {T : PageType} (h : Refines F Good Again s es M)
    (hcap : s.capacity ≠ 0) (hid : id ∉ ids F s es) (hlt : id < s.numBlocks) (hp : Good p)
    (hread : F.ofBytes (s.junk s.uses) T id (s.blocks id) = some p)
    (hdrop : Droppable F Good Again (inserted F p (PageCache.used s)) (toFront F s.nextObject id s es)) :
    ∃ s' es' M', retrievePage F none T id s = .ok s.nextObject s' ∧
      Evicted F (inserted F p (PageCache.used s)) (toFront F s.nextObject id s es) s' es' ∧
      Refines F Good Again s' es' M' ∧ Faded Again (Function.update M id (some p)) M' := by
  have hpid := F.pageID_ofBytes hread
  have hins := h.toSees.used.inserted hp (hpid ▸ hlt)
  rw [hpid] at hins
  have hwp : (PageCache.retrievePage F none T id).wp s (fun page s' => page = s.nextObject ∧
      ∃ es', Evicted F (PageCache.inserted F p (PageCache.used s)) (toFront F s.nextObject id s es) s' es')
      (fun _ _ => False) fun _ => False := by
    refine wp_mono (wp_retrievePage_miss h.toLinked h.size hid T) ?_ ?_ ?_
    · rintro page s' ⟨-, hpage, -, p', hp', hev⟩
      obtain rfl : p = p' := Option.some.inj (hread.symm.trans hp')
      exact ⟨hpage, hev⟩
    · rintro ex s' (⟨hle, -⟩ | ⟨-, p', hp', hover, -⟩)
      · exact absurd hlt hle.not_gt
      · obtain rfl : p = p' := Option.some.inj (hread.symm.trans hp')
        exact hins.not_overfull hover
    · rintro x ⟨-, -, hnone | ⟨p', hp', hzero | hun⟩⟩
      · rw [hread] at hnone
        cases hnone
      · exact hcap hzero
      · obtain rfl : p = p' := Option.some.inj (hread.symm.trans hp')
        exact hdrop.not_unwritable hun
  obtain ⟨page, s', hrun, rfl, es', hev⟩ := ok_of_wp hwp
  obtain ⟨M', hM', hfade⟩ := hev.refines hdrop hins
  exact ⟨s', es', M', hrun, hev, hM', hfade⟩

theorem Refines.retrieve_miss {T : PageType} (hF : F.Recovers Good Again)
    (h : Refines F Good Again s es M) (hcap : s.capacity ≠ 0) (hid : id ∉ ids F s es)
    (hlt : id < s.numBlocks) (hp : Good p)
    (hread : F.ofBytes (s.junk s.uses) T id (s.blocks id) = some p) : ∃ s' es' M',
      retrievePage F none T id s = .ok s.nextObject s' ∧
      Evicted F (inserted F p (PageCache.used s)) (toFront F s.nextObject id s es) s' es' ∧
      Refines F Good Again s' es' M' ∧ Faded Again (Function.update M id (some p)) M' := by
  have hpid := F.pageID_ofBytes hread
  have hins := h.toSees.used.inserted hp (hpid ▸ hlt)
  rw [hpid] at hins
  exact h.retrieve_miss_of_droppable hcap hid hlt hp hread (hins.droppable hF)

/-- What `retrievePage` returns is in front of the list. -/
structure Fetched (F : PageFormat P B) (Good : P → Prop) (Again : P → P → Prop) (s : PageCache P B)
    (es : List Entry) (id : ℕ) (p : P) (page : ℕ) (s' : PageCache P B) (es' : List Entry)
    (M' : ℕ → Option P) : Prop where
  refines : Refines F Good Again s' es' M'
  object : s'.objects page = p
  order : es' = (toFront F page id s es).take s.capacity
  returned : Returned F s es [id] s' es'
  same : ∀ e ∈ es, idAt F s e.page = id → page = e.page
  numBlocks : s'.numBlocks = s.numBlocks
  kept : ∀ e ∈ es, s'.objects e.page = s.objects e.page

theorem Fetched.front (h : Fetched F Good Again s es id p page s' es' M') (hcap : s.capacity ≠ 0) :
    ∃ it rest, es' = ⟨it, page⟩ :: rest := by
  obtain ⟨k, hk⟩ := Nat.exists_eq_succ_of_ne_zero hcap
  have horder := h.order
  rw [hk, toFront, List.take_succ_cons] at horder
  exact ⟨s.nextIt, _, horder⟩

theorem Evicted.fetched (h : Refines F Good Again s es M) (hid : id ∉ ids F s es) (hpid : F.pageID p = id)
    (hev : Evicted F (inserted F p (PageCache.used s)) (toFront F s.nextObject id s es) s' es')
    (hM' : Refines F Good Again s' es' M') : Fetched F Good Again s es id p s.nextObject s' es' M' := by
  have hobjects : ∀ e ∈ es, (PageCache.inserted F p (PageCache.used s)).objects e.page = s.objects e.page :=
    fun e he => Function.update_of_ne (h.page_lt e he).ne ..
  have hlinked := h.toSees.used.toLinked.inserted p
  rw [hpid] at hlinked
  refine ⟨hM', ?_, ?_, hev.returned h.coherent hlinked rfl rfl ((idAt_placed p _).trans hpid) hobjects,
    fun e he heq => absurd (mem_ids.mpr ⟨e, he, heq⟩) hid, hev.numBlocks, fun e he => ?_⟩
  · rw [hev.objects]
    exact Function.update_self ..
  · exact hev.take
  · rw [hev.objects, hobjects e he]

theorem Refines.retrievePage_of_droppable (h : Refines F Good Again s es M) (hcap : s.capacity ≠ 0)
    (hp : M id = some p) (hdrop : id ∉ ids F s es →
      Droppable F Good Again (inserted F p (PageCache.used s)) (toFront F s.nextObject id s es)) :
    ∃ page s' es' M', retrievePage F none (F.type p) id s = .ok page s' ∧
      Fetched F Good Again s es id p page s' es' M' ∧ Faded Again M M' := by
  by_cases hid : id ∈ ids F s es
  · obtain ⟨e, he, rfl⟩ := mem_ids.mp hid
    obtain rfl : s.objects e.page = p := Option.some.inj ((h.cached e he).symm.trans hp)
    have hsize : (toFront F e.page (idAt F s e.page) s es).length ≤ s.capacity :=
      (Linked.toFront_length he).trans h.size
    refine ⟨e.page, PageCache.touched F e s, _, M, ?_, ⟨h.touched he, rfl, (List.take_of_length_le hsize).symm,
      h.coherent.touched he, fun e' he' heq => ?_, rfl, fun _ _ => rfl⟩, .refl M⟩
    · rw [retrievePage_hit h.toLinked he h.size, if_pos rfl]
    · rw [h.eq_of_id he' he heq]
  · obtain ⟨hgood, hpid, hlt⟩ := h.good hp
    have hread := (h.stored hid hp).ofBytes (s.junk s.uses)
    rw [hpid] at hread
    obtain ⟨s', es', M', hrun, hev, hM', hfade⟩ :=
      h.retrieve_miss_of_droppable hcap hid hlt hgood hread (hdrop hid)
    rw [← hp, Function.update_eq_self] at hfade
    exact ⟨s.nextObject, s', es', M', hrun, hev.fetched h hid hpid hM', hfade⟩

theorem Refines.retrievePage (hF : F.Recovers Good Again) (h : Refines F Good Again s es M)
    (hcap : s.capacity ≠ 0) (hp : M id = some p) : ∃ page s' es' M',
      retrievePage F none (F.type p) id s = .ok page s' ∧
      Fetched F Good Again s es id p page s' es' M' ∧ Faded Again M M' := by
  obtain ⟨hgood, hpid, hlt⟩ := h.good hp
  have hins := h.toSees.used.inserted hgood (hpid ▸ hlt)
  rw [hpid] at hins
  exact h.retrievePage_of_droppable hcap hp fun _ => hins.droppable hF

theorem Refines.store (h : Refines F Good Again s es M) (he : e ∈ es) (hp : Good p)
    (hid : F.pageID p = idAt F s e.page) : Refines F Good Again (store e.page p s) es
      (Function.update M (idAt F s e.page) (some p)) := by
  have hat := idAt_store (F := F) hid
  have hids : ids F (PageCache.store e.page p s) es = ids F s es :=
    List.map_congr_left fun e' _ => hat e'.page
  refine ⟨⟨(h.coherent.store hid).toLinked, fun e' he' => ?_, fun {id q} hq => ?_, fun {id q} hid' hq => ?_⟩,
    h.size⟩
  · rw [hat]
    by_cases hee : e' = e
    · subst hee
      rw [Function.update_self]
      exact congrArg some (Function.update_self e'.page p s.objects).symm
    · have hne : idAt F s e'.page ≠ idAt F s e.page := fun heq => hee (h.eq_of_id he' he heq)
      have hpage : e'.page ≠ e.page := fun heq => hee (h.eq_of_page he' he heq)
      rw [Function.update_of_ne hne, h.cached e' he']
      exact congrArg some (Function.update_of_ne hpage ..).symm
  · by_cases hq' : id = idAt F s e.page
    · subst hq'
      rw [Function.update_self, Option.some.injEq] at hq
      subst hq
      exact ⟨hp, hid, (h.good (h.cached e he)).2.2⟩
    · rw [Function.update_of_ne hq'] at hq
      exact h.good hq
  · rw [hids] at hid'
    rw [Function.update_of_ne] at hq
    · exact h.stored hid' hq
    · rintro rfl
      exact hid' (mem_ids.mpr ⟨e, he, rfl⟩)

/-- A change through a reference to a page that has left the list is lost. -/
theorem Refines.store_dangling (h : Refines F Good Again s es M) (hpage : ∀ e ∈ es, e.page ≠ page) (p : P) :
    Refines F Good Again (PageCache.store page p s) es M := by
  have hobj : ∀ e ∈ es, (PageCache.store page p s).objects e.page = s.objects e.page :=
    fun e he => Function.update_of_ne (hpage e he) ..
  have hat : ∀ e ∈ es, idAt F (PageCache.store page p s) e.page = idAt F s e.page :=
    fun e he => congrArg F.pageID (hobj e he)
  have hids : ids F (PageCache.store page p s) es = ids F s es := List.map_congr_left hat
  refine ⟨⟨h.toLinked.congr rfl rfl rfl le_rfl hat, fun e he => ?_, h.good, fun {id q} hid hq => ?_⟩, h.size⟩
  · rw [hat e he, hobj e he, h.cached e he]
  · rw [hids] at hid
    exact h.stored hid hq

theorem Refines.written (h : Refines F Good Again s es M) (he : e ∈ es) (b : B) :
    Refines F Good Again (PageCache.written (idAt F s e.page) b s) es M := by
  refine ⟨⟨h.toLinked.congr rfl rfl rfl le_rfl fun _ _ => rfl, h.cached, h.good, fun {id q} hid hq => ?_⟩,
    h.size⟩
  have hne : id ≠ idAt F s e.page := by
    rintro rfl
    exact hid (mem_ids.mpr ⟨e, he, rfl⟩)
  have := h.stored hid hq
  rwa [← Function.update_of_ne hne b s.blocks] at this

theorem Refines.writePage (hF : F.Recovers Good Again) (h : Refines F Good Again s es M) (he : e ∈ es) :
    ∃ b, F.toBytes (s.junk s.uses) (s.objects e.page) = some b ∧
      writePage F none (idAt F s e.page) s = .ok () (PageCache.written (idAt F s e.page) b s) ∧
      Refines F Good Again (PageCache.written (idAt F s e.page) b s) es M := by
  obtain ⟨hgood, -, hlt⟩ := h.good (h.cached e he)
  obtain ⟨_, s', hrun, -, -, b, hb, rfl⟩ := ok_of_wp (wp_mono (wp_writePage h.toLinked he)
    (fun _ _ hq => hq) (fun _ _ hr => absurd ⟨hlt, rfl⟩ (refused_iff.mp hr.1)) fun x hx => by
      obtain ⟨b, hb, -⟩ := hF (s.junk s.uses) _ hgood
      rw [hx.2] at hb
      cases hb)
  exact ⟨b, hb, hrun, h.written he b⟩

/-- The destructor writes the pages of the list, in any order. -/
theorem Refines.flush (hF : F.Recovers Good Again) (h : Refines F Good Again s es M) {order : List ℕ}
    (hn : order.Nodup) (horder : ∀ id ∈ order, id ∈ ids F s es) : ∃ s', flush F order s = .ok () s' ∧
      Refines F Good Again s' es M ∧ s'.numBlocks = s.numBlocks ∧
      (∀ id, id ∉ order → s'.blocks id = s.blocks id) ∧
      ∀ id ∈ order, ∀ p, M id = some p → ∃ J, F.toBytes J p = some (s'.blocks id) := by
  induction order generalizing s with
  | nil => exact ⟨s, rfl, h, rfl, fun _ _ => rfl, fun id hid => absurd hid List.not_mem_nil⟩
  | cons id order ih =>
    obtain ⟨hnot, hnodup⟩ := List.nodup_cons.mp hn
    obtain ⟨e, he, rfl⟩ := mem_ids.mp (horder id (List.mem_cons_self ..))
    obtain ⟨b, hb, hrun, hw⟩ := h.writePage hF he
    obtain ⟨s', hflush, hs', hn', hother, hblocks⟩ :=
      ih hw hnodup fun x hx => horder x (List.mem_cons_of_mem _ hx)
    refine ⟨s', ?_, hs', hn', fun x hx => ?_, fun x hx p hp => ?_⟩
    · rw [PageCache.flush, bind_ok hrun, hflush]
    · obtain ⟨hne, hx⟩ := not_or.mp (fun hin => hx (List.mem_cons.mpr hin))
      rw [hother x hx]
      exact Function.update_of_ne hne ..
    -- no id comes twice, so that the block just written stays what it is
    · rcases List.mem_cons.mp hx with rfl | hx
      · obtain rfl : s.objects e.page = p := Option.some.inj ((h.cached e he).symm.trans hp)
        refine ⟨_, hb.trans ?_⟩
        rw [hother _ hnot]
        exact congrArg some (Function.update_self _ b s.blocks).symm
      · exact hblocks x hx p hp

end Kndb.PageCache
