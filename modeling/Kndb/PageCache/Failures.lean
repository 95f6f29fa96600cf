import Kndb.PageCache.Recent

namespace Kndb.PageCache

open Imp Imp.Prog

variable {P B : Type} {F : PageFormat P B}
variable {s s' t : PageCache P B} {es : List Entry} {e l : Entry} {id page : ℕ} {p : P} {op : Op P}
variable {fault : Option (WriteFault B)}

/-- The keys of the map are the ids of the pages in the list, each with the position of its page, and
there are not too many pages. -/
def Consistent (F : PageFormat P B) (s : PageCache P B) : Prop :=
  (∃ order, Holds F s order) ∧ s.list.length ≤ s.capacity

theorem Coherent.consistent (h : Coherent F s es) : Consistent F s := by
  refine ⟨⟨_, h.holds⟩, ?_⟩
  rw [h.list, List.length_map]
  exact h.size

def evictee (F : PageFormat P B) (s : PageCache P B) (id : ℕ) : Option ℕ :=
  if (s.map id).isSome ∨ s.list.length < s.capacity then none
  else match s.list.getLast? with
    | none => some id
    | some n => n.page.map (idAt F s)

/-- The page that has to leave is a block of the file and writing it does not fail, and `writePage` is called
for a page that is cached. -/
def Orderly (F : PageFormat P B) (fault : Option (WriteFault B)) (s : PageCache P B) : Op P → Prop
  | .insertPage p => ∀ x, evictee F s (F.pageID p) = some x → x < s.numBlocks ∧ fault = none
  | .retrievePage _ id => id < s.numBlocks → ∀ x, evictee F s id = some x → x < s.numBlocks ∧ fault = none
  | .writePage id => (s.map id).isSome = true

/-- The operation throws, or has nothing to do. -/
def Fails (F : PageFormat P B) (fault : Option (WriteFault B)) (s : PageCache P B) (op : Op P) : Prop :=
  (∃ ex s', op.run F fault s = .throw ex s') ∨ ∃ id, op = .writePage id ∧ s.map id = none

/-- The operation leaves a consistent cache behind. -/
def Settles (F : PageFormat P B) (fault : Option (WriteFault B)) (s : PageCache P B) (op : Op P) : Prop :=
  ∃ s', ((∃ r, op.run F fault s = .ok r s') ∨ ∃ ex, op.run F fault s = .throw ex s') ∧ Consistent F s'

theorem Coherent.toFront_hit (h : Coherent F s es) (hid : id ∈ ids F s es) (page : ℕ) :
    (toFront F page id s es).length ≤ s.capacity := by
  obtain ⟨e, he, rfl⟩ := mem_ids.mp hid
  exact (Linked.toFront_length he).trans h.size

theorem toFront_miss (hid : id ∉ ids F s es) (page : ℕ) :
    toFront F page id s es = ⟨s.nextIt, page⟩ :: es := by
  rw [toFront, List.filter_eq_self.mpr]
  intro e he
  apply decide_eq_true
  rintro rfl
  exact hid (mem_ids.mpr ⟨e, he, rfl⟩)

theorem Coherent.evictee_eq (h : Coherent F s es) (hid : id ∉ ids F s es) (hpage : idAt F t page = id)
    (hobjects : ∀ e ∈ es, t.objects e.page = s.objects e.page) (hfull : s.capacity ≤ es.length)
    {init : List Entry} (hlast : ⟨s.nextIt, page⟩ :: es = init ++ [l]) :
    evictee F s id = some (idAt F t l.page) := by
  have hlen : ¬((s.map id).isSome ∨ s.list.length < s.capacity) := by
    rw [h.list, List.length_map, h.map_none id hid]
    rintro (h1 | h1)
    · cases h1
    · omega
  have hl : (⟨s.nextIt, page⟩ :: es).getLast? = some l := by rw [hlast, List.getLast?_concat]
  rw [evictee, if_neg hlen, h.list, List.getLast?_map]
  rcases List.eq_nil_or_concat es with rfl | ⟨es', e, rfl⟩
  · obtain rfl : (⟨s.nextIt, page⟩ : Entry) = l := Option.some.inj hl
    rw [hpage]
    rfl
  · rw [List.concat_eq_append] at hl hobjects ⊢
    rw [← List.cons_append, List.getLast?_concat] at hl
    obtain rfl : e = l := Option.some.inj hl
    rw [List.getLast?_concat, idAt, hobjects e (by simp)]
    rfl

theorem Coherent.overfull_iff (h : Coherent F s es) (hpage : idAt F t page = id)
    (hobjects : ∀ e ∈ es, t.objects e.page = s.objects e.page) (hcap : t.capacity = s.capacity)
    (hblocks : t.numBlocks = s.numBlocks) : Overfull F fault t (toFront F page id s es) ↔
      ∃ x, evictee F s id = some x ∧ Refused fault s x := by
  have hsame : ∀ x, Refused fault t x ↔ Refused fault s x := fun x => by rw [Refused, hblocks, Refused]
  by_cases hid : id ∈ ids F s es
  · have hnone : evictee F s id = none := if_pos (.inl (h.map_isSome_iff.mpr hid))
    rw [hnone]
    constructor
    · intro hover
      have := hover.full
      rw [hcap] at this
      exact absurd (h.toFront_hit hid page) this.not_ge
    · rintro ⟨x, hx, -⟩
      cases hx
  -- a page that is not cached makes the list longer, and the last entry leaves a full cache
  · rw [toFront_miss hid]
    constructor
    · rintro ⟨hfull, init, l, hlast, hout⟩
      rw [hcap] at hfull
      exact ⟨_, h.evictee_eq hid hpage hobjects (Nat.le_of_lt_succ hfull) hlast, (hsame _).mp hout⟩
    · rintro ⟨x, hx, hout⟩
      have hfull : s.capacity ≤ es.length := by
        by_contra hlt
        rw [evictee, if_pos (.inr (by rw [h.list, List.length_map]; omega))] at hx
        cases hx
      have hlast := (List.dropLast_append_getLast (List.cons_ne_nil (⟨s.nextIt, page⟩ : Entry) es)).symm
      have := h.evictee_eq hid hpage hobjects hfull hlast
      rw [hx, Option.some.injEq] at this
      refine ⟨?_, _, _, hlast, (hsame _).mpr (this ▸ hout)⟩
      rw [hcap]
      exact Nat.lt_succ_of_le hfull

theorem Overfull.not_consistent (h : Overfull F fault t es) (ht : Linked F t es) (blocks : ℕ → B) :
    ¬Consistent F (failed blocks t) := by
  intro hc
  have hle : t.list.length ≤ t.capacity := hc.2
  rw [ht.list, List.length_map] at hle
  exact absurd h.full hle.not_gt

theorem Coherent.overfull_inserted (h : Coherent F s es) {n : PageCache P B}
    (hcap : n.capacity = s.capacity) (hblocks : n.numBlocks = s.numBlocks) (hobj : n.objects = s.objects)
    (hnext : n.nextObject = s.nextObject) (p : P) :
    Overfull F fault (inserted F p n) (toFront F s.nextObject (F.pageID p) s es) ↔
      ∃ x, evictee F s (F.pageID p) = some x ∧ Refused fault s x := by
  refine h.overfull_iff ?_ (fun e he => ?_) hcap hblocks
  · rw [← hnext]
    exact idAt_placed p n
  · change Function.update n.objects n.nextObject p e.page = _
    rw [hobj, hnext, Function.update_of_ne (h.page_lt e he).ne]

theorem Coherent.throws (h : Coherent F s es) {ex : Exn} (hrun : op.run F fault s = .throw ex s') :
    (Orderly F fault s op ∧ ∃ es', Coherent F s' es') ∨ (¬Orderly F fault s op ∧ ¬Consistent F s') := by
  cases op with
  | insertPage p =>
    obtain ⟨hover, blocks, rfl⟩ := (wp_of_throw (throw_of_map hrun)).mp (wp_insertPage h.toLinked h.size p)
    refine .inr ⟨fun hord => ?_, hover.not_consistent (h.inserted p) blocks⟩
    obtain ⟨x, hx, hout⟩ := (h.overfull_inserted rfl rfl rfl rfl p).mp hover
    exact absurd (hord x hx) (refused_iff.mp hout)
  | retrievePage T id =>
    have hrun := throw_of_map hrun
    by_cases hid : id ∈ ids F s es
    · have hcached := h.map_isSome_iff.mpr hid
      obtain ⟨e, he, rfl⟩ := mem_ids.mp hid
      rw [retrievePage_hit h.toLinked he h.size] at hrun
      split_ifs at hrun
      cases hrun
      refine .inl ⟨fun _ x hx => ?_, _, (h.touched he).coherent⟩
      rw [evictee, if_pos (.inl hcached)] at hx
      cases hx
    · obtain ⟨hle, rfl⟩ | ⟨hlt, p, hp, hover, blocks, rfl⟩ :=
        (wp_of_throw hrun).mp (wp_retrievePage_miss h.toLinked h.size hid T)
      · exact .inl ⟨fun hlt => absurd hlt hle.not_gt, es, h⟩
      · have hpid := F.pageID_ofBytes hp
        have hused : Linked F (used s) es := h.toLinked.congr rfl rfl rfl le_rfl fun _ _ => rfl
        rw [← hpid] at hover
        refine .inr ⟨fun hord => ?_, hover.not_consistent (hused.inserted p) blocks⟩
        obtain ⟨x, hx, hout⟩ :=
          (h.overfull_inserted (n := used s) rfl rfl rfl rfl p).mp hover
        exact absurd (hord hlt x (hpid ▸ hx)) (refused_iff.mp hout)
  | writePage id =>
    have hrun := throw_of_map hrun
    by_cases hid : id ∈ ids F s es
    · have hcached := h.map_isSome_iff.mpr hid
      obtain ⟨e, he, rfl⟩ := mem_ids.mp hid
      obtain ⟨-, blocks, rfl⟩ := (wp_of_throw hrun).mp (wp_writePage h.toLinked he)
      exact .inl ⟨hcached, es, h.toLinked.congr rfl rfl rfl le_rfl fun _ _ => rfl, h.size⟩
    · rw [writePage_of_none (h.map_none id hid)] at hrun
      cases hrun

/-- The states that orderly operations lead to, whether they return or throw. -/
inductive Reached (F : PageFormat P B) : PageCache P B → Prop
  | start (capacity numBlocks : ℕ) (blocks : ℕ → B) (objects : ℕ → P) (junk : ℕ → Junk) :
      Reached F (new capacity numBlocks blocks objects junk)
  | returned {s s' : PageCache P B} {fault : Option (WriteFault B)} {op : Op P} {r : Option ℕ} :
      Reached F s → Orderly F fault s op → op.run F fault s = .ok r s' → Reached F s'
  | thrown {s s' : PageCache P B} {fault : Option (WriteFault B)} {op : Op P} {ex : Exn} :
      Reached F s → Orderly F fault s op → op.run F fault s = .throw ex s' → Reached F s'
  | change {s : PageCache P B} {page : ℕ} {p : P} :
      Reached F s → F.pageID p = idAt F s page → Reached F (store page p s)
  | grow {s : PageCache P B} (n : ℕ) : Reached F s → Reached F { s with numBlocks := s.numBlocks + n }

theorem Reached.coherent (h : Reached F s) : ∃ es, Coherent F s es := by
  induction h with
  | start capacity numBlocks blocks objects junk => exact ⟨[], linked_new .., Nat.zero_le _⟩
  | returned _ _ hrun ih =>
    obtain ⟨es, hs⟩ := ih
    obtain ⟨es', hret⟩ := hs.returned hrun
    exact ⟨es', hret.coherent⟩
  | thrown _ hord hrun ih =>
    obtain ⟨es, hs⟩ := ih
    obtain ⟨-, hs'⟩ | ⟨hnot, -⟩ := hs.throws hrun
    · exact hs'
    · exact absurd hord hnot
  | change _ hp ih =>
    obtain ⟨es, hs⟩ := ih
    exact ⟨es, hs.store hp⟩
  | grow n _ ih =>
    obtain ⟨es, hs⟩ := ih
    exact ⟨es, hs.toLinked.congr rfl rfl rfl le_rfl fun _ _ => rfl, hs.size⟩

/-- In a run of orderly operations the cache stays consistent, and an operation that fails then leaves
a consistent cache exactly if it is orderly too. -/
theorem consistent_iff (h : Reached F s) :
    Consistent F s ∧ ∀ fault (op : Op P), Fails F fault s op → (Settles F fault s op ↔ Orderly F fault s op) := by
  obtain ⟨es, hs⟩ := h.coherent
  refine ⟨hs.consistent, ?_⟩
  rintro fault op (⟨ex, s', hrun⟩ | ⟨id, rfl, hid⟩)
  · obtain ⟨hord, es', hs'⟩ | ⟨hnot, hbad⟩ := hs.throws hrun
    · exact iff_of_true ⟨s', .inr ⟨ex, hrun⟩, hs'.consistent⟩ hord
    · refine iff_of_false ?_ hnot
      rintro ⟨t, ⟨r, ht⟩ | ⟨ex', ht⟩, hc⟩
      · rw [hrun] at ht
        cases ht
      · rw [hrun] at ht
        cases ht
        exact hbad hc
  · have habort : (Op.writePage id : Op P).run F fault s = .abort "dereferenced list_it()" := by
      rw [Op.run, bind_apply, seq, writePage_of_none hid]
    refine iff_of_false ?_ fun hord => ?_
    · rintro ⟨t, ⟨r, ht⟩ | ⟨ex', ht⟩, -⟩
      · rw [habort] at ht
        cases ht
      · rw [habort] at ht
        cases ht
    · rw [Orderly, hid] at hord
      cases hord

def tiny : PageCache Page Block :=
  new 1 8 (fun _ => []) (fun _ => .schema (.new 0)) fun _ => ⟨fun _ => 0, fun _ => []⟩

def insertSchema (id : ℕ) : Op Page := .insertPage (.schema (.new id))

theorem reached_tiny : Reached Page.format tiny := .start ..

/-- The cache holds one page, which need not be a block of the file. -/
theorem reached_insert (id : ℕ) : ∃ s', (insertSchema id).run Page.format none tiny = .ok none s' ∧
    Reached Page.format s' := by
  refine ⟨_, rfl, reached_tiny.returned (show Orderly _ none _ (insertSchema id) from ?_) rfl⟩
  intro x hx
  cases hx

/-- A page is put into the cache, and writing it fails.  Then a block that the file does not have is retrieved,
which does no harm, or a second page is put into the cache while `fsync` fails, which does. -/
theorem consistent_tiny : ∃ s s' ex, Reached Page.format s ∧ (insertSchema 5).run Page.format none tiny = .ok none s ∧
    (Op.writePage 5).run Page.format (some .fsync) s = .throw ex s' ∧ Consistent Page.format s' ∧
    (Settles Page.format none s' (.retrievePage .schema 9) ↔
      Orderly Page.format none s' (.retrievePage .schema 9)) ∧
    (Settles Page.format (some .fsync) s' (insertSchema 6) ↔
        Orderly Page.format (some .fsync) s' (insertSchema 6)) := by
  obtain ⟨s, hs, hreach⟩ := reached_insert 5
  have hs' := hs
  cases hs
  have hthrown := hreach.thrown (show Orderly _ (some .fsync) _ (.writePage 5) from rfl) rfl
  exact ⟨_, _, _, hreach, hs', rfl, (consistent_iff hthrown).1, (consistent_iff hthrown).2 _ _ (.inl ⟨_, _, rfl⟩),
    (consistent_iff hthrown).2 _ _ (.inl ⟨_, _, rfl⟩)⟩

/-- A page whose write fails stays in the list next to the second page that takes its place: `fsync` or `pwrite`
may fail, or the page may be no block of the file.  `writePage` of an id that is not cached ends the process. -/
theorem consistent_counterexample : (∃ s, Reached Page.format s ∧
      (∃ s', (insertSchema 6).run Page.format (some .fsync) s =
        .throw (.runtimeError "Error while fsyncing file") s' ∧ ¬Consistent Page.format s') ∧
      (∃ s', (insertSchema 6).run Page.format (some (.pwrite [])) s =
        .throw (.runtimeError "error while writing file") s' ∧ ¬Consistent Page.format s') ∧
      s.map 7 = none ∧ ∃ m, (Op.writePage 7).run Page.format none s = .abort m) ∧
    ∃ s, Reached Page.format s ∧ ∃ s', (insertSchema 6).run Page.format none s =
      .throw (.runtimeError "BlockNo out of bounds") s' ∧ ¬Consistent Page.format s' := by
  have htwo : ∀ {s : PageCache Page Block}, s.list.length = 2 → s.capacity = 1 → ¬Consistent Page.format s := by
    intro s hlen hcap hc
    have := hc.2
    omega
  refine ⟨?_, ?_⟩
  · obtain ⟨s, hs, hreach⟩ := reached_insert 5
    cases hs
    exact ⟨_, hreach, ⟨_, rfl, htwo rfl rfl⟩, ⟨_, rfl, htwo rfl rfl⟩, rfl, _, rfl⟩
  · obtain ⟨s, hs, hreach⟩ := reached_insert 9
    cases hs
    exact ⟨_, hreach, _, rfl, htwo rfl rfl⟩

end Kndb.PageCache
