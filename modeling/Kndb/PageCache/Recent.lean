import Kndb.Library.Recency
import Kndb.PageCache.Format
import Kndb.PageCache.Operations

namespace Kndb.PageCache

open Imp Imp.Prog Recency

variable {P B : Type} {F : PageFormat P B}
variable {s s' t : PageCache P B} {es es' : List Entry} {e : Entry} {id page : ℕ} {p : P}
variable {fault : Option (WriteFault B)}

structure Coherent (F : PageFormat P B) (s : PageCache P B) (es : List Entry) : Prop extends
    Linked F s es where
  size : es.length ≤ s.capacity

theorem Evicted.coherent (h : Evicted F t es s' es') : Coherent F s' es' := by
  refine ⟨h.linked, ?_⟩
  rw [h.take, h.capacity]
  exact List.length_take_le ..

inductive Op (P : Type) where
  | insertPage (p : P)
  | retrievePage (T : PageType) (pageID : ℕ)
  | writePage (pageID : ℕ)

namespace Op

/-- Run an operation; the reference that it returns is the address of a page object.  `fault` tells how
the write fails, if there is one. -/
def run (F : PageFormat P B) (fault : Option (WriteFault B)) : Op P → CacheM P B (Option ℕ)
  | insertPage p => do
    PageCache.insertPage F fault p
    return none
  | retrievePage T pageID => do return some (← PageCache.retrievePage F fault T pageID)
  | writePage pageID => do
    PageCache.writePage F fault pageID
    return none

/-- The ids that an operation uses. -/
def uses (F : PageFormat P B) : Op P → List ℕ
  | insertPage p => [F.pageID p]
  | retrievePage _ pageID => [pageID]
  | writePage _ => []

end Op

def Cached (F : PageFormat P B) (s : PageCache P B) (id page : ℕ) : Prop :=
  (∃ n ∈ s.list, n.page = some page) ∧ idAt F s page = id

theorem Linked.cached_iff (h : Linked F s es) :
    Cached F s id page ↔ ∃ e ∈ es, e.page = page ∧ idAt F s page = id := by
  rw [Cached, h.list]
  constructor
  · rintro ⟨⟨n, hn, hp⟩, hid⟩
    obtain ⟨e, he, rfl⟩ := List.mem_map.mp hn
    exact ⟨e, he, Option.some.inj hp, hid⟩
  · rintro ⟨e, he, rfl, hid⟩
    exact ⟨⟨e.node, List.mem_map_of_mem he, rfl⟩, hid⟩

/-- An operation that has returned has moved its page, if any, to the front, from where it has at most
dropped the last page after writing it. -/
structure Returned (F : PageFormat P B) (s : PageCache P B) (es : List Entry) (used : List ℕ)
    (s' : PageCache P B) (es' : List Entry) : Prop where
  coherent : Coherent F s' es'
  capacity : s'.capacity = s.capacity
  ids : ids F s' es' = (used.foldl (fun l id => touch id l) (ids F s es)).take s.capacity
  left : ∀ e ∈ es, idAt F s e.page ∉ PageCache.ids F s' es' →
    ∃ J, F.toBytes J (s.objects e.page) = some (s'.blocks (idAt F s e.page))
  blocks : ∀ id, id ∉ used → id ∉ PageCache.ids F s es → s'.blocks id = s.blocks id

theorem ids_toFront (hid : idAt F t page = id) (ht : ∀ e ∈ es, idAt F t e.page = idAt F s e.page) :
    ids F t (toFront F page id s es) = touch id (ids F s es) := by
  rw [ids, toFront, List.map_cons, hid, touch, ids, List.filter_map]
  refine congrArg (List.cons id) (List.map_congr_left fun e he => ht e (List.mem_filter.mp he).1)

theorem Evicted.ids_eq (h : Evicted F t es s' es') : ids F s' es' = (ids F t es).take t.capacity := by
  have hat : idAt F s' = idAt F t := by
    funext x
    rw [idAt, idAt, h.objects]
  rw [ids, ids, hat, h.take, List.map_take]

theorem Evicted.written (h : Evicted F t es s' es') (hn : (ids F t es).Nodup) (he : e ∈ es)
    (hnot : idAt F t e.page ∉ ids F s' es') :
    ∃ J, F.toBytes J (t.objects e.page) = some (s'.blocks (idAt F t e.page)) := by
  have hat : idAt F s' = idAt F t := by
    funext x
    rw [idAt, idAt, h.objects]
  obtain ⟨rfl, -⟩ | ⟨l, b, J, rfl, -, hb, -, hblocks⟩ := h.blocks
  · rw [ids, hat] at hnot
    exact absurd (List.mem_map.mpr ⟨e, he, rfl⟩) hnot
  · rcases List.mem_append.mp he with he | he
    · rw [ids, hat] at hnot
      exact absurd (List.mem_map.mpr ⟨e, he, rfl⟩) hnot
    · rw [List.mem_singleton.mp he]
      exact ⟨J, by rw [hblocks, Function.update_self, hb]⟩

theorem Evicted.returned (h : Evicted F t (toFront F page id s es) s' es') (hs : Coherent F s es)
    (ht : Linked F t (toFront F page id s es)) (hcap : t.capacity = s.capacity)
    (hblocks : t.blocks = s.blocks) (hid : idAt F t page = id)
    (hobjects : ∀ e ∈ es, t.objects e.page = s.objects e.page) : Returned F s es [id] s' es' := by
  have hat : ∀ e ∈ es, idAt F t e.page = idAt F s e.page := fun e he => congrArg F.pageID (hobjects e he)
  have hids : PageCache.ids F s' es' = (touch id (PageCache.ids F s es)).take s.capacity := by
    rw [h.ids_eq, ids_toFront hid hat, hcap]
  refine ⟨h.coherent, h.capacity.trans hcap, hids, fun e he hnot => ?_, fun x hx hnot => ?_⟩
  · have hne : idAt F s e.page ≠ id := by
      intro heq
      have hpos : s.capacity ≠ 0 := (Nat.lt_of_lt_of_le (List.length_pos_of_mem he) hs.size).ne'
      obtain ⟨k, hk⟩ := Nat.exists_eq_succ_of_ne_zero hpos
      rw [hids, heq, hk, touch, List.take_succ_cons] at hnot
      exact hnot (List.mem_cons_self ..)
    have hmem : e ∈ toFront F page id s es :=
      List.mem_cons_of_mem _ (List.mem_filter.mpr ⟨he, decide_eq_true hne⟩)
    have := h.written ht.ids hmem (by rwa [hat e he])
    rwa [hobjects e he, hat e he] at this
  · obtain ⟨-, heq⟩ | ⟨l, b, J, hl, -, -, -, heq⟩ := h.blocks
    · rw [heq, hblocks]
    · have hmem : idAt F t l.page ∈ PageCache.ids F t (toFront F page id s es) :=
        mem_ids.mpr ⟨l, by rw [hl]; simp, rfl⟩
      rw [ids_toFront hid hat, touch, List.mem_cons, List.mem_filter] at hmem
      rw [heq, hblocks, Function.update_of_ne]
      rintro rfl
      rcases hmem with hmem | hmem
      · exact hx (List.mem_singleton.mpr hmem)
      · exact hnot hmem.1

theorem Coherent.insertPage (h : Coherent F s es) (hrun : insertPage F fault p s = .ok () s') :
    ∃ es', Returned F s es [F.pageID p] s' es' := by
  obtain ⟨es', hev⟩ := (wp_of_ok hrun).mp (wp_insertPage h.toLinked h.size p)
  exact ⟨es', hev.returned h (h.inserted p) rfl rfl (idAt_placed p s)
    fun e he => Function.update_of_ne (h.page_lt e he).ne ..⟩

theorem Linked.evicted_self (h : Linked F t es) (hsize : es.length ≤ t.capacity) :
    Evicted F t es t es :=
  ⟨h, (List.take_of_length_le hsize).symm, rfl, rfl, rfl, rfl, rfl, .inl ⟨rfl, rfl⟩⟩

theorem Coherent.touched (h : Coherent F s es) (he : e ∈ es) : Returned F s es [idAt F s e.page]
    (touched F e s) (toFront F e.page (idAt F s e.page) s es) :=
  ((h.toLinked.touched he).evicted_self ((Linked.toFront_length he).trans h.size)).returned h
    (h.toLinked.touched he) rfl rfl rfl fun _ _ => rfl

theorem Coherent.retrievePage {T : PageType} (h : Coherent F s es)
    (hrun : retrievePage F fault T id s = .ok page s') : ∃ es', Returned F s es [id] s' es' := by
  by_cases hid : id ∈ PageCache.ids F s es
  · obtain ⟨e, he, rfl⟩ := mem_ids.mp hid
    rw [retrievePage_hit h.toLinked he h.size] at hrun
    split_ifs at hrun
    cases hrun
    exact ⟨_, h.touched he⟩
  · obtain ⟨-, -, -, p, hp, es', hev⟩ :=
      (wp_of_ok hrun).mp (wp_retrievePage_miss h.toLinked h.size hid T)
    have hused : Linked F (used s) es := h.toLinked.congr rfl rfl rfl le_rfl fun _ _ => rfl
    have hpid := F.pageID_ofBytes hp
    have hins := hused.inserted p
    rw [hpid] at hins
    exact ⟨es', hev.returned h hins rfl rfl ((idAt_placed p _).trans hpid)
      fun e he => Function.update_of_ne (h.page_lt e he).ne ..⟩

theorem Coherent.writePage (h : Coherent F s es) (hrun : writePage F fault id s = .ok () s') :
    Returned F s es [] s' es := by
  by_cases hid : id ∈ PageCache.ids F s es
  · obtain ⟨e, he, rfl⟩ := mem_ids.mp hid
    obtain ⟨-, -, b, -, rfl⟩ := (wp_of_ok hrun).mp (wp_writePage h.toLinked he)
    refine ⟨⟨h.toLinked.congr rfl rfl rfl le_rfl fun _ _ => rfl, h.size⟩, rfl, ?_, fun e' he' hnot => ?_,
      fun x _ hnot => ?_⟩
    · rw [List.foldl_nil, List.take_of_length_le]
      · rfl
      · rw [PageCache.ids, List.length_map]
        exact h.size
    · exact absurd (mem_ids.mpr ⟨e', he', rfl⟩) hnot
    · exact Function.update_of_ne (fun heq => hnot (mem_ids.mpr ⟨e, he, heq.symm⟩)) ..
  · rw [writePage_of_none (h.map_none id hid)] at hrun
    cases hrun

theorem Coherent.returned (h : Coherent F s es) {op : Op P} {r : Option ℕ}
    (hrun : op.run F fault s = .ok r s') : ∃ es', Returned F s es (op.uses F) s' es' := by
  cases op with
  | insertPage p =>
    obtain ⟨_, t, hins, hrun⟩ := ok_of_bind hrun
    cases hrun
    exact h.insertPage hins
  | retrievePage T pageID =>
    obtain ⟨page, t, hret, hrun⟩ := ok_of_bind hrun
    cases hrun
    exact h.retrievePage hret
  | writePage pageID =>
    obtain ⟨_, t, hw, hrun⟩ := ok_of_bind hrun
    cases hrun
    exact ⟨es, h.writePage hw⟩

theorem idAt_store (hp : F.pageID p = idAt F s page) (x : ℕ) : idAt F (store page p s) x = idAt F s x := by
  by_cases hx : x = page
  · rw [hx]
    exact (congrArg F.pageID (Function.update_self ..)).trans hp
  · exact congrArg F.pageID (Function.update_of_ne hx ..)

theorem Coherent.store (h : Coherent F s es) (hp : F.pageID p = idAt F s page) :
    Coherent F (store page p s) es :=
  ⟨h.toLinked.congr rfl rfl rfl le_rfl fun e _ => idAt_store hp e.page, h.size⟩

/-- The states that operations lead to that return, with the ids that they have used.  In between the
pages may be changed through references, and the file may grow. -/
inductive Run (F : PageFormat P B) (capacity : ℕ) : List ℕ → PageCache P B → Prop
  | start (numBlocks : ℕ) (blocks : ℕ → B) (objects : ℕ → P) (junk : ℕ → Junk) :
      Run F capacity [] (new capacity numBlocks blocks objects junk)
  | op {history : List ℕ} {s s' : PageCache P B} {fault : Option (WriteFault B)} {op : Op P} {r : Option ℕ} :
      Run F capacity history s → op.run F fault s = .ok r s' → Run F capacity (history ++ op.uses F) s'
  | change {history : List ℕ} {s : PageCache P B} {page : ℕ} {p : P} : Run F capacity history s →
      F.pageID p = idAt F s page → Run F capacity history (store page p s)
  | grow {history : List ℕ} {s : PageCache P B} (n : ℕ) : Run F capacity history s →
      Run F capacity history { s with numBlocks := s.numBlocks + n }

structure Holds (F : PageFormat P B) (s : PageCache P B) (order : List ℕ) : Prop where
  list : s.list.map (fun n => n.page.map (idAt F s)) = order.map some
  nodup : (s.list.map ListNode.it).Nodup
  keys : ∀ id, (s.map id).isSome = true ↔ id ∈ order
  positions : ∀ id it, s.map id = some it → ∃ n ∈ s.list, it = some n.it ∧ n.page.map (idAt F s) = some id

/-- The law of the cache: it holds the `capacity` ids that were used last, and an id that leaves it
has been written. -/
structure LruOk (F : PageFormat P B) (capacity : ℕ) (history : List ℕ) (s : PageCache P B) : Prop where
  holds : Holds F s ((byLastUse history).take capacity)
  written : ∀ fault (op : Op P) r s', op.run F fault s = .ok r s' → ∀ id page, Cached F s id page →
    (∀ page', ¬Cached F s' id page') → ∃ J, F.toBytes J (s.objects page) = some (s'.blocks id)

theorem Linked.holds (h : Linked F s es) : Holds F s (PageCache.ids F s es) := by
  refine ⟨?_, ?_, fun id => h.map_isSome_iff, fun id it hid => ?_⟩
  · rw [h.list, List.map_map, PageCache.ids, List.map_map]
    rfl
  · rw [h.list, List.map_map]
    exact h.its
  · have hmem := h.map_isSome_iff.mp (Option.isSome_of_eq_some hid)
    obtain ⟨e, he, rfl⟩ := mem_ids.mp hmem
    rw [h.map_some e he, Option.some.injEq] at hid
    refine ⟨e.node, ?_, hid.symm, rfl⟩
    rw [h.list]
    exact List.mem_map_of_mem he

theorem foldl_touch (history used : List ℕ) :
    used.foldl (fun l id => touch id l) (byLastUse history) = byLastUse (history ++ used) := by
  induction used generalizing history with
  | nil => rw [List.foldl_nil, List.append_nil]
  | cons id used ih => rw [List.foldl_cons, ← byLastUse_concat, ih, ← List.append_cons]

theorem Run.coherent {capacity : ℕ} {history : List ℕ} (h : Run F capacity history s) :
    ∃ es, Coherent F s es ∧ s.capacity = capacity ∧
      ids F s es = (byLastUse history).take capacity := by
  induction h with
  | start numBlocks blocks objects junk =>
    refine ⟨[], ⟨linked_new .., Nat.zero_le _⟩, rfl, ?_⟩
    rw [byLastUse, List.dedup_nil, List.reverse_nil, List.take_nil]
    rfl
  | @op history s s' fault op r _ hrun ih =>
    obtain ⟨es, hs, hcap, hids⟩ := ih
    obtain ⟨es', hret⟩ := hs.returned hrun
    refine ⟨es', hret.coherent, hret.capacity.trans hcap, ?_⟩
    rw [hret.ids, hcap, hids, ← foldl_touch]
    rcases op with p | ⟨T, id⟩ | id
    · exact take_touch (nodup_byLastUse _) _ _
    · exact take_touch (nodup_byLastUse _) _ _
    · exact List.take_take.trans (congrArg (List.take · _) (Nat.min_self _))
  | @change history s page p _ hp ih =>
    obtain ⟨es, hs, hcap, hids⟩ := ih
    refine ⟨es, hs.store hp, hcap, ?_⟩
    rw [← hids]
    exact List.map_congr_left fun e _ => idAt_store hp e.page
  | @grow history s n _ ih =>
    obtain ⟨es, hs, hcap, hids⟩ := ih
    exact ⟨es, ⟨hs.toLinked.congr rfl rfl rfl le_rfl fun _ _ => rfl, hs.size⟩, hcap, hids⟩

/-- The cache holds the ids that were used last, in this order, after every run. -/
theorem lruOk_of_run {capacity : ℕ} {history : List ℕ} (h : Run F capacity history s) :
    LruOk F capacity history s := by
  obtain ⟨es, hs, -, hids⟩ := h.coherent
  refine ⟨hids ▸ hs.holds, fun fault op r s' hrun id page hcached hgone => ?_⟩
  obtain ⟨es', hret⟩ := hs.returned hrun
  obtain ⟨e, he, rfl, rfl⟩ := hs.cached_iff.mp hcached
  refine hret.left e he fun hin => ?_
  obtain ⟨e', he', hid'⟩ := mem_ids.mp hin
  exact hgone e'.page (hret.coherent.cached_iff.mpr ⟨e', he', rfl, hid'⟩)

/-- A cache for two pages, into which three are put. -/
theorem lruOk_three : ∃ s, LruOk Page.format 2 [1, 2, 3] s := by
  have hstart : Run Page.format 2 [] (new 2 4 (fun _ => []) (fun _ => .schema (.new 0))
    fun _ => ⟨fun _ => 0, fun _ => []⟩) := .start ..
  have h1 := hstart.op (show Op.run _ none (.insertPage (.schema (.new 1))) _ = _ from rfl)
  have h2 := h1.op (show Op.run _ none (.insertPage (.schema (.new 2))) _ = _ from rfl)
  have h3 := h2.op (show Op.run _ none (.insertPage (.schema (.new 3))) _ = _ from rfl)
  exact ⟨_, lruOk_of_run h3⟩

end Kndb.PageCache
