import Mathlib.Data.List.Nodup
import Kndb.PageCache

namespace Kndb.PageCache

open Imp Imp.Prog

structure Entry where
  it : ℕ
  page : ℕ
deriving DecidableEq

def Entry.node (e : Entry) : ListNode := ⟨e.it, some e.page⟩

@[simp] theorem Entry.node_it (e : Entry) : e.node.it = e.it := rfl

variable {P B : Type} (F : PageFormat P B)

def idAt (s : PageCache P B) (page : ℕ) : ℕ := F.pageID (s.objects page)

def ids (s : PageCache P B) (es : List Entry) : List ℕ := es.map fun e => idAt F s e.page

structure Linked (s : PageCache P B) (es : List Entry) : Prop where
  list : s.list = es.map Entry.node
  map_some : ∀ e ∈ es, s.map (idAt F s e.page) = some (some e.it)
  map_none : ∀ id, id ∉ ids F s es → s.map id = none
  ids : (ids F s es).Nodup
  its : (es.map Entry.it).Nodup
  pages : (es.map Entry.page).Nodup
  it_lt : ∀ e ∈ es, e.it < s.nextIt
  page_lt : ∀ e ∈ es, e.page < s.nextObject

variable {F} {s s' : PageCache P B} {es init : List Entry} {e e' l : Entry} {id page : ℕ} {b : B} {p : P}

theorem mem_ids : id ∈ ids F s es ↔ ∃ e ∈ es, idAt F s e.page = id := List.mem_map

theorem linked_new (capacity numBlocks : ℕ) (blocks : ℕ → B) (objects : ℕ → P) (junk : ℕ → Junk) :
    Linked F (new capacity numBlocks blocks objects junk) [] := by
  constructor <;> simp [new, PageCache.ids]

namespace Linked

theorem eq_of_it (h : Linked F s es) (he : e ∈ es) (he' : e' ∈ es) (hit : e.it = e'.it) : e = e' :=
  List.inj_on_of_nodup_map h.its he he' hit

theorem eq_of_id (h : Linked F s es) (he : e ∈ es) (he' : e' ∈ es)
    (hid : idAt F s e.page = idAt F s e'.page) : e = e' :=
  List.inj_on_of_nodup_map h.ids he he' hid

theorem eq_of_page (h : Linked F s es) (he : e ∈ es) (he' : e' ∈ es) (hp : e.page = e'.page) :
    e = e' :=
  List.inj_on_of_nodup_map h.pages he he' hp

theorem map_isSome_iff (h : Linked F s es) : (s.map id).isSome = true ↔ id ∈ PageCache.ids F s es := by
  constructor
  · intro hs
    by_contra hn
    rw [h.map_none id hn] at hs
    cases hs
  · intro hid
    obtain ⟨e, he, rfl⟩ := mem_ids.mp hid
    rw [h.map_some e he]
    rfl

theorem node_eq (h : Linked F s es) (he : e ∈ es) : s.node e.it = some e.node := by
  rw [node, h.list, List.find?_map]
  obtain ⟨e', hf⟩ := Option.isSome_iff_exists.mp
    (List.find?_isSome (p := (fun n : ListNode => n.it == e.it) ∘ Entry.node).mpr
      ⟨e, he, beq_self_eq_true e.it⟩)
  have hit : e'.it = e.it := by simpa using List.find?_some hf
  rw [hf, h.eq_of_it (List.mem_of_find?_eq_some hf) he hit]
  rfl

theorem derefMap_eq (h : Linked F s es) (he : e ∈ es) :
    derefMap (idAt F s e.page) s = .ok e.page s := by
  rw [derefMap, h.map_some e he]
  simp only [h.node_eq he, Option.bind_some, Entry.node]

theorem filter_it_map (h : Linked F s es) (he : e ∈ es) {g : Entry → ListNode}
    (hit : ∀ e', (g e').it = e'.it) (hg : ∀ e' ∈ es, e' ≠ e → g e' = e'.node) :
    (es.map g).filter (·.it != e.it) =
      (es.filter fun e' => idAt F s e'.page ≠ idAt F s e.page).map Entry.node := by
  rw [List.filter_map]
  have hfilter : es.filter ((fun n : ListNode => n.it != e.it) ∘ g) =
      es.filter fun e' => idAt F s e'.page ≠ idAt F s e.page := by
    apply List.filter_congr
    intro e' he'
    rw [Function.comp, hit, Bool.eq_iff_iff, bne_iff_ne, decide_eq_true_iff]
    constructor
    · exact fun hne hid => hne (congrArg Entry.it (h.eq_of_id he' he hid))
    · exact fun hne hi => hne (congrArg (fun x => idAt F s x.page) (h.eq_of_it he' he hi))
  rw [hfilter]
  apply List.map_congr_left
  intro e' he'
  obtain ⟨hmem, hne⟩ := List.mem_filter.mp he'
  refine hg e' hmem ?_
  rintro rfl
  exact of_decide_eq_true hne rfl

theorem eraseNode_list (h : Linked F s es) (id : ℕ) :
    (eraseNode id s).list = (es.filter fun e => idAt F s e.page ≠ id).map Entry.node := by
  by_cases hid : id ∈ PageCache.ids F s es
  · obtain ⟨e, he, rfl⟩ := mem_ids.mp hid
    rw [eraseNode, h.map_some e he, ← h.filter_it_map he (fun _ => rfl) fun _ _ _ => rfl]
    exact congrArg (List.filter _) h.list
  · have hfilter : (es.filter fun e => idAt F s e.page ≠ id) = es := by
      rw [List.filter_eq_self]
      intro e he
      apply decide_eq_true
      rintro rfl
      exact hid (mem_ids.mpr ⟨e, he, rfl⟩)
    rw [hfilter, ← h.list, eraseNode, h.map_none id hid]

theorem filter (h : Linked F s es) (q : Entry → Bool) :
    (PageCache.ids F s (es.filter q)).Nodup ∧ ((es.filter q).map Entry.it).Nodup ∧
      ((es.filter q).map Entry.page).Nodup :=
  ⟨h.ids.sublist (List.filter_sublist.map _), h.its.sublist (List.filter_sublist.map _),
    h.pages.sublist (List.filter_sublist.map _)⟩

/-- Steps 1 to 3 of `updateLRU`, from a state that is in step but for the list. -/
theorem push (h : Linked F s es) {list : List ListNode}
    (hlist : (eraseNode id { s with list }).list =
      (es.filter fun e => idAt F s e.page ≠ id).map Entry.node)
    (hid : idAt F s page = id) (hpage : page < s.nextObject)
    (hnot : ∀ e ∈ es, idAt F s e.page ≠ id → e.page ≠ page) :
    Linked F (pushFront page id (eraseNode id { s with list }))
      (⟨s.nextIt, page⟩ :: es.filter fun e => idAt F s e.page ≠ id) := by
  obtain ⟨h1, h2, h3⟩ := h.filter fun e => idAt F s e.page ≠ id
  have hmem : ∀ {e}, e ∈ es.filter (fun e => idAt F s e.page ≠ id) ↔ e ∈ es ∧ idAt F s e.page ≠ id := by
    intro e
    rw [List.mem_filter, decide_eq_true_iff]
  constructor
  · exact congrArg (List.cons _) hlist
  · intro e he
    change Function.update s.map id (some (some s.nextIt)) (idAt F s e.page) = _
    rcases List.mem_cons.mp he with rfl | he
    · rw [hid, Function.update_self]
    · rw [Function.update_of_ne (hmem.mp he).2, h.map_some e (hmem.mp he).1]
  · intro x hx
    change Function.update s.map id (some (some s.nextIt)) x = none
    obtain ⟨hne, hx⟩ := not_or.mp (fun hin => hx (List.mem_cons.mpr hin))
    rw [Function.update_of_ne fun heq => hne (heq.trans hid.symm)]
    refine h.map_none x fun hin => hx ?_
    obtain ⟨e, he, rfl⟩ := mem_ids.mp hin
    exact List.mem_map.mpr ⟨e, hmem.mpr ⟨he, fun heq => hne (heq.trans hid.symm)⟩, rfl⟩
  · refine List.nodup_cons.mpr ⟨fun hin => ?_, h1⟩
    obtain ⟨e, he, heq⟩ := List.mem_map.mp hin
    exact (hmem.mp he).2 (heq.trans hid)
  · refine List.nodup_cons.mpr ⟨fun hin => ?_, h2⟩
    obtain ⟨e, he, heq⟩ := List.mem_map.mp hin
    exact (h.it_lt e (hmem.mp he).1).ne heq
  · refine List.nodup_cons.mpr ⟨fun hin => ?_, h3⟩
    obtain ⟨e, he, heq⟩ := List.mem_map.mp hin
    exact hnot e (hmem.mp he).1 (hmem.mp he).2 heq
  · intro e he
    change e.it < s.nextIt + 1
    rcases List.mem_cons.mp he with rfl | he
    · exact Nat.lt_succ_self _
    · exact Nat.lt_succ_of_lt (h.it_lt e (hmem.mp he).1)
  · intro e he
    rcases List.mem_cons.mp he with rfl | he
    · exact hpage
    · exact h.page_lt e (hmem.mp he).1

theorem congr (h : Linked F s es) {s' : PageCache P B} (hlist : s'.list = s.list)
    (hmap : s'.map = s.map) (hit : s'.nextIt = s.nextIt) (hobject : s.nextObject ≤ s'.nextObject)
    (hid : ∀ e ∈ es, idAt F s' e.page = idAt F s e.page) : Linked F s' es := by
  have hids : PageCache.ids F s' es = PageCache.ids F s es := List.map_congr_left hid
  refine ⟨hlist.trans h.list, fun e he => ?_, fun x hx => ?_, hids ▸ h.ids, h.its, h.pages,
    fun e he => hit ▸ h.it_lt e he, fun e he => (h.page_lt e he).trans_le hobject⟩
  · rw [hmap, hid e he, h.map_some e he]
  · rw [hmap, h.map_none x (hids ▸ hx)]

theorem pop (h : Linked F s (init ++ [l])) : Linked F { s with
    map := Function.update s.map (idAt F s l.page) none, list := s.list.dropLast } init := by
  have hids := h.ids
  rw [PageCache.ids, List.map_append, List.nodup_append] at hids
  have hits := h.its
  rw [List.map_append, List.nodup_append] at hits
  have hpages := h.pages
  rw [List.map_append, List.nodup_append] at hpages
  have hmem : ∀ e ∈ init, e ∈ init ++ [l] := fun e he => List.mem_append_left _ he
  refine ⟨?_, fun e he => ?_, fun x hx => ?_, hids.1, hits.1, hpages.1,
    fun e he => h.it_lt e (hmem e he), fun e he => h.page_lt e (hmem e he)⟩
  · change s.list.dropLast = _
    rw [h.list, List.map_append]
    exact List.dropLast_concat
  · change Function.update s.map _ none (idAt F s e.page) = _
    rw [Function.update_of_ne, h.map_some e (hmem e he)]
    exact hids.2.2 _ (List.mem_map.mpr ⟨e, he, rfl⟩) _ (List.mem_map.mpr ⟨l, by simp, rfl⟩)
  · change Function.update s.map _ none x = none
    by_cases hxl : x = idAt F s l.page
    · rw [hxl, Function.update_self]
    · rw [Function.update_of_ne hxl]
      refine h.map_none x fun hin => ?_
      obtain ⟨e, he, heq⟩ := mem_ids.mp hin
      rcases List.mem_append.mp he with he | he
      · exact hx (mem_ids.mpr ⟨e, he, heq⟩)
      · rw [List.mem_singleton.mp he] at heq
        exact hxl heq.symm

end Linked
end Kndb.PageCache
