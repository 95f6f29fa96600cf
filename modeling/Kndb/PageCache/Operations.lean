import Kndb.PageCache.Linked

namespace Kndb.PageCache

open Imp Imp.Prog

variable {P B : Type} {F : PageFormat P B}
variable {s s' : PageCache P B} {es es' init : List Entry} {e l : Entry} {id page : ℕ} {b : B} {p : P}
variable {fault : Option (WriteFault B)}

def outOfBounds : Exn := .runtimeError "BlockNo out of bounds"

def written (id : ℕ) (b : B) (s : PageCache P B) : PageCache P B :=
  { s with uses := s.uses + 1, blocks := Function.update s.blocks id b }

def used (s : PageCache P B) : PageCache P B := { s with uses := s.uses + 1 }

/-- The state after a write has failed, which has at most changed the block. -/
def failed (blocks : ℕ → B) (s : PageCache P B) : PageCache P B :=
  { s with uses := s.uses + 1, blocks := blocks }

/-- The block cannot be written. -/
def Refused (fault : Option (WriteFault B)) (s : PageCache P B) (id : ℕ) : Prop :=
  s.numBlocks ≤ id ∨ fault ≠ none

theorem refused_iff : Refused fault s id ↔ ¬(id < s.numBlocks ∧ fault = none) := by
  rw [Refused, not_and_or, not_lt]

theorem wp_writeBlock : (writeBlock fault b id).wp s
    (fun _ s' => fault = none ∧ id < s.numBlocks ∧ s' = setBlock id b s)
    (fun _ s' => Refused fault s id ∧ ∃ blocks, s' = { s with blocks := blocks }) fun _ => False := by
  unfold writeBlock
  rw [wp_bind, wp_gets]
  change Prog.wp (if s.numBlocks ≤ id then _ else _) s _ _ _
  split_ifs with hlt
  · exact ⟨.inl hlt, s.blocks, rfl⟩
  · rcases fault with _ | ⟨left⟩ | _
    · exact ⟨rfl, Nat.lt_of_not_le hlt, rfl⟩
    · exact ⟨.inr (Option.some_ne_none _), _, rfl⟩
    · exact ⟨.inr (Option.some_ne_none _), _, rfl⟩

theorem wp_writePage (h : Linked F s es) (he : e ∈ es) : (writePage F fault (idAt F s e.page)).wp s
    (fun _ s' => fault = none ∧ idAt F s e.page < s.numBlocks ∧
      ∃ b, F.toBytes (s.junk s.uses) (s.objects e.page) = some b ∧ s' = written (idAt F s e.page) b s)
    (fun _ s' => Refused fault s (idAt F s e.page) ∧ ∃ blocks, s' = failed blocks s)
    (fun x => x = .abort ∧ F.toBytes (s.junk s.uses) (s.objects e.page) = none) := by
  unfold writePage
  have hjunk : useJunk s = .ok (s.junk s.uses) (used s) := rfl
  rw [wp_bind, wp_of_ok (h.derefMap_eq he), wp_bind, wp_gets, wp_bind, wp_of_ok hjunk]
  cases hb : F.toBytes (s.junk s.uses) (s.objects e.page) with
  | none => exact ⟨rfl, rfl⟩
  | some b =>
    exact wp_mono wp_writeBlock (fun _ _ ⟨hf, hlt, hs⟩ => ⟨hf, hlt, b, rfl, hs⟩) (fun _ _ hR => hR) fun _ => False.elim

/-- `writePage` of an id that is not cached dereferences the entry that it has just made. -/
theorem writePage_of_none (h : s.map id = none) : writePage F fault id s = .abort "dereferenced list_it()" := by
  have hderef : derefMap id s = .abort "dereferenced list_it()" := by rw [derefMap, h]
  rw [writePage, bind_apply, seq, hderef]

/-- `s'` is `t` after the last page has been written and dropped, if there were too many. -/
structure Evicted (F : PageFormat P B) (t : PageCache P B) (es : List Entry) (s' : PageCache P B)
    (es' : List Entry) : Prop where
  linked : Linked F s' es'
  take : es' = es.take t.capacity
  objects : s'.objects = t.objects
  capacity : s'.capacity = t.capacity
  numBlocks : s'.numBlocks = t.numBlocks
  nextObject : s'.nextObject = t.nextObject
  junk : s'.junk = t.junk
  blocks : es' = es ∧ s'.blocks = t.blocks ∨ ∃ l b j, es = es' ++ [l] ∧ t.capacity < es.length ∧
    F.toBytes j (t.objects l.page) = some b ∧ idAt F t l.page < t.numBlocks ∧
    s'.blocks = Function.update t.blocks (idAt F t l.page) b

/-- One page too many, and the last one cannot be written. -/
structure Overfull (F : PageFormat P B) (fault : Option (WriteFault B)) (t : PageCache P B) (es : List Entry) :
    Prop where
  full : t.capacity < es.length
  refused : ∃ init l, es = init ++ [l] ∧ Refused fault t (idAt F t l.page)

/-- A check stops the process while the last page is being written. -/
def Unwritable (F : PageFormat P B) (t : PageCache P B) (es : List Entry) : Prop :=
  t.capacity < es.length ∧ ∃ init l, es = init ++ [l] ∧ F.toBytes (t.junk t.uses) (t.objects l.page) = none

theorem wp_evictBack (h : Linked F s es) (hsize : es.length ≤ s.capacity + 1) : (evictBack F fault).wp s
    (fun _ s' => ∃ es', Evicted F s es s' es')
    (fun _ s' => Overfull F fault s es ∧ ∃ blocks, s' = failed blocks s)
    (fun x => x = .abort ∧ Unwritable F s es) := by
  have hlen : s.list.length = es.length := by rw [h.list, List.length_map]
  by_cases hfull : es.length ≤ s.capacity
  · have hok : evictBack F fault s = .ok () s := if_pos (hlen ▸ hfull)
    rw [wp_of_ok hok]
    exact ⟨es, h, (List.take_of_length_le hfull).symm, rfl, rfl, rfl, rfl, rfl, .inl ⟨rfl, rfl⟩⟩
  have hfull' : s.capacity < es.length := Nat.lt_of_not_le hfull
  obtain ⟨init, l, rfl⟩ : ∃ init l, es = init ++ [l] := by
    refine ⟨es.dropLast, es.getLast fun hnil => ?_, (List.dropLast_append_getLast _).symm⟩
    rw [hnil] at hfull'
    exact absurd hfull' (Nat.not_lt_zero _)
  -- the page at the back of the list is the one that is written and dropped
  have hback : (s.list.getLast?).bind ListNode.page = some l.page := by
    rw [h.list, List.map_append, List.map_singleton, List.getLast?_concat]
    rfl
  have heq : evictBack F fault s = (do
      writePage F fault (idAt F s l.page)
      change fun s' : PageCache P B => { s' with
        map := Function.update s'.map (idAt F s l.page) none, list := s'.list.dropLast }) s := by
    unfold evictBack
    rw [if_neg (hlen ▸ hfull), hback]
    rfl
  have hwp : (do
      writePage F fault (idAt F s l.page)
      change fun s' : PageCache P B => { s' with
        map := Function.update s'.map (idAt F s l.page) none, list := s'.list.dropLast }).wp s
      (fun _ s' => ∃ es', Evicted F s (init ++ [l]) s' es')
      (fun _ s' => Overfull F fault s (init ++ [l]) ∧ ∃ blocks, s' = failed blocks s)
      (fun x => x = Stop.abort ∧ Unwritable F s (init ++ [l])) := by
    rw [wp_bind]
    refine wp_mono (wp_writePage h (e := l) (by simp)) ?_ ?_ ?_
    · rintro - _ ⟨-, hlt, b, hb, rfl⟩
      refine ⟨init, ?_, ?_, rfl, rfl, rfl, rfl, rfl, .inr ⟨l, b, _, rfl, hfull', hb, hlt, rfl⟩⟩
      · exact (h.pop).congr rfl rfl rfl le_rfl fun _ _ => rfl
      · rw [List.length_append, List.length_singleton] at hsize hfull'
        rw [List.take_append_of_le_length (by omega), List.take_of_length_le (by omega)]
    · rintro ex s' ⟨hno, blocks, rfl⟩
      exact ⟨⟨hfull', init, l, rfl, hno⟩, blocks, rfl⟩
    · rintro x ⟨rfl, hnone⟩
      exact ⟨rfl, hfull', init, l, rfl, hnone⟩
  unfold Prog.wp
  rw [heq]
  exact hwp

def placed (p : P) (s : PageCache P B) : PageCache P B :=
  { s with objects := Function.update s.objects s.nextObject p, nextObject := s.nextObject + 1 }

def inserted (F : PageFormat P B) (p : P) (s : PageCache P B) : PageCache P B :=
  pushFront s.nextObject (F.pageID p) (eraseNode (F.pageID p) (placed p s))

/-- The entries with a new one in front, which takes the place of the page of `id`. -/
def toFront (F : PageFormat P B) (page id : ℕ) (s : PageCache P B) (es : List Entry) : List Entry :=
  ⟨s.nextIt, page⟩ :: es.filter fun e => idAt F s e.page ≠ id

theorem idAt_placed_of_lt (h : page < s.nextObject) : idAt F (placed p s) page = idAt F s page :=
  congrArg F.pageID (Function.update_of_ne h.ne ..)

theorem idAt_placed (p : P) (s : PageCache P B) : idAt F (placed p s) s.nextObject = F.pageID p :=
  congrArg F.pageID (Function.update_self ..)

theorem Linked.placed (h : Linked F s es) (p : P) : Linked F (placed p s) es :=
  h.congr rfl rfl rfl (Nat.le_succ _) fun e he => idAt_placed_of_lt (h.page_lt e he)

theorem Linked.filter_placed (h : Linked F s es) (p : P) :
    (es.filter fun e => decide (idAt F (PageCache.placed p s) e.page ≠ id)) =
      es.filter fun e => idAt F s e.page ≠ id := by
  apply List.filter_congr
  intro e he
  rw [idAt_placed_of_lt (h.page_lt e he)]

theorem Linked.inserted (h : Linked F s es) (p : P) :
    Linked F (inserted F p s) (toFront F s.nextObject (F.pageID p) s es) := by
  have hp := h.placed p
  have hpush := hp.push (hp.eraseNode_list (F.pageID p)) (idAt_placed p s) (Nat.lt_succ_self _)
    fun e he _ => (h.page_lt e he).ne
  unfold toFront
  rw [← h.filter_placed p]
  exact hpush

theorem updateLRU_eq (page : ℕ) (s : PageCache P B) : updateLRU F fault page s =
    evictBack F fault (pushFront page (idAt F s page) (eraseNode (idAt F s page) s)) := rfl

theorem updateLRU_placed (p : P) (s : PageCache P B) :
    updateLRU F fault s.nextObject (placed p s) = evictBack F fault (inserted F p s) := by
  rw [updateLRU_eq, idAt_placed]
  rfl

theorem toFront_length_le : (toFront F page id s es).length ≤ es.length + 1 :=
  Nat.succ_le_succ (List.length_filter_le ..)

theorem wp_updateLRU_placed (h : Linked F s es) (hsize : es.length ≤ s.capacity) (fault : Option (WriteFault B))
    (p : P) :
    (updateLRU F fault s.nextObject).wp (placed p s)
      (fun _ s' => ∃ es', Evicted F (inserted F p s) (toFront F s.nextObject (F.pageID p) s es) s' es')
      (fun _ s' => Overfull F fault (inserted F p s) (toFront F s.nextObject (F.pageID p) s es) ∧
        ∃ blocks, s' = failed blocks (inserted F p s))
      (fun x => x = .abort ∧
        Unwritable F (inserted F p s) (toFront F s.nextObject (F.pageID p) s es)) := by
  unfold Prog.wp
  rw [updateLRU_placed]
  exact wp_evictBack (h.inserted p) (toFront_length_le.trans (Nat.succ_le_succ hsize))

theorem wp_insertPage (h : Linked F s es) (hsize : es.length ≤ s.capacity) (p : P) :
    (insertPage F fault p).wp s
      (fun _ s' => ∃ es', Evicted F (inserted F p s) (toFront F s.nextObject (F.pageID p) s es) s' es')
      (fun _ s' => Overfull F fault (inserted F p s) (toFront F s.nextObject (F.pageID p) s es) ∧
        ∃ blocks, s' = failed blocks (inserted F p s))
      (fun x => x = .abort ∧
        Unwritable F (inserted F p s) (toFront F s.nextObject (F.pageID p) s es)) :=
  wp_updateLRU_placed h hsize fault p

/-- The state of `retrievePage` after a page that is cached has moved to the front. -/
def touched (F : PageFormat P B) (e : Entry) (s : PageCache P B) : PageCache P B :=
  pushFront e.page (idAt F s e.page) (eraseNode (idAt F s e.page) { s with
    list := s.list.map fun n => if n.page = some e.page then { n with page := none } else n })

theorem Linked.touched (h : Linked F s es) (he : e ∈ es) :
    Linked F (touched F e s) (toFront F e.page (idAt F s e.page) s es) := by
  refine h.push ?_ rfl (h.page_lt e he) fun e' he' hne heq => hne (congrArg (idAt F s) heq)
  simp only [eraseNode, h.map_some e he]
  rw [h.list, List.map_map]
  refine h.filter_it_map he (fun e' => ?_) fun e' he' hne => ?_
  · rw [Function.comp]
    split_ifs <;> rfl
  · rw [Function.comp, if_neg]
    exact fun hp => hne (h.eq_of_page he' he (Option.some.inj hp))

theorem Linked.toFront_length (he : e ∈ es) :
    (toFront F e.page (idAt F s e.page) s es).length ≤ es.length := by
  refine Nat.succ_le_of_lt (List.length_filter_lt_length_iff_exists.mpr ⟨e, he, ?_⟩)
  simp

theorem retrievePage_hit (h : Linked F s es) (he : e ∈ es) (hsize : es.length ≤ s.capacity)
    (T : PageType) : retrievePage F fault T (idAt F s e.page) s =
      if F.type (s.objects e.page) = T then .ok e.page (touched F e s)
      else .throw .badCast (touched F e s) := by
  have hfront := h.touched he
  have hmap : (s.map (idAt F s e.page)).isSome = true := by
    rw [h.map_some e he]
    rfl
  have hmove : moveOut (idAt F s e.page) s = .ok e.page { s with
      list := s.list.map fun n => if n.page = some e.page then { n with page := none } else n } := by
    rw [moveOut, bind_ok (h.derefMap_eq he)]
    rfl
  -- the page leaves its place before it comes to the front, so the list is not longer
  have hevict : evictBack F fault (touched F e s) = .ok () (touched F e s) := by
    refine if_pos ?_
    rw [hfront.list, List.length_map]
    exact (Linked.toFront_length he).trans hsize
  have hupdate : updateLRU F fault e.page { s with
      list := s.list.map fun n => if n.page = some e.page then { n with page := none } else n } =
        .ok () (touched F e s) := hevict
  have hderef : derefMap (idAt F s e.page) (touched F e s) = .ok e.page (touched F e s) :=
    hfront.derefMap_eq (e := ⟨s.nextIt, e.page⟩) (List.mem_cons_self ..)
  have hcase : retrievePage F fault T (idAt F s e.page) s = (do
      updateLRU F fault (← moveOut (idAt F s e.page))
      let page ← derefMap (idAt F s e.page)
      if F.type (← gets fun s => s.objects page) = T then return page else raise .badCast) s := by
    change (do
      if (s.map (idAt F s e.page)).isSome then
        updateLRU F fault (← moveOut (idAt F s e.page))
      else
        updateLRU F fault (← readPage F T (idAt F s e.page))
      let page ← derefMap (idAt F s e.page)
      if F.type (← gets fun s => s.objects page) = T then return page else raise .badCast) s = _
    rw [hmap]
    rfl
  rw [hcase, bind_ok hmove, bind_ok hupdate, bind_ok hderef]
  change (if F.type (s.objects e.page) = T then _ else _ : CacheM P B ℕ) (touched F e s) = _
  split_ifs <;> rfl

theorem wp_readPage (T : PageType) (id : ℕ) (s : PageCache P B) : (readPage F T id).wp s
    (fun page s' => id < s.numBlocks ∧ page = s.nextObject ∧
      ∃ p, F.ofBytes (s.junk s.uses) T id (s.blocks id) = some p ∧ s' = placed p (used s))
    (fun ex s' => s.numBlocks ≤ id ∧ ex = outOfBounds ∧ s' = s)
    (fun x => x = .abort ∧ id < s.numBlocks ∧
      F.ofBytes (s.junk s.uses) T id (s.blocks id) = none) := by
  unfold readPage
  rw [wp_bind]
  by_cases hlt : s.numBlocks ≤ id
  · have hread : readBlock id s = .throw outOfBounds s := by
      change (do
        if s.numBlocks ≤ id then raise outOfBounds
        gets fun s => s.blocks id : CacheM P B B) s = _
      rw [if_pos hlt]
      rfl
    rw [wp_of_throw hread]
    exact ⟨hlt, rfl, rfl⟩
  · have hread : readBlock id s = .ok (s.blocks id) s := by
      change (do
        if s.numBlocks ≤ id then raise outOfBounds
        gets fun s => s.blocks id : CacheM P B B) s = _
      rw [if_neg hlt]
      rfl
    have hjunk : useJunk s = .ok (s.junk s.uses) (used s) := rfl
    rw [wp_of_ok hread, wp_bind, wp_of_ok hjunk]
    cases hp : F.ofBytes (s.junk s.uses) T id (s.blocks id) with
    | none => exact ⟨rfl, Nat.lt_of_not_le hlt, rfl⟩
    | some p => exact ⟨Nat.lt_of_not_le hlt, rfl, p, rfl, rfl⟩

/-- The page in front is the one that `retrievePage` returns, unless the capacity is 0. -/
theorem Evicted.derefMap_front {t : PageCache P B} (h : Evicted F t (e :: es) s' es')
    (hcap : t.capacity ≠ 0) : derefMap (idAt F t e.page) s' = .ok e.page s' := by
  have he : e ∈ es' := by
    rw [h.take]
    obtain ⟨k, hk⟩ := Nat.exists_eq_succ_of_ne_zero hcap
    rw [hk, List.take_succ_cons]
    exact List.mem_cons_self ..
  have := h.linked.derefMap_eq he
  rwa [idAt, h.objects] at this

theorem Evicted.derefMap_zero {t : PageCache P B} (h : Evicted F t es s' es') (hcap : t.capacity = 0)
    (id : ℕ) : ∃ m, derefMap id s' = .abort m := by
  have hnil : es' = [] := by rw [h.take, hcap, List.take_zero]
  refine ⟨"dereferenced list_it()", ?_⟩
  rw [derefMap, h.linked.map_none id (by rw [hnil]; exact List.not_mem_nil)]

theorem wp_retrievePage_miss (h : Linked F s es) (hsize : es.length ≤ s.capacity)
    (hid : id ∉ ids F s es) (T : PageType) : (retrievePage F fault T id).wp s
      (fun page s' => id < s.numBlocks ∧ page = s.nextObject ∧ s.capacity ≠ 0 ∧
        ∃ p, F.ofBytes (s.junk s.uses) T id (s.blocks id) = some p ∧
          ∃ es', Evicted F (inserted F p (used s)) (toFront F s.nextObject id s es) s' es')
      (fun _ s' => s.numBlocks ≤ id ∧ s' = s ∨ id < s.numBlocks ∧
        ∃ p, F.ofBytes (s.junk s.uses) T id (s.blocks id) = some p ∧
          Overfull F fault (inserted F p (used s)) (toFront F s.nextObject id s es) ∧
            ∃ blocks, s' = failed blocks (inserted F p (used s)))
      (fun x => x = .abort ∧ id < s.numBlocks ∧
        (F.ofBytes (s.junk s.uses) T id (s.blocks id) = none ∨
        ∃ p, F.ofBytes (s.junk s.uses) T id (s.blocks id) = some p ∧ (s.capacity = 0 ∨
          Unwritable F (inserted F p (used s)) (toFront F s.nextObject id s es)))) := by
  have hmap : (s.map id).isSome = false := by
    rw [h.map_none id hid]
    rfl
  have heq : retrievePage F fault T id s = (do
      let page ← readPage F T id
      updateLRU F fault page
      let page ← derefMap id
      if F.type (← gets fun s => s.objects page) = T then return page else raise .badCast) s := by
    change (do
      if (s.map id).isSome then
        updateLRU F fault (← moveOut id)
      else
        updateLRU F fault (← readPage F T id)
      let page ← derefMap id
      if F.type (← gets fun s => s.objects page) = T then return page else raise .badCast) s = _
    rw [hmap]
    rfl
  rw [wp_congr heq, wp_bind]
  refine wp_mono (wp_readPage T id s) ?_ ?_ ?_
  · rintro page s₁ ⟨hlt, rfl, p, hp, rfl⟩
    have hpid := F.pageID_ofBytes hp
    have hused : Linked F (used s) es := h.congr rfl rfl rfl le_rfl fun _ _ => rfl
    rw [wp_bind]
    have hupdate := wp_updateLRU_placed hused hsize fault p
    rw [hpid] at hupdate
    refine wp_mono hupdate ?_ ?_ ?_
    · rintro - s' ⟨es', hev⟩
      rw [wp_bind]
      -- with capacity 0 the page just read is the one that is evicted
      by_cases hcap : s.capacity = 0
      · obtain ⟨m, hm⟩ := hev.derefMap_zero hcap id
        rw [wp_of_abort hm]
        exact ⟨rfl, hlt, .inr ⟨p, hp, .inl hcap⟩⟩
      · have hfront : derefMap id s' = .ok s.nextObject s' := by
          rw [← hpid, ← idAt_placed p (used s)]
          exact hev.derefMap_front hcap
        have htype : F.type (s'.objects s.nextObject) = T := by
          rw [hev.objects, show (inserted F p (used s)).objects s.nextObject = p from
            Function.update_self .., F.type_ofBytes hp]
        rw [wp_of_ok hfront, wp_bind, wp_gets, if_pos htype, wp_pure]
        exact ⟨hlt, rfl, hcap, p, hp, es', hev⟩
    · rintro ex s' ⟨hover, blocks, rfl⟩
      exact .inr ⟨hlt, p, hp, hover, blocks, rfl⟩
    · rintro x ⟨rfl, hun⟩
      exact ⟨rfl, hlt, .inr ⟨p, hp, .inr hun⟩⟩
  · rintro ex s' ⟨hle, -, rfl⟩
    exact .inl ⟨hle, rfl⟩
  · rintro x ⟨rfl, hlt, hnone⟩
    exact ⟨rfl, hlt, .inl hnone⟩

end Kndb.PageCache
