import Kndb.FSMPage.Bytes

namespace Kndb.FSMPage

open Imp.Prog Codec

/-- The pages that calls have made of a new one.  Any bit may be freed, also that of the page. -/
inductive Run (pageID : ℕ) : FSMPage → Prop
  | new : Run pageID (.new pageID)
  | allocated {p p' : FSMPage} {idx : ℕ} (h : Run pageID p) (hr : FSMPage.allocBit idx p = .ok () p') :
    Run pageID p'
  | freed {p p' : FSMPage} {idx : ℕ} (h : Run pageID p) (hr : FSMPage.freeBit idx p = .ok () p') :
    Run pageID p'
  | linked {p : FSMPage} {n : ℕ} (h : Run pageID p) (hn : n < 2 ^ 32) : Run pageID (p.setNextPageID n)

/-- No call can tell `q` from `p`: it answers the same, or fails the same check. -/
structure Indistinguishable (p q : FSMPage) : Prop where
  bitmap : q.bitmap = p.bitmap
  isFree : ∀ idx, (FSMPage.isFree idx q).value? = (FSMPage.isFree idx p).value?
  allocBit : ∀ idx, (FSMPage.allocBit idx q).value? = (FSMPage.allocBit idx p).value?
  findNextFree : (FSMPage.findNextFree q).value? = (FSMPage.findNextFree p).value?
  spaceLeft : q.freeBlocks = p.freeBlocks
  nextPageID : q.nextPageID = p.nextPageID

/-- The bitmap of a new page, and a counter that is right. -/
structure Counted (p : FSMPage) : Prop where
  length : p.bitmap.length = PG_SZ - 4 * 3
  next_lt : p.nextPageID < 2 ^ 32
  count : p.freeBlocks = p.freeBits.card

variable {p p' q : FSMPage} {i pageID : ℕ}

theorem ok_of_isFree {b : Bool} (h : isFree i p = .ok b p') : i < p.bitmap.length * 8 ∧ b = !p.used i ∧ p' = p := by
  obtain ⟨hlt, h⟩ := ok_of_require (b := decide (i < p.bitmap.length * 8)) h
  cases h
  exact ⟨of_decide_eq_true hlt, rfl, rfl⟩

theorem ok_of_allocBit (h : allocBit i p = .ok () p') :
    i < p.bitmap.length * 8 ∧ 0 < p.freeBlocks ∧ p.used i = false ∧ p' = p.alloc i := by
  obtain ⟨-, h⟩ := ok_of_require (b := decide (i < p.bitmap.length * 8)) h
  obtain ⟨hpos, h⟩ := ok_of_require h
  obtain ⟨b, s, hfree, h⟩ := ok_of_bind h
  obtain ⟨hlt, rfl, rfl⟩ := ok_of_isFree hfree
  obtain ⟨hfree, h⟩ := ok_of_require h
  cases h
  exact ⟨hlt, of_decide_eq_true hpos, by simpa using hfree, rfl⟩

theorem ok_of_freeBit (h : freeBit i p = .ok () p') :
    i < p.bitmap.length * 8 ∧ p.used i = true ∧ p' = p.free i := by
  obtain ⟨b, s, hfree, h⟩ := ok_of_bind h
  obtain ⟨hlt, rfl, rfl⟩ := ok_of_isFree hfree
  obtain ⟨hused, h⟩ := ok_of_require h
  obtain ⟨-, h⟩ := ok_of_require (b := decide (s.freeBlocks < s.bitmap.length * 8)) h
  cases h
  exact ⟨hlt, by simpa using hused, rfl⟩

theorem Counted.bits (h : p.Counted) : p.bitmap.length * 8 = getBlocksInPage := by
  rw [h.length]
  rfl

theorem Counted.alloc (h : p.Counted) (hlt : i < p.bitmap.length * 8) (hfree : p.used i = false) :
    (p.alloc i).Counted := by
  have hmem : i ∈ p.freeBits := mem_freeBits.mpr ⟨h.bits ▸ hlt, hfree⟩
  refine ⟨flip_length.trans h.length, h.next_lt, ?_⟩
  rw [alloc_freeBits hlt hfree, Finset.card_erase_of_mem hmem, ← h.count]
  rfl

theorem Counted.free (h : p.Counted) (hlt : i < p.bitmap.length * 8) (hused : p.used i = true) :
    (p.free i).Counted := by
  have hnot : i ∉ p.freeBits := by
    rw [mem_freeBits, hused]
    simp
  refine ⟨flip_length.trans h.length, h.next_lt, ?_⟩
  rw [free_freeBits (h.bits ▸ hlt) hlt hused, Finset.card_insert_of_notMem hnot, ← h.count]
  rfl

theorem Run.counted (h : Run pageID p) : p.Counted := by
  induction h with
  | new =>
    have hlen : (FSMPage.new pageID).bitmap.length = PG_SZ - 4 * 3 := flip_length.trans List.length_replicate
    exact ⟨hlen, (sound_new pageID).1.next_lt, (sound_new pageID).1.count⟩
  | allocated _ hr ih =>
    obtain ⟨hlt, -, hfree, rfl⟩ := ok_of_allocBit hr
    exact ih.alloc hlt hfree
  | freed _ hr ih =>
    obtain ⟨hlt, hused, rfl⟩ := ok_of_freeBit hr
    exact ih.free hlt hused
  | linked _ hn ih => exact ⟨ih.length, hn, ih.count⟩

theorem isFree_value (i : ℕ) (p : FSMPage) :
    (isFree i p).value? = if i < p.bitmap.length * 8 then some (!p.used i) else none := by
  split_ifs with h
  · rw [isFree_eq h]
    rfl
  · have hf : decide (i < p.bitmap.length * 8) = false := decide_eq_false h
    change Imp.Outcome.value? ((require (decide (i < p.bitmap.length * 8)) _ >>= fun _ => _) p) = _
    rw [hf]
    rfl

theorem allocBit_value (i : ℕ) (p : FSMPage) : (allocBit i p).value? =
    if i < p.bitmap.length * 8 ∧ 0 < p.freeBlocks ∧ p.used i = false then some () else none := by
  split_ifs with h
  · rw [allocBit_eq h.1 h.2.1 h.2.2]
    rfl
  · rcases hr : allocBit i p with ⟨⟨⟩, p'⟩ | _ | _ | _
    · obtain ⟨hlt, hpos, hfree, -⟩ := ok_of_allocBit hr
      exact absurd ⟨hlt, hpos, hfree⟩ h
    all_goals rfl

theorem findNextFree_value (p : FSMPage) : (findNextFree p).value? =
    if 0 < p.freeBlocks then (List.range (p.bitmap.length * 8)).find? (fun i => !p.used i) else none := by
  split_ifs with h
  · unfold findNextFree
    rw [bind_ok (show gets id p = .ok p p from rfl), bind_ok (require_ok _ _ (decide_eq_true h))]
    cases (List.range (p.bitmap.length * 8)).find? (fun i => !p.used i) <;> rfl
  · have hf : decide (0 < p.freeBlocks) = false := decide_eq_false h
    change Imp.Outcome.value? ((require (decide (0 < p.freeBlocks)) _ >>= fun _ => _) p) = _
    rw [hf]
    rfl

/-- What is the same on the page read back: everything but the bits from 32672 to 32695. -/
structure Agrees (p q : FSMPage) : Prop where
  isFree : ∀ idx, (FSMPage.isFree idx q).value? = (FSMPage.isFree idx p).value? ↔ idx < 32672 ∨ 32696 ≤ idx
  allocBit : ∀ idx, idx < 32672 ∨ 32696 ≤ idx →
    (FSMPage.allocBit idx q).value? = (FSMPage.allocBit idx p).value?
  findNextFree : (FSMPage.findNextFree q).value? = (FSMPage.findNextFree p).value?
  spaceLeft : q.freeBlocks = p.freeBlocks
  nextPageID : q.nextPageID = p.nextPageID

theorem Counted.findNextFree_extends (h : p.Counted) (he : Extends p q) :
    (findNextFree q).value? = (findNextFree p).value? := by
  rw [findNextFree_value, findNextFree_value, he.freeBlocks]
  split_ifs with hpos
  swap
  · rfl
  have hsome : ((List.range (p.bitmap.length * 8)).find? (fun i => !p.used i)).isSome := by
    rw [h.count] at hpos
    obtain ⟨i, hi⟩ := Finset.card_pos.mp hpos
    obtain ⟨hlt, hfree⟩ := mem_freeBits.mp hi
    rw [List.find?_isSome]
    exact ⟨i, List.mem_range.mpr (h.bits.symm ▸ hlt), by simp [hfree]⟩
  obtain ⟨i, hi⟩ := Option.isSome_iff_exists.mp hsome
  rw [hi, he.find?_eq hi]

theorem Counted.agrees (h : p.Counted) (he : Extends p q) (hlen : q.bitmap.length = PG_SZ - 9) :
    Agrees p q where
  isFree idx := by
    have hp : p.bitmap.length * 8 = 32672 := h.bits
    have hq : q.bitmap.length * 8 = 32696 := by rw [hlen]; rfl
    rw [isFree_value, isFree_value, hp, hq]
    by_cases h1 : idx < 32672
    · rw [if_pos h1, if_pos (by omega), he.used (hp ▸ h1)]
      simp [h1]
    · rw [if_neg h1]
      by_cases h2 : idx < 32696
      · rw [if_pos h2]
        simp
        omega
      · rw [if_neg h2]
        simp
        omega
  allocBit idx hidx := by
    have hp : p.bitmap.length * 8 = 32672 := h.bits
    have hq : q.bitmap.length * 8 = 32696 := by rw [hlen]; rfl
    rw [allocBit_value, allocBit_value, hp, hq, he.freeBlocks]
    rcases hidx with h1 | h2
    · have h2 : idx < 32696 := by omega
      simp only [h1, h2, true_and, he.used (hp ▸ h1)]
    · rw [if_neg (by omega), if_neg (by omega)]
  findNextFree := h.findNextFree_extends he
  spaceLeft := he.freeBlocks
  nextPageID := he.nextPageID

theorem Run.reread (h : Run pageID p) (J : Junk) :
    ∃ out q, toBytes p [] = .ok () out ∧ parse p.pageID (fillBlock J out) = .ok q [] ∧ Extends p q ∧
      q.bitmap.length = PG_SZ - 9 := by
  have hc := h.counted
  have hfree : p.freeBlocks < 2 ^ 32 := by
    rw [hc.count]
    exact (Finset.card_filter_le _ _).trans_lt (by rw [Finset.card_range]; decide)
  have hfits : 9 + p.bitmap.length ≤ PG_SZ := by
    rw [hc.length]
    decide
  obtain ⟨out, tail, hw, -, hlen, hr⟩ := reread_append hc.next_lt hfree hfits J
  exact ⟨out, _, hw, hr, ⟨rfl, rfl, rfl, _, rfl⟩, by change (p.bitmap ++ tail).length = _; omega⟩

/-- No reachable page comes back as it was: there are three bytes of bitmap more, and only there it
differs. -/
theorem not_indistinguishable_of_run (h : Run pageID p) (J : Junk) :
    ∃ out q, toBytes p [] = .ok () out ∧ parse p.pageID (fillBlock J out) = .ok q [] ∧
      ¬Indistinguishable p q ∧ q.bitmap.length = p.bitmap.length + 3 ∧ Agrees p q := by
  obtain ⟨out, q, hw, hr, he, hlen⟩ := h.reread J
  have hthree : q.bitmap.length = p.bitmap.length + 3 := by
    rw [hlen, h.counted.length]
    rfl
  refine ⟨out, q, hw, hr, fun hi => ?_, hthree, h.counted.agrees he hlen⟩
  rw [hi.bitmap] at hthree
  omega

theorem not_indistinguishable_new :
    ∃ out q, toBytes (new 0) [] = .ok () out ∧ parse 0 (fillBlock ⟨fun _ => 0, fun _ => []⟩ out) = .ok q [] ∧
      ¬Indistinguishable (new 0) q ∧ q.bitmap.length = (new 0).bitmap.length + 3 ∧ Agrees (new 0) q :=
  not_indistinguishable_of_run .new ⟨fun _ => 0, fun _ => []⟩

/-- Index 32672 fails the bounds check on a new page and passes it on the page read back. -/
theorem indistinguishable_counterexample :
    ∃ out q, toBytes (new 0) [] = .ok () out ∧ parse 0 (fillBlock ⟨fun _ => 0, fun _ => []⟩ out) = .ok q [] ∧
      (isFree 32672 (new 0)).value? = none ∧ (isFree 32672 q).value?.isSome := by
  obtain ⟨out, q, hw, hr, he, hlen⟩ := (show Run 0 (new 0) from .new).reread ⟨fun _ => 0, fun _ => []⟩
  refine ⟨out, q, hw, hr, ?_, ?_⟩
  · rw [isFree_value, Run.new.counted.bits, if_neg (by decide)]
  · rw [isFree_value, hlen, if_pos (by decide)]
    rfl

end Kndb.FSMPage
