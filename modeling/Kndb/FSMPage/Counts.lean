import Kndb.FSMPage.Reread

namespace Kndb.FSMPage

open Imp.Prog

/-- The counter counts the bits that are free, a call changes the bit of its index and no other, and the
first free bit is found if there is any. -/
structure InStep (p : FSMPage) : Prop where
  spaceLeft : p.freeBlocks = {i ∈ Finset.range getBlocksInPage | (isFree i p).value? = some true}.card
  allocBit : ∀ i p', FSMPage.allocBit i p = .ok () p' →
    ∀ j, (isFree j p').value? = (isFree j p).value? ↔ j ≠ i
  freeBit : ∀ i p', FSMPage.freeBit i p = .ok () p' →
    ∀ j, (isFree j p').value? = (isFree j p).value? ↔ j ≠ i
  findNextFree : 0 < p.freeBlocks → ∃ i < getBlocksInPage, FSMPage.findNextFree p = .ok i p ∧
    isFree i p = .ok true p ∧ ∀ j < i, isFree j p = .ok false p

variable {p : FSMPage} {i pageID : ℕ}

theorem isFree_flip_iff {n : ℕ} (hlt : i < p.bitmap.length * 8) (j : ℕ) :
    (isFree j ((p.setFreeBlocks n).flip i)).value? = (isFree j p).value? ↔ j ≠ i := by
  have hused : ((p.setFreeBlocks n).flip i).used j = (p.used j ^^ decide (j = i)) := flip_used hlt
  have hlen : ((p.setFreeBlocks n).flip i).bitmap.length = p.bitmap.length := flip_length
  rw [isFree_value, isFree_value, hlen, hused]
  constructor
  · rintro h rfl
    rw [if_pos hlt, if_pos hlt] at h
    simp at h
  · intro hj
    rw [decide_eq_false hj, Bool.xor_false]

theorem Counted.spaceLeft (h : p.Counted) :
    p.freeBlocks = {i ∈ Finset.range getBlocksInPage | (isFree i p).value? = some true}.card := by
  refine h.count.trans (congrArg Finset.card (Finset.filter_congr fun i hi => ?_))
  rw [isFree_value, h.bits, if_pos (Finset.mem_range.mp hi), Option.some.injEq, Bool.not_eq_true']

theorem Counted.findNextFree (h : p.Counted) (hpos : 0 < p.freeBlocks) :
    ∃ i < getBlocksInPage, FSMPage.findNextFree p = .ok i p ∧ isFree i p = .ok true p ∧
      ∀ j < i, isFree j p = .ok false p := by
  obtain ⟨k, hk⟩ := Finset.card_pos.mp (h.count ▸ hpos)
  obtain ⟨hklt, hkfree⟩ := mem_freeBits.mp hk
  have hsome : ((List.range (p.bitmap.length * 8)).find? fun i => !p.used i).isSome := by
    rw [List.find?_isSome]
    exact ⟨k, List.mem_range.mpr (h.bits.symm ▸ hklt), by simp [hkfree]⟩
  obtain ⟨i, hi⟩ := Option.isSome_iff_exists.mp hsome
  obtain ⟨hfree, hmem, hbefore⟩ := List.find?_range_eq_some.mp hi
  have hlt : i < p.bitmap.length * 8 := List.mem_range.mp hmem
  refine ⟨i, h.bits ▸ hlt, ?_, ?_, fun j hj => ?_⟩
  · unfold FSMPage.findNextFree
    rw [bind_ok (show gets id p = .ok p p from rfl), bind_ok (require_ok _ _ (decide_eq_true hpos)), hi]
    rfl
  · rw [isFree_eq hlt, hfree]
  · rw [isFree_eq (hj.trans hlt)]
    simpa using hbefore j hj

theorem inStep_of_run (h : Run pageID p) : InStep p := by
  have hc := h.counted
  refine ⟨hc.spaceLeft, fun i p' hr => ?_, fun i p' hr => ?_, hc.findNextFree⟩
  · obtain ⟨hlt, -, -, rfl⟩ := ok_of_allocBit hr
    exact isFree_flip_iff hlt
  · obtain ⟨hlt, -, rfl⟩ := ok_of_freeBit hr
    exact isFree_flip_iff hlt

/-- A new page, after two bits have been allocated, one has been freed and a bitmap has been linked. -/
theorem inStep_new : ∃ p₁ p₂ p₃, FSMPage.allocBit 1 (new 0) = .ok () p₁ ∧ FSMPage.allocBit 7 p₁ = .ok () p₂ ∧
    InStep p₂ ∧ FSMPage.freeBit 1 p₂ = .ok () p₃ ∧ InStep p₃ ∧ InStep (p₃.setNextPageID 32672) := by
  obtain ⟨h₀, hbits₀⟩ := sound_new 0
  have hfree : ∀ i, i ≠ 0 → i < getBlocksInPage → i ∈ (new 0).freeBits := fun i hi hlt => by
    rw [hbits₀]
    exact Finset.mem_erase.mpr ⟨hi, Finset.mem_range.mpr hlt⟩
  obtain ⟨hr₁, hbits₁, h₁⟩ := h₀.allocBit (hfree 1 (by decide) (by decide))
  obtain ⟨hr₂, hbits₂, h₂⟩ := h₁.allocBit (i := 7) (by
    rw [hbits₁]
    exact Finset.mem_erase.mpr ⟨by decide, hfree 7 (by decide) (by decide)⟩)
  have hused : (((new 0).alloc 1).alloc 7).used 1 = true := by
    by_contra hfree
    have hmem : 1 ∈ (((new 0).alloc 1).alloc 7).freeBits :=
      mem_freeBits.mpr ⟨by decide, Bool.eq_false_of_not_eq_true hfree⟩
    rw [hbits₂, hbits₁] at hmem
    simp at hmem
  obtain ⟨hr₃, -, -⟩ := h₂.freeBit (by decide) hused (by decide)
  have hrun₂ := (Run.new.allocated hr₁).allocated hr₂
  have hrun₃ := hrun₂.freed hr₃
  exact ⟨_, _, _, hr₁, hr₂, inStep_of_run hrun₂, hr₃, inStep_of_run hrun₃, inStep_of_run (hrun₃.linked (by decide))⟩

end Kndb.FSMPage
