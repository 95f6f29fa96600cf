import Mathlib.Data.Finset.Card
import Mathlib.Data.Finset.Range
import Kndb.Types

namespace Kndb

open Imp.Prog

structure FSMPage where
  pageID : ℕ
  nextPageID : ℕ
  freeBlocks : ℕ
  bitmap : List Byte
deriving DecidableEq, Repr

namespace FSMPage

/-- `(PG_SZ - sizeof(u32) * 3) * 8`. -/
def getBlocksInPage : ℕ := (PG_SZ - 4 * 3) * 8

/-- The bit that `m_bitmap[idx / 8] & 1 << (idx % 8)` tests. -/
def used (p : FSMPage) (idx : ℕ) : Bool := (p.bitmap.getD (idx / 8) 0).getLsbD (idx % 8)

/-- `m_bitmap[idx / 8] ^= 1 << (idx % 8)`. -/
def flip (idx : ℕ) (p : FSMPage) : FSMPage :=
  { p with bitmap := p.bitmap.modify (idx / 8) (· ^^^ (1#8 <<< (idx % 8))) }

def setNextPageID (pageID : ℕ) (p : FSMPage) : FSMPage := { p with nextPageID := pageID }
def setFreeBlocks (n : ℕ) (p : FSMPage) : FSMPage := { p with freeBlocks := n }

def isFree (idx : ℕ) : Code FSMPage Bool := do
  let p ← gets id
  require (idx < p.bitmap.length * 8) "Index is out of bounds"
  return !p.used idx

def allocBit (idx : ℕ) : Code FSMPage Unit := do
  let p ← gets id
  require (idx < p.bitmap.length * 8) "Index is out of bounds"
  require (0 < p.freeBlocks) "This bitmap page is already completely filled"
  require (← isFree idx) "That block is already being used"
  change fun p => (p.setFreeBlocks (p.freeBlocks - 1)).flip idx

def freeBit (idx : ℕ) : Code FSMPage Unit := do
  require (!(← isFree idx)) "That bit is already free"
  let p ← gets id
  require (p.freeBlocks < p.bitmap.length * 8) "Bitmap has more free blocks than feasibly possible"
  change fun p => (p.setFreeBlocks (p.freeBlocks + 1)).flip idx

def findNextFree : Code FSMPage ℕ := do
  let p ← gets id
  require (0 < p.freeBlocks) "This bitmap page is already completely filled"
  match (List.range (p.bitmap.length * 8)).find? fun i => !p.used i with
  | some i => return i
  | none => halt "No free page has been found"

def blank (pageID : ℕ) : FSMPage where
  pageID := pageID
  nextPageID := PGID_INVALID
  freeBlocks := (PG_SZ - 4 * 3) * 8
  bitmap := List.replicate (PG_SZ - 4 * 3) 0

def new (pageID : ℕ) : FSMPage :=
  ((blank pageID).setFreeBlocks ((blank pageID).freeBlocks - 1)).flip 0

section Bits

variable {p : FSMPage} {idx j : ℕ}

@[simp] theorem flip_length : (p.flip idx).bitmap.length = p.bitmap.length := by
  simp [flip]

@[simp] theorem flip_freeBlocks : (p.flip idx).freeBlocks = p.freeBlocks := rfl
@[simp] theorem flip_nextPageID : (p.flip idx).nextPageID = p.nextPageID := rfl
@[simp] theorem flip_pageID : (p.flip idx).pageID = p.pageID := rfl
@[simp] theorem setFreeBlocks_used (n : ℕ) : (p.setFreeBlocks n).used idx = p.used idx := rfl
@[simp] theorem setNextPageID_used (n : ℕ) : (p.setNextPageID n).used idx = p.used idx := rfl

theorem getLsbD_xor_shiftLeft (b : Byte) {k i : ℕ} (hi : i < 8) :
    (b ^^^ (1#8 <<< k)).getLsbD i = (b.getLsbD i ^^ decide (i = k)) := by
  rw [BitVec.getLsbD_xor, BitVec.getLsbD_shiftLeft, BitVec.getLsbD_one]
  congr 1
  rw [Bool.eq_iff_iff]
  simp only [Bool.and_eq_true, decide_eq_true_eq, Bool.not_eq_true', decide_eq_false_iff_not]
  omega

theorem flip_used (h : idx < p.bitmap.length * 8) :
    (p.flip idx).used j = (p.used j ^^ decide (j = idx)) := by
  have hlt : idx / 8 < p.bitmap.length := by omega
  unfold used flip
  by_cases hb : j / 8 = idx / 8
  · have hget : (p.bitmap.modify (idx / 8) (· ^^^ (1#8 <<< (idx % 8)))).getD (j / 8) 0 =
        p.bitmap.getD (j / 8) 0 ^^^ (1#8 <<< (idx % 8)) := by
      simp [List.getD_eq_getElem?_getD, hb, hlt]
    simp only [hget]
    rw [getLsbD_xor_shiftLeft _ (Nat.mod_lt _ (by decide))]
    congr 1
    rw [decide_eq_decide]
    omega
  · have hget : (p.bitmap.modify (idx / 8) (· ^^^ (1#8 <<< (idx % 8)))).getD (j / 8) 0 =
        p.bitmap.getD (j / 8) 0 := by
      simp [List.getD_eq_getElem?_getD, Ne.symm hb]
    have hne : j ≠ idx := by
      rintro rfl
      exact hb rfl
    simp only [hget, hne, decide_false, Bool.xor_false]

theorem flip_flip : (p.flip idx).flip idx = p := by
  have hxor : (fun b : Byte => b ^^^ (1#8 <<< (idx % 8))) ∘ (fun b => b ^^^ (1#8 <<< (idx % 8))) = id := by
    funext b
    rw [Function.comp_apply, BitVec.xor_assoc, BitVec.xor_self, BitVec.xor_zero, id]
  have hmod : (p.bitmap.modify (idx / 8) (· ^^^ (1#8 <<< (idx % 8)))).modify (idx / 8)
      (· ^^^ (1#8 <<< (idx % 8))) = p.bitmap := by
    rw [List.modify_modify_eq, hxor, List.modify_id]
  rw [flip, flip, hmod]

theorem blank_used : (blank j).used idx = false := by
  unfold used blank
  by_cases h : idx / 8 < PG_SZ - 4 * 3
  · rw [List.getD_eq_getElem?_getD, List.getElem?_replicate, if_pos h, Option.getD_some]
    exact BitVec.getLsbD_zero
  · rw [List.getD_eq_getElem?_getD, List.getElem?_replicate, if_neg h, Option.getD_none]
    exact BitVec.getLsbD_zero

theorem new_used : (new j).used idx = decide (idx = 0) := by
  have hlen : 0 < ((blank j).setFreeBlocks ((blank j).freeBlocks - 1)).bitmap.length * 8 := by
    change 0 < (List.replicate (PG_SZ - 4 * 3) (0 : Byte)).length * 8
    rw [List.length_replicate]
    decide
  rw [new, flip_used hlen, setFreeBlocks_used, blank_used, Bool.false_xor]

end Bits

/-- The bits below `getBlocksInPage` that are free. -/
def freeBits (p : FSMPage) : Finset ℕ := {i ∈ Finset.range getBlocksInPage | p.used i = false}

/-- The counter is right, and the page's own bit is taken.  A page that was read from disk has some
bits more than `getBlocksInPage`. -/
structure Sound (p : FSMPage) : Prop where
  length : getBlocksInPage ≤ p.bitmap.length * 8
  fits : 9 + p.bitmap.length ≤ PG_SZ
  next_lt : p.nextPageID < 2 ^ 32
  count : p.freeBlocks = p.freeBits.card
  own : p.used 0 = true

section Counting

variable {p : FSMPage} {i : ℕ}

theorem mem_freeBits : i ∈ p.freeBits ↔ i < getBlocksInPage ∧ p.used i = false := by
  simp [freeBits]

theorem Sound.setNextPageID (h : p.Sound) (hlt : i < 2 ^ 32) : (p.setNextPageID i).Sound :=
  ⟨h.length, h.fits, hlt, h.count, h.own⟩

theorem Sound.freeBlocks_lt (h : p.Sound) : p.freeBlocks < getBlocksInPage := by
  rw [h.count]
  have hsub : p.freeBits ⊆ (Finset.range getBlocksInPage).erase 0 := by
    intro i hi
    obtain ⟨hlt, hfree⟩ := mem_freeBits.mp hi
    refine Finset.mem_erase.mpr ⟨?_, Finset.mem_range.mpr hlt⟩
    rintro rfl
    rw [h.own] at hfree
    cases hfree
  have hcard := Finset.card_le_card hsub
  rw [Finset.card_erase_of_mem (Finset.mem_range.mpr (by decide)), Finset.card_range] at hcard
  exact lt_of_le_of_lt hcard (by decide)

theorem isFree_eq (h : i < p.bitmap.length * 8) : isFree i p = .ok (!p.used i) p := by
  unfold isFree
  rw [bind_ok (show gets id p = .ok p p from rfl), bind_ok (require_ok _ _ (decide_eq_true h))]
  rfl

def alloc (i : ℕ) (p : FSMPage) : FSMPage := (p.setFreeBlocks (p.freeBlocks - 1)).flip i

def free (i : ℕ) (p : FSMPage) : FSMPage := (p.setFreeBlocks (p.freeBlocks + 1)).flip i

@[simp] theorem alloc_nextPageID : (p.alloc i).nextPageID = p.nextPageID := rfl
@[simp] theorem free_nextPageID : (p.free i).nextPageID = p.nextPageID := rfl
@[simp] theorem alloc_pageID : (p.alloc i).pageID = p.pageID := rfl
@[simp] theorem free_pageID : (p.free i).pageID = p.pageID := rfl

theorem freeBit_eq (hlen : i < p.bitmap.length * 8) (hused : p.used i = true)
    (hfew : p.freeBlocks < p.bitmap.length * 8) : freeBit i p = .ok () (p.free i) := by
  unfold freeBit
  rw [bind_ok (isFree_eq hlen), bind_ok (require_ok _ _ (by rw [hused]; rfl)),
    bind_ok (show gets id p = .ok p p from rfl), bind_ok (require_ok _ _ (decide_eq_true hfew))]
  rfl

theorem allocBit_eq (hlen : i < p.bitmap.length * 8) (hpos : 0 < p.freeBlocks)
    (hfree : p.used i = false) : allocBit i p = .ok () (p.alloc i) := by
  unfold allocBit
  rw [bind_ok (show gets id p = .ok p p from rfl), bind_ok (require_ok _ _ (decide_eq_true hlen)),
    bind_ok (require_ok _ _ (decide_eq_true hpos)), bind_ok (isFree_eq hlen),
    bind_ok (require_ok _ _ (by rw [hfree]; rfl))]
  rfl

theorem alloc_used (hlen : i < p.bitmap.length * 8) (j : ℕ) :
    (p.alloc i).used j = (p.used j ^^ decide (j = i)) := flip_used hlen

theorem free_used (hlen : i < p.bitmap.length * 8) (j : ℕ) :
    (p.free i).used j = (p.used j ^^ decide (j = i)) := flip_used hlen

theorem alloc_freeBits (hlen : i < p.bitmap.length * 8) (hfree : p.used i = false) :
    (p.alloc i).freeBits = p.freeBits.erase i := by
  ext j
  rw [mem_freeBits, Finset.mem_erase, mem_freeBits, alloc_used hlen]
  by_cases hj : j = i
  · simp [hj, hfree]
  · simp [hj]

theorem free_freeBits (hlt : i < getBlocksInPage) (hlen : i < p.bitmap.length * 8)
    (hused : p.used i = true) : (p.free i).freeBits = Insert.insert i p.freeBits := by
  ext j
  rw [mem_freeBits, Finset.mem_insert, mem_freeBits, free_used hlen]
  by_cases hj : j = i
  · simp [hj, hused, hlt]
  · simp [hj]

theorem free_alloc (hpos : 0 < p.freeBlocks) : (p.alloc i).free i = p := by
  have hcount : (p.alloc i).setFreeBlocks ((p.alloc i).freeBlocks + 1) = p.flip i := by
    have : p.freeBlocks - 1 + 1 = p.freeBlocks := Nat.sub_add_cancel hpos
    rw [alloc, setFreeBlocks, flip_freeBlocks, setFreeBlocks, this]
    rfl
  rw [free, hcount, flip_flip]

theorem Sound.allocBit (h : p.Sound) (hi : i ∈ p.freeBits) :
    allocBit i p = .ok () (p.alloc i) ∧ (p.alloc i).freeBits = p.freeBits.erase i ∧
      (p.alloc i).Sound := by
  obtain ⟨hlt, hfree⟩ := mem_freeBits.mp hi
  have hlen : i < p.bitmap.length * 8 := hlt.trans_le h.length
  have hpos : 0 < p.freeBlocks := by
    rw [h.count]
    exact Finset.card_pos.mpr ⟨i, hi⟩
  have hbits := alloc_freeBits hlen hfree
  have hi0 : 0 ≠ i := by
    rintro rfl
    rw [h.own] at hfree
    cases hfree
  refine ⟨allocBit_eq hlen hpos hfree, hbits, ?_, ?_, ?_, ?_, ?_⟩
  · rw [alloc, flip_length]
    exact h.length
  · rw [alloc, flip_length]
    exact h.fits
  · exact h.next_lt
  · rw [hbits, Finset.card_erase_of_mem hi, ← h.count]
    rfl
  · rw [alloc_used hlen, h.own, decide_eq_false hi0, Bool.xor_false]

theorem Sound.freeBit (h : p.Sound) (hlt : i < getBlocksInPage) (hused : p.used i = true)
    (hi0 : i ≠ 0) :
    freeBit i p = .ok () (p.free i) ∧ (p.free i).freeBits = Insert.insert i p.freeBits ∧
      (p.free i).Sound := by
  have hlen : i < p.bitmap.length * 8 := hlt.trans_le h.length
  have hfew : p.freeBlocks < p.bitmap.length * 8 := h.freeBlocks_lt.trans_le h.length
  have hbits := free_freeBits hlt hlen hused
  have hnot : i ∉ p.freeBits := by
    rw [mem_freeBits, hused]
    simp
  refine ⟨freeBit_eq hlen hused hfew, hbits, ?_, ?_, ?_, ?_, ?_⟩
  · rw [free, flip_length]
    exact h.length
  · rw [free, flip_length]
    exact h.fits
  · exact h.next_lt
  · rw [hbits, Finset.card_insert_of_notMem hnot, ← h.count]
    rfl
  · rw [free_used hlen, h.own, decide_eq_false hi0.symm, Bool.xor_false]

theorem sound_new (pageID : ℕ) : (new pageID).Sound ∧
    (new pageID).freeBits = (Finset.range getBlocksInPage).erase 0 := by
  have hbits : (new pageID).freeBits = (Finset.range getBlocksInPage).erase 0 := by
    ext i
    rw [mem_freeBits, new_used, Finset.mem_erase, Finset.mem_range]
    simp [and_comm]
  have hlen : (new pageID).bitmap.length = PG_SZ - 4 * 3 := by
    rw [new, flip_length]
    exact List.length_replicate
  refine ⟨⟨?_, ?_, show PGID_INVALID < 2 ^ 32 by decide, ?_, ?_⟩, hbits⟩
  · rw [hlen]
    exact le_rfl
  · rw [hlen]
    decide
  · rw [hbits, Finset.card_erase_of_mem (Finset.mem_range.mpr (by decide)), Finset.card_range]
    rfl
  · rw [new_used]
    rfl

theorem Sound.findNextFree (h : p.Sound) (hne : p.freeBlocks ≠ 0) :
    ∃ i ∈ p.freeBits, (∀ j < i, p.used j = true) ∧ findNextFree p = .ok i p := by
  have hcard : 0 < p.freeBits.card := by
    rw [← h.count]
    omega
  obtain ⟨k, hk⟩ := Finset.card_pos.mp hcard
  obtain ⟨hklt, hkfree⟩ := mem_freeBits.mp hk
  have hklen := hklt.trans_le h.length
  rcases hfind : (List.range (p.bitmap.length * 8)).find? fun i => !p.used i with _ | i
  · have := List.find?_eq_none.mp hfind k (List.mem_range.mpr hklen)
    simp [hkfree] at this
  · have hfind' := hfind
    rw [List.find?_range_eq_some] at hfind
    obtain ⟨hfree, -, hbefore⟩ := hfind
    have hall : ∀ j < i, p.used j = true := fun j hj => by simpa using hbefore j hj
    have hik : i ≤ k := by
      by_contra hki
      rw [hall k (by omega)] at hkfree
      cases hkfree
    refine ⟨i, mem_freeBits.mpr ⟨by omega, by simpa using hfree⟩, hall, ?_⟩
    unfold FSMPage.findNextFree
    rw [bind_ok (show gets id p = .ok p p from rfl),
      bind_ok (require_ok _ _ (decide_eq_true (Nat.pos_of_ne_zero hne))), hfind']
    rfl

end Counting

end FSMPage
end Kndb
