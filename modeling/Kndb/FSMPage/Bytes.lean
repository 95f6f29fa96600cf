import Mathlib.Data.List.Find
import Kndb.Bytes
import Kndb.FSMPage

namespace Kndb.FSMPage

open Imp.Prog Codec

def toBytes (p : FSMPage) : Code Bytes Unit := do
  putLE 1 2
  putLE 4 p.nextPageID
  putLE 4 p.freeBlocks
  write PG_SZ p.bitmap

def readBitmap : Code Bytes Bytes := fun s => .ok s []

/-- The constructor from a block. -/
def parse (pageID : ℕ) : Code Bytes FSMPage := do
  require ((← getLE 1) = 2) "Page_type_id is incorrect type"
  let nextPageID ← getLE 4
  let freeBlocks ← getLE 4
  let bitmap ← readBitmap
  return { pageID, nextPageID, freeBlocks, bitmap }

/-- `q` is `p` with bits behind those of `p`. -/
structure Extends (p q : FSMPage) : Prop where
  pageID : q.pageID = p.pageID
  nextPageID : q.nextPageID = p.nextPageID
  freeBlocks : q.freeBlocks = p.freeBlocks
  bitmap : p.bitmap <+: q.bitmap

theorem Extends.refl (p : FSMPage) : Extends p p := ⟨rfl, rfl, rfl, List.prefix_rfl⟩

theorem Extends.trans {p q r : FSMPage} (h : Extends p q) (h' : Extends q r) : Extends p r :=
  ⟨h'.pageID.trans h.pageID, h'.nextPageID.trans h.nextPageID, h'.freeBlocks.trans h.freeBlocks,
    h.bitmap.trans h'.bitmap⟩

theorem Extends.used {p q : FSMPage} (h : Extends p q) {i : ℕ} (hi : i < p.bitmap.length * 8) :
    q.used i = p.used i := by
  obtain ⟨tail, ht⟩ := h.bitmap
  unfold FSMPage.used
  rw [← ht, List.getD_eq_getElem?_getD, List.getElem?_append_left (by omega),
    List.getD_eq_getElem?_getD]

theorem Extends.find?_eq {p q : FSMPage} (h : Extends p q) {i : ℕ}
    (hi : (List.range (p.bitmap.length * 8)).find? (fun i => !p.used i) = some i) :
    (List.range (q.bitmap.length * 8)).find? (fun i => !q.used i) = some i := by
  obtain ⟨k, hk⟩ : ∃ k, q.bitmap.length * 8 = p.bitmap.length * 8 + k :=
    ⟨_, (Nat.add_sub_of_le (Nat.mul_le_mul_right 8 h.bitmap.length_le)).symm⟩
  have hsame : (List.range (p.bitmap.length * 8)).find? (fun i => !q.used i) =
      (List.range (p.bitmap.length * 8)).find? (fun i => !p.used i) := by
    apply List.find?_congr
    intro j hj
    rw [h.used (List.mem_range.mp hj)]
  rw [hk, List.range_add, List.find?_append, hsame, hi, Option.some_or]

theorem Extends.freeBits {p q : FSMPage} (h : Extends p q) (hp : p.Sound) :
    q.freeBits = p.freeBits := by
  ext i
  rw [mem_freeBits, mem_freeBits]
  refine and_congr_right fun hi => ?_
  rw [h.used (hi.trans_le hp.length)]

theorem Extends.sound {p q : FSMPage} (h : Extends p q) (hp : p.Sound)
    (hq : 9 + q.bitmap.length ≤ PG_SZ) : q.Sound where
  length := hp.length.trans (Nat.mul_le_mul_right 8 h.bitmap.length_le)
  fits := hq
  next_lt := h.nextPageID ▸ hp.next_lt
  count := by rw [h.freeBlocks, h.freeBits hp, hp.count]
  own := by rw [h.used (Nat.lt_of_lt_of_le (by decide) hp.length), hp.own]

theorem reread_append {p : FSMPage} (hnext : p.nextPageID < 2 ^ 32) (hfree : p.freeBlocks < 2 ^ 32)
    (hfits : 9 + p.bitmap.length ≤ PG_SZ) (J : Junk) : ∃ out tail, p.toBytes [] = .ok () out ∧
      out.length = 9 + p.bitmap.length ∧ 9 + (p.bitmap ++ tail).length = PG_SZ ∧
      parse p.pageID (fillBlock J out) = .ok { p with bitmap := p.bitmap ++ tail } [] := by
  obtain ⟨l1, hl1, hw1, hr1⟩ := (recovers_LE_of_lt (k := 1) (x := 2) (by decide)).fits []
    (by decide)
  obtain ⟨l2, hl2, hw2, hr2⟩ := (recovers_LE_of_lt (k := 4) hnext).fits ([] ++ l1)
    (by simp [hl1, PG_SZ])
  obtain ⟨l3, hl3, hw3, hr3⟩ := (recovers_LE_of_lt (k := 4) hfree).fits ([] ++ l1 ++ l2)
    (by simp [hl1, hl2, PG_SZ])
  have hlen : ([] ++ l1 ++ l2 ++ l3 ++ p.bitmap).length = 9 + p.bitmap.length := by
    simp [hl1, hl2, hl3]
    omega
  have hroom : ([] ++ l1 ++ l2 ++ l3).length + p.bitmap.length ≤ PG_SZ := by
    rw [← List.length_append, hlen]
    exact hfits
  have hfill := fillBlock_length (hlen ▸ hfits) J
  have hwrite : p.toBytes [] = .ok () ([] ++ l1 ++ l2 ++ l3 ++ p.bitmap) := by
    unfold toBytes
    rw [bind_ok hw1, bind_ok hw2, bind_ok hw3]
    exact if_pos hroom
  obtain ⟨tail, htail⟩ : ∃ tail, fillBlock J ([] ++ l1 ++ l2 ++ l3 ++ p.bitmap) =
    [] ++ l1 ++ l2 ++ l3 ++ p.bitmap ++ tail := ⟨_, rfl⟩
  rw [htail, List.length_append, hlen] at hfill
  refine ⟨_, tail, hwrite, hlen, ?_, ?_⟩
  · rw [List.length_append]
    omega
  obtain ⟨_, rfl, hr1⟩ := hr1 (l2 ++ (l3 ++ (p.bitmap ++ tail)))
  obtain ⟨_, rfl, hr2⟩ := hr2 (l3 ++ (p.bitmap ++ tail))
  obtain ⟨_, rfl, hr3⟩ := hr3 (p.bitmap ++ tail)
  rw [htail, List.nil_append, List.append_assoc, List.append_assoc, List.append_assoc, parse,
    bind_ok hr1, bind_ok (require_ok _ _ (decide_eq_true rfl)), bind_ok hr2, bind_ok hr3]
  rfl

/-- A sound page is written, and what is read back differs in the bits behind its own. -/
theorem Sound.reread {p : FSMPage} (h : p.Sound) (J : Junk) : ∃ out, p.toBytes [] = .ok () out ∧
    out.length ≤ PG_SZ ∧ ∃ q, parse p.pageID (fillBlock J out) = .ok q [] ∧ Extends p q ∧ q.Sound := by
  have hfree : p.freeBlocks < 2 ^ 32 := h.freeBlocks_lt.trans (by decide)
  obtain ⟨out, tail, hw, hlen, htail, hr⟩ := reread_append h.next_lt hfree h.fits J
  have hext : Extends p { p with bitmap := p.bitmap ++ tail } := ⟨rfl, rfl, rfl, _, rfl⟩
  exact ⟨out, hw, hlen ▸ h.fits, _, hr, hext, hext.sound h htail.le⟩

end Kndb.FSMPage
