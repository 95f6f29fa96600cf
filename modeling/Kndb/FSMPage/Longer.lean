import Kndb.FSMPage.Bytes
import Kndb.Library.Simulation

namespace Kndb.FSMPage

open Imp.Prog

/-- A bitmap that fits in a page. -/
structure Evictable (p : FSMPage) : Prop where
  next_lt : p.nextPageID < 2 ^ 32
  free_lt : p.freeBlocks < 2 ^ 32
  fits : 9 + p.bitmap.length ≤ PG_SZ

variable {p q : FSMPage} {idx : ℕ} {E : Exn → Prop} {α : Type}

theorem Sound.evictable (h : p.Sound) : p.Evictable :=
  ⟨h.next_lt, h.freeBlocks_lt.trans (by decide), h.fits⟩

theorem Extends.length_le (h : Extends p q) : p.bitmap.length * 8 ≤ q.bitmap.length * 8 :=
  Nat.mul_le_mul_right 8 h.bitmap.length_le

theorem Extends.flip (h : Extends p q) (idx : ℕ) : Extends (p.flip idx) (q.flip idx) := by
  refine ⟨h.pageID, h.nextPageID, h.freeBlocks, ?_⟩
  have hbitmap := List.prefix_iff_eq_take.mp h.bitmap
  apply List.prefix_iff_eq_take.mpr
  rw [flip_length]
  unfold FSMPage.flip
  rw [List.take_modify, ← hbitmap]

theorem Extends.setFreeBlocks (h : Extends p q) (n : ℕ) : Extends (p.setFreeBlocks n) (q.setFreeBlocks n) :=
  ⟨h.pageID, h.nextPageID, rfl, h.bitmap⟩

/-- The function returns the same from `q`, which stays longer than `p`. -/
def Tracks (E : Exn → Prop) (f : Code FSMPage α) : Prop :=
  ∀ p q, Extends p q → q.Evictable → Sim E f f p q
    (fun a b p' q' => a = b ∧ Extends p' q' ∧ q'.Evictable ∧ q'.pageID = q.pageID) fun _ _ => False

theorem sim_isFree (idx : ℕ) (h : Extends p q) {R : FSMPage → FSMPage → Prop} :
    Sim E (isFree idx) (isFree idx) p q (fun a b p' q' => a = b ∧ p' = p ∧ q' = q) R := by
  apply sim_gets
  apply sim_require
  · intro hlt
    exact decide_eq_true ((of_decide_eq_true hlt).trans_le h.length_le)
  · intro hlt
    apply sim_pure
    exact ⟨by rw [id, id, h.used (of_decide_eq_true hlt)], rfl, rfl⟩

theorem tracks_isFree (idx : ℕ) : Tracks E (isFree idx) := by
  intro p q h hq
  apply (sim_isFree idx h).mono
  · rintro a b p' q' ⟨rfl, rfl, rfl⟩
    exact ⟨rfl, h, hq, rfl⟩
  · exact fun _ _ hR => hR

theorem tracks_allocBit (idx : ℕ) : Tracks E (allocBit idx) := by
  intro p q h hq
  apply sim_gets
  apply sim_require
  · intro hlt
    exact decide_eq_true ((of_decide_eq_true hlt).trans_le h.length_le)
  intro hlt
  apply sim_require
  · intro hpos
    exact decide_eq_true (h.freeBlocks ▸ of_decide_eq_true hpos)
  intro _
  apply (sim_isFree idx h).bind
  rintro a b p' q' - ⟨rfl, rfl, rfl⟩
  apply sim_require
  · exact id
  intro _
  apply sim_change
  rw [h.freeBlocks]
  refine ⟨rfl, (h.setFreeBlocks _).flip idx, ⟨hq.next_lt, ?_, ?_⟩, rfl⟩
  · exact (Nat.sub_le ..).trans_lt (h.freeBlocks ▸ hq.free_lt)
  · rw [flip_length]
    exact hq.fits

theorem tracks_freeBit (idx : ℕ) : Tracks E (freeBit idx) := by
  intro p q h hq
  apply (sim_isFree idx h).bind
  rintro a b p' q' hfree ⟨rfl, rfl, rfl⟩
  apply sim_require
  · exact id
  intro _
  apply sim_gets
  apply sim_require
  · intro hfew
    have hfew' : p'.freeBlocks < p'.bitmap.length * 8 := of_decide_eq_true hfew
    exact decide_eq_true (h.freeBlocks ▸ hfew'.trans_le h.length_le)
  intro hfew
  have hfew' : p'.freeBlocks < p'.bitmap.length * 8 := of_decide_eq_true hfew
  apply sim_change
  rw [h.freeBlocks]
  refine ⟨rfl, (h.setFreeBlocks _).flip idx, ⟨hq.next_lt, ?_, ?_⟩, rfl⟩
  · have hlen := h.length_le
    have hfits := hq.fits
    change p'.freeBlocks + 1 < 2 ^ 32
    simp only [PG_SZ] at hfits
    omega
  · rw [flip_length]
    exact hq.fits

theorem tracks_findNextFree : Tracks E findNextFree := by
  intro p q h hq
  apply sim_gets
  apply sim_require
  · intro hpos
    exact decide_eq_true (h.freeBlocks ▸ of_decide_eq_true hpos)
  intro _
  cases hfind : (List.range (p.bitmap.length * 8)).find? fun i => !p.used i with
  | none =>
    dsimp only [id]
    rw [hfind]
    trivial
  | some i =>
    dsimp only [id]
    rw [hfind, h.find?_eq hfind]
    exact sim_pure ⟨rfl, h, hq, rfl⟩

theorem tracks_setNextPageID {n : ℕ} (hn : n < 2 ^ 32) : Tracks E (change (setNextPageID n)) := by
  intro p q h hq
  exact sim_change ⟨rfl, ⟨h.pageID, rfl, h.freeBlocks, h.bitmap⟩, ⟨hn, hq.free_lt, hq.fits⟩, rfl⟩

end Kndb.FSMPage
