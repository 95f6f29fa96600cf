import Mathlib.Data.Finset.Card
import Mathlib.Tactic.Ring
import Kndb.Btree.Heap

namespace Kndb

open Imp.Prog

structure Calls where
  getPage : ℕ
  createNewPage : ℕ
deriving DecidableEq

variable {Ref σ T : Type}

def uncounted {α : Type} (p : Code σ α) : Code (σ × Calls) α := zoom Prod.fst (fun s t => (s, t.2)) p

def PagerOps.counted (P : PagerOps Ref σ T) : PagerOps Ref (σ × Calls) T where
  getPage id := do
    change fun s => (s.1, { s.2 with getPage := s.2.getPage + 1 })
    uncounted (P.getPage id)
  createNewPage mk := do
    let r ← uncounted (P.createNewPage mk)
    change fun s => (s.1, { s.2 with createNewPage := s.2.createNewPage + 1 })
    return r
  load r s := P.load r s.1
  store r n s := (P.store r n s.1, s.2)

/-- The counter says how many pages have come into use, and how many have been taken from those
that were left. -/
structure CreatedPages (P : LawfulPager σ T) (s s' : σ × Calls) : Prop where
  pages : ∃ N : Finset ℕ, s'.2.createNewPage = s.2.createNewPage + N.card ∧
    (∀ q ∈ N, P.view s.1 q = none) ∧ ∀ q, P.view s'.1 q = none ↔ P.view s.1 q = none ∧ q ∉ N
  avail : s'.2.createNewPage + P.avail s'.1 = s.2.createNewPage + P.avail s.1

variable {P : LawfulPager σ T} {s s' s'' : σ × Calls}

theorem CreatedPages.of_view (hc : s'.2.createNewPage = s.2.createNewPage)
    (hv : ∀ q, P.view s'.1 q = none ↔ P.view s.1 q = none) (ha : P.avail s'.1 = P.avail s.1) :
    CreatedPages P s s' := by
  refine ⟨⟨∅, hc, by simp, fun q => ?_⟩, by rw [hc, ha]⟩
  rw [hv]
  simp

theorem CreatedPages.trans (h : CreatedPages P s s') (h' : CreatedPages P s' s'') : CreatedPages P s s'' := by
  obtain ⟨N, hc, hnone, hv⟩ := h.pages
  obtain ⟨N', hc', hnone', hv'⟩ := h'.pages
  have hdisj : Disjoint N N' := by
    apply Finset.disjoint_left.mpr
    intro q hq hq'
    exact ((hv q).mp (hnone' q hq')).2 hq
  refine ⟨⟨N ∪ N', ?_, fun q hq => ?_, fun q => ?_⟩, h'.avail.trans h.avail⟩
  · rw [hc', hc, Finset.card_union_of_disjoint hdisj, add_assoc]
  · rcases Finset.mem_union.mp hq with hq | hq
    · exact hnone q hq
    · exact ((hv q).mp (hnone' q hq)).1
  · rw [hv', hv, Finset.mem_union, not_or, and_assoc]

theorem uncounted_ok {α : Type} {p : Code σ α} {a : α} {t : σ} (h : p s.1 = .ok a t) :
    uncounted p s = .ok a (t, s.2) := zoom_ok h

/-- Counting does not change what a pager does. -/
def LawfulPager.counted (P : LawfulPager σ T) : LawfulPager (σ × Calls) T where
  toPagerOps := P.toPagerOps.counted
  Ok s := P.Ok s.1
  view s := P.view s.1
  avail s := P.avail s.1
  Full := P.Full
  Frame := CreatedPages P
  frame_refl _ := .of_view rfl (fun _ => Iff.rfl) rfl
  frame_trans := CreatedPages.trans
  pageID_eq := P.pageID_eq
  getPage_eq ok hn := by
    obtain ⟨t, ht, ok', hv, ha, -⟩ := P.getPage_eq ok hn
    exact ⟨_, uncounted_ok ht, ok', hv, ha, .of_view rfl (fun q => by rw [hv]) ha⟩
  load_eq := P.load_eq
  store_ok := P.store_ok
  store_view := P.store_view
  store_avail := P.store_avail
  store_frame {s id n n'} ok hn hid := by
    refine .of_view rfl (fun q => ?_) (P.store_avail ok hn hid)
    change P.view (P.store id n' s.1) q = none ↔ _
    rw [P.store_view ok hn hid]
    by_cases hq : q = id
    · simp [hq, hn]
    · rw [Function.update_of_ne hq]
  create_some {s} mk ok hmk ha := by
    obtain ⟨id, t, ht, ok', hnone, hv, ha', -⟩ := P.create_some mk ok hmk ha
    refine ⟨id, _, bind_ok (uncounted_ok ht), ok', hnone, hv, ha', ⟨{id}, rfl, by simpa using hnone, fun q => ?_⟩, ?_⟩
    · change P.view t q = none ↔ _
      rw [hv, Finset.mem_singleton]
      by_cases hq : q = id
      · simp [hq]
      · simp [hq]
    · rw [ha']
      push_cast
      ring
  create_none {s} mk ok ha := by
    obtain ⟨e, t, ht, he, ok', hv, ha', -⟩ := P.create_none mk ok ha
    refine ⟨e, (t, s.2), ?_, he, ok', hv, ha', .of_view rfl (fun q => by rw [hv]) (ha'.trans ha.symm)⟩
    have hthrow : uncounted (P.createNewPage mk) s = .throw e (t, s.2) := zoom_throw ht
    change Imp.Prog.seq _ _ s = _
    rw [Imp.Prog.seq, hthrow]

end Kndb
