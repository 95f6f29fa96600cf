import Mathlib.Data.ENat.Basic
import Kndb.Btree

namespace Kndb

/-- A pager whose pages stay where they are.  `view` is the contents of the pages in use, `avail`
the number of pages that can still be created, `Full` the exceptions when there are none, and `Frame`
what no operation on a node changes. -/
structure LawfulPager (σ T : Type) extends PagerOps ℕ σ T where
  Ok : σ → Prop
  view : σ → ℕ → Option (BtreeNodePage T)
  avail : σ → ℕ∞
  Full : Exn → Prop
  Frame : σ → σ → Prop
  frame_refl : ∀ s, Frame s s
  frame_trans : ∀ {s s' s''}, Frame s s' → Frame s' s'' → Frame s s''
  pageID_eq : ∀ {s id n}, Ok s → view s id = some n → n.pageID = id
  getPage_eq : ∀ {s id n}, Ok s → view s id = some n → ∃ s', getPage id s = .ok id s' ∧ Ok s' ∧
    view s' = view s ∧ avail s' = avail s ∧ Frame s s'
  load_eq : ∀ {s id n}, Ok s → view s id = some n → load id s = n
  store_ok : ∀ {s id n n'}, Ok s → view s id = some n → n'.pageID = id → Ok (store id n' s)
  store_view : ∀ {s id n n'}, Ok s → view s id = some n → n'.pageID = id →
    view (store id n' s) = Function.update (view s) id (some n')
  store_avail : ∀ {s id n n'}, Ok s → view s id = some n → n'.pageID = id →
    avail (store id n' s) = avail s
  store_frame : ∀ {s id n n'}, Ok s → view s id = some n → n'.pageID = id →
    Frame s (store id n' s)
  create_some : ∀ {s} (mk : ℕ → BtreeNodePage T), Ok s → (∀ id, (mk id).pageID = id) → avail s ≠ 0 →
    ∃ id s', createNewPage mk s = .ok id s' ∧ Ok s' ∧ view s id = none ∧
      view s' = Function.update (view s) id (some (mk id)) ∧ avail s = avail s' + 1 ∧ Frame s s'
  create_none : ∀ {s} (mk : ℕ → BtreeNodePage T), Ok s → avail s = 0 →
    ∃ e s', createNewPage mk s = .throw e s' ∧ Full e ∧ Ok s' ∧ view s' = view s ∧ avail s' = 0 ∧
      Frame s s'

structure Heap (T : Type) where
  nodes : ℕ → Option (BtreeNodePage T)
  root : ℕ
  avail : ℕ∞

namespace Heap

variable {T : Type}

def set (h : Heap T) (id : ℕ) (n : BtreeNodePage T) : Heap T :=
  { h with nodes := Function.update h.nodes id (some n) }

def alloc (h : Heap T) (id : ℕ) (n : BtreeNodePage T) (a : ℕ∞) : Heap T :=
  { h with nodes := Function.update h.nodes id (some n), avail := a }

@[simp] theorem set_nodes (h : Heap T) (id : ℕ) (n : BtreeNodePage T) :
    (h.set id n).nodes = Function.update h.nodes id (some n) := rfl
@[simp] theorem alloc_nodes (h : Heap T) (id : ℕ) (n : BtreeNodePage T) (a : ℕ∞) :
    (h.alloc id n a).nodes = Function.update h.nodes id (some n) := rfl
@[simp] theorem set_root (h : Heap T) (id : ℕ) (n : BtreeNodePage T) :
    (h.set id n).root = h.root := rfl
@[simp] theorem set_avail (h : Heap T) (id : ℕ) (n : BtreeNodePage T) :
    (h.set id n).avail = h.avail := rfl

end Heap

namespace Btree

open Imp Imp.Prog

variable {σ T α β : Type} (P : LawfulPager σ T)

def heap (st : BtreeState σ) : Heap T where
  nodes := P.view st.pager
  root := st.rootPageID
  avail := P.avail st.pager

variable (s₀ : σ)

/-- The weakest precondition in terms of the heap. -/
structure Runs (p : BtreeM σ α) (h : Heap T) (Q : α → Heap T → Prop) (R : Heap T → Prop)
    (A : Stop → Prop) : Prop where
  wp : ∀ st : BtreeState σ, P.Ok st.pager → P.Frame s₀ st.pager → heap P st = h →
    p.wp st (fun a st' => P.Ok st'.pager ∧ P.Frame s₀ st'.pager ∧ Q a (heap P st'))
      (fun e st' => P.Full e ∧ P.Ok st'.pager ∧ P.Frame s₀ st'.pager ∧ R (heap P st')) A

variable {P}

theorem Runs.start {p : BtreeM σ α} {Q : α → Heap T → Prop} {R : Heap T → Prop} {A : Stop → Prop}
    {st : BtreeState σ} (ok : P.Ok st.pager) (h : Runs P st.pager p (heap P st) Q R A) :
    p.wp st (fun a st' => P.Ok st'.pager ∧ P.Frame st.pager st'.pager ∧ Q a (heap P st'))
      (fun _ st' => P.Ok st'.pager ∧ P.Frame st.pager st'.pager ∧ R (heap P st')) A :=
  wp_mono (h.wp st ok (P.frame_refl _) rfl) (fun _ _ hq => hq) (fun _ _ hr => hr.2) fun _ hA => hA

theorem Runs.start_full {p : BtreeM σ α} {Q : α → Heap T → Prop} {R : Heap T → Prop} {A : Stop → Prop}
    {st : BtreeState σ} (ok : P.Ok st.pager) (h : Runs P st.pager p (heap P st) Q R A) :
    p.wp st (fun a st' => P.Ok st'.pager ∧ P.Frame st.pager st'.pager ∧ Q a (heap P st'))
      (fun e st' => P.Full e ∧ P.Ok st'.pager ∧ P.Frame st.pager st'.pager ∧ R (heap P st')) A :=
  h.wp st ok (P.frame_refl _) rfl

variable {s₀} {p : BtreeM σ α} {f : α → BtreeM σ β} {h : Heap T}
variable {Q Q' : α → Heap T → Prop} {R R' : Heap T → Prop} {A A' : Stop → Prop}

theorem runs_mono (hp : Runs P s₀ p h Q R A) (hQ : ∀ a h', Q a h' → Q' a h')
    (hR : ∀ h', R h' → R' h') (hA : ∀ x, A x → A' x) : Runs P s₀ p h Q' R' A' := by
  refine ⟨fun st ok fr hh => wp_mono (hp.wp st ok fr hh) ?_ ?_ hA⟩
  · exact fun a st' ⟨ok', fr', hq⟩ => ⟨ok', fr', hQ a _ hq⟩
  · exact fun e st' ⟨he, ok', fr', hr⟩ => ⟨he, ok', fr', hR _ hr⟩

theorem runs_congr {h' : Heap T} (hh : h = h') (hp : Runs P s₀ p h' Q R A) :
    Runs P s₀ p h Q R A := hh ▸ hp

theorem runs_bind {Q : β → Heap T → Prop}
    (hp : Runs P s₀ p h (fun a h' => Runs P s₀ (f a) h' Q R A) R A) :
    Runs P s₀ (p >>= f) h Q R A := by
  refine ⟨fun st ok fr hh => wp_bind.mpr (wp_mono (hp.wp st ok fr hh) ?_ (fun _ _ hr => hr) fun _ hA => hA)⟩
  exact fun a st' ⟨ok', fr', hf⟩ => hf.wp st' ok' fr' rfl

theorem Runs.bind {Q' : β → Heap T → Prop} (hp : Runs P s₀ p h Q R A)
    (hf : ∀ a h', Q a h' → Runs P s₀ (f a) h' Q' R A) : Runs P s₀ (p >>= f) h Q' R A :=
  runs_bind (runs_mono hp hf (fun _ hr => hr) fun _ hA => hA)

theorem runs_pure {a : α} (hQ : Q a h) : Runs P s₀ (pure a) h Q R A :=
  ⟨fun _ ok fr hh => ⟨ok, fr, hh ▸ hQ⟩⟩

theorem runs_outOfFuel (hA : A .timeout) : Runs P s₀ outOfFuel h Q R A :=
  ⟨fun _ _ _ _ => hA⟩

theorem runs_check {b : Bool} {m : String} {Q : Unit → Heap T → Prop} (hQ : b = true → Q () h)
    (hA : b = false → A .abort) : Runs P s₀ (require b m) h Q R A :=
  ⟨fun _ ok fr hh => (wp_require b m).mpr ⟨fun hb => ⟨ok, fr, hh ▸ hQ hb⟩, hA⟩⟩

theorem runs_require {b : Bool} {m : String} {Q : Unit → Heap T → Prop} (hb : b = true)
    (hQ : Q () h) : Runs P s₀ (require b m) h Q R A :=
  runs_check (fun _ => hQ) fun hf => absurd (hb.symm.trans hf) (by simp)

theorem runs_index {l : List α} {i : ℕ} (hQ : ∀ a, l[i]? = some a → Q a h)
    (hA : l[i]? = none → A .abort) : Runs P s₀ (at? l i) h Q R A :=
  ⟨fun _ ok fr hh => wp_at?.mpr ⟨fun a ha => ⟨ok, fr, hh ▸ hQ a ha⟩, hA⟩⟩

theorem runs_at? {l : List α} {i : ℕ} {a : α} (ha : l[i]? = some a) (hQ : Q a h) :
    Runs P s₀ (at? l i) h Q R A :=
  runs_index (fun b hb => Option.some.inj (ha.symm.trans hb) ▸ hQ)
    fun hn => absurd (ha.symm.trans hn) (by simp)

theorem runs_rootPageID {Q : ℕ → Heap T → Prop} (hQ : Q h.root h) :
    Runs P s₀ (gets BtreeState.rootPageID) h Q R A :=
  ⟨fun _ ok fr hh => ⟨ok, fr, by subst hh; exact hQ⟩⟩

theorem runs_setRoot {r : ℕ} {Q : Unit → Heap T → Prop} (hQ : Q () { h with root := r }) :
    Runs P s₀ (change fun st => { st with rootPageID := r }) h Q R A :=
  ⟨fun _ ok fr hh => ⟨ok, fr, by subst hh; exact hQ⟩⟩

theorem runs_node {id : ℕ} {n : BtreeNodePage T} {Q : ℕ → Heap T → Prop}
    (hn : h.nodes id = some n) (hQ : Q id h) : Runs P s₀ (B_NODE P.toPagerOps id) h Q R A := by
  refine ⟨fun st ok fr hh => ?_⟩
  subst hh
  obtain ⟨s', hs', ok', hv, ha, fr'⟩ := P.getPage_eq ok hn
  rw [B_NODE, onPager, wp_zoom, wp_of_ok hs']
  refine ⟨ok', P.frame_trans fr fr', ?_⟩
  have : heap P { st with pager := s' } = heap P st := by simp only [heap, hv, ha]
  exact this ▸ hQ

theorem runs_deref {id : ℕ} {n : BtreeNodePage T} {Q : BtreeNodePage T → Heap T → Prop}
    (hn : h.nodes id = some n) (hQ : n.pageID = id → Q n h) :
    Runs P s₀ (deref P.toPagerOps id) h Q R A := by
  refine ⟨fun st ok fr hh => ?_⟩
  subst hh
  refine ⟨ok, fr, ?_⟩
  change Q (P.load id st.pager) _
  rw [P.load_eq ok hn]
  exact hQ (P.pageID_eq ok hn)

theorem runs_modify {id : ℕ} {n : BtreeNodePage T} {g : BtreeNodePage T → BtreeNodePage T}
    {Q : Unit → Heap T → Prop} (hn : h.nodes id = some n) (hg : (g n).pageID = n.pageID)
    (hQ : Q () (h.set id (g n))) : Runs P s₀ (modify P.toPagerOps id g) h Q R A := by
  refine ⟨fun st ok fr hh => ?_⟩
  subst hh
  have hid : (g n).pageID = id := hg.trans (P.pageID_eq ok hn)
  have hl : P.load id st.pager = n := P.load_eq ok hn
  have hheap : heap P { st with pager := P.store id (g n) st.pager } = (heap P st).set id (g n) := by
    simp only [heap, Heap.set, P.store_view ok hn hid, P.store_avail ok hn hid]
  refine (wp_change _).mpr ?_
  rw [hl]
  exact ⟨P.store_ok ok hn hid, P.frame_trans fr (P.store_frame ok hn hid), hheap ▸ hQ⟩

theorem runs_new {deg par : ℕ} {root leaf : Bool} {Q : ℕ → Heap T → Prop}
    (hQ : ∀ id a, h.nodes id = none → h.avail = a + 1 →
      Q id (h.alloc id (.new deg par root leaf id) a))
    (hR : h.avail = 0 → R h) : Runs P s₀ (B_NEW P.toPagerOps deg par root leaf) h Q R A := by
  refine ⟨fun st ok fr hh => ?_⟩
  subst hh
  rw [B_NEW, onPager, wp_zoom]
  by_cases ha : P.avail st.pager = 0
  · obtain ⟨e, s', hc, he, ok', hv, ha', fr'⟩ :=
      P.create_none (BtreeNodePage.new deg par root leaf) ok ha
    rw [wp_of_throw hc]
    refine ⟨he, ok', P.frame_trans fr fr', ?_⟩
    have : heap P { st with pager := s' } = heap P st := by simp only [heap, hv, ha', ha]
    exact this ▸ hR ha
  · obtain ⟨id, s', hc, ok', hnone, hv, ha', fr'⟩ :=
      P.create_some (BtreeNodePage.new deg par root leaf) ok (fun _ => rfl) ha
    rw [wp_of_ok hc]
    refine ⟨ok', P.frame_trans fr fr', ?_⟩
    have := hQ id (P.avail s') hnone ha'
    simpa only [heap, Heap.alloc, hv] using this

end Btree
end Kndb
