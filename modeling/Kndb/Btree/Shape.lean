import Mathlib.Data.List.Nodup
import Mathlib.Logic.Function.Iterate
import Kndb.Btree.MemoryPager
import Kndb.Btree.Reachable

namespace Kndb.Btree

open Imp Imp.Prog

variable {σ T : Type} {nodes : ℕ → Option (BtreeNodePage T)} {root : ℕ}

/-- All leaves below page `p` are `d` levels down. -/
def LeavesAt (nodes : ℕ → Option (BtreeNodePage T)) : ℕ → ℕ → Prop
  | 0, p => ∃ n, nodes p = some n ∧ n.leaf = true
  | d + 1, p => ∃ n, nodes p = some n ∧ n.leaf = false ∧ ∀ q ∈ n.children, LeavesAt nodes d q

/-- The pages that are reached from `p` through children, with repetitions if there are any. -/
def reached (nodes : ℕ → Option (BtreeNodePage T)) : ℕ → ℕ → List ℕ
  | 0, p => [p]
  | d + 1, p => p :: (nodes p).elim [] fun n => n.children.flatMap (reached nodes d)

/-- A B-tree of minimum degree `t` whose leaves are `d` levels below the root. -/
structure Shape (t : ℕ) (nodes : ℕ → Option (BtreeNodePage T)) (root d : ℕ) : Prop where
  leaves : LeavesAt nodes d root
  once : (reached nodes d root).Nodup
  upper : ∀ p ∈ reached nodes d root, ∀ n, nodes p = some n → n.cells.length ≤ 2 * t - 2
  lower : ∀ p ∈ reached nodes d root, p ≠ root → ∀ n, nodes p = some n → t - 1 ≤ n.cells.length
  root_nonempty : ∀ n, nodes root = some n → n.leaf = false → 1 ≤ n.cells.length
  leaf_children : ∀ p ∈ reached nodes d root, ∀ n, nodes p = some n → n.leaf = true → n.children = []
  arity : ∀ p ∈ reached nodes d root, ∀ n, nodes p = some n → n.leaf = false →
    n.children.length = n.cells.length + 1
  parent : ∀ p ∈ reached nodes d root, ∀ n, nodes p = some n → ∀ q ∈ n.children,
    ∃ m, nodes q = some m ∧ m.parentID = p
  root_flag : ∀ p ∈ reached nodes d root, ∀ n, nodes p = some n → (n.root = true ↔ p = root)

/-- The in-order sequence of keys is strictly ascending. -/
def Ascends (nodes : ℕ → Option (BtreeNodePage T)) (root d : ℕ) : Prop :=
  (inorder nodes d root).Pairwise fun a b => a.key.lt b.key = true

section Layout

variable {deg u : ℕ} {L : Layout}

theorem reached_succ {d p : ℕ} {n : BtreeNodePage T} (hn : nodes p = some n) :
    reached nodes (d + 1) p = p :: n.children.flatMap (reached nodes d) := by
  simp [reached, hn]

theorem self_mem_reached (d p : ℕ) : p ∈ reached nodes d p := by
  cases d <;> simp [reached]

theorem Linked.leavesAt (h : Linked deg nodes root L) {d p : ℕ} (hp : p ∈ L.pages)
    (hd : L.height p = d) : LeavesAt nodes d p := by
  induction d generalizing p with
  | zero =>
    obtain ⟨n, hn, ok⟩ := h.link p hp
    exact ⟨n, hn, ok.leaf_iff.mpr hd⟩
  | succ d ih =>
    obtain ⟨n, hn, ok⟩ := h.link p hp
    refine ⟨n, hn, ok.leaf_eq_false (by omega), fun q hq => ?_⟩
    obtain ⟨hm, hh, -⟩ := ok.kids q hq
    exact ih hm (by omega)

theorem Linked.of_mem_reached (h : Linked deg nodes root L) {d p q : ℕ} (hp : p ∈ L.pages)
    (hd : L.height p = d) (hq : q ∈ reached nodes d p) : q ∈ L.pages ∧ L.height q ≤ d := by
  induction d generalizing p with
  | zero =>
    obtain rfl : q = p := by simpa [reached] using hq
    exact ⟨hp, hd.le⟩
  | succ d ih =>
    obtain ⟨n, hn, ok⟩ := h.link p hp
    rw [reached_succ hn, List.mem_cons, List.mem_flatMap] at hq
    rcases hq with rfl | ⟨c, hc, hq⟩
    · exact ⟨hp, hd.le⟩
    · obtain ⟨hm, hh, -⟩ := ok.kids c hc
      obtain ⟨hqm, hle⟩ := ih hm (by omega) hq
      exact ⟨hqm, by omega⟩

/-- The page that a page names as its parent. -/
def parentOf (nodes : ℕ → Option (BtreeNodePage T)) (p : ℕ) : ℕ := (nodes p).elim 0 (·.parentID)

theorem Linked.parents_of_reached (h : Linked deg nodes root L) {d p q : ℕ} (hp : p ∈ L.pages)
    (hd : L.height p = d) (hq : q ∈ reached nodes d p) :
    (parentOf nodes)^[d - L.height q] q = p := by
  induction d generalizing p with
  | zero =>
    obtain rfl : q = p := by simpa [reached] using hq
    simp [hd]
  | succ d ih =>
    obtain ⟨n, hn, ok⟩ := h.link p hp
    rw [reached_succ hn, List.mem_cons, List.mem_flatMap] at hq
    rcases hq with rfl | ⟨c, hc, hq⟩
    · simp [hd]
    · obtain ⟨hm, hh, m, hcm, hpar⟩ := ok.kids c hc
      have hle := (h.of_mem_reached hm (by omega) hq).2
      have hback := ih hm (by omega) hq
      rw [Nat.succ_sub hle, Function.iterate_succ_apply', hback, parentOf, hcm, Option.elim_some, hpar]

theorem Linked.reached_nodup (h : Linked deg nodes root L) {d p : ℕ} (hp : p ∈ L.pages)
    (hd : L.height p = d) : (reached nodes d p).Nodup := by
  induction d generalizing p with
  | zero => simp [reached]
  | succ d ih =>
    obtain ⟨n, hn, ok⟩ := h.link p hp
    have hkid : ∀ c ∈ n.children, c ∈ L.pages ∧ L.height c = d := by
      intro c hc
      obtain ⟨hm, hh, -⟩ := ok.kids c hc
      exact ⟨hm, by omega⟩
    rw [reached_succ hn, List.nodup_cons, List.mem_flatMap]
    refine ⟨?_, List.nodup_flatMap.mpr ⟨fun c hc => ih (hkid c hc).1 (hkid c hc).2, ?_⟩⟩
    · rintro ⟨c, hc, hpc⟩
      have := (h.of_mem_reached (hkid c hc).1 (hkid c hc).2 hpc).2
      omega
    · refine ok.children_nodup.imp_of_mem fun {a b} ha hb hne => ?_
      intro q hqa hqb
      have h1 := h.parents_of_reached (hkid a ha).1 (hkid a ha).2 hqa
      have h2 := h.parents_of_reached (hkid b hb).1 (hkid b hb).2 hqb
      exact hne (h1.symm.trans h2)

theorem Linked.reached_climb (h : Linked deg nodes root L) {q : ℕ} (k : ℕ) {p : ℕ}
    (hp : p ∈ L.pages) (hk : L.height p + k = L.height root)
    (hq : q ∈ reached nodes (L.height p) p) : q ∈ reached nodes (L.height root) root := by
  induction k generalizing p with
  | zero => exact h.eq_root hp hk ▸ hq
  | succ k ih =>
    have hr : p ≠ root := by
      rintro rfl
      omega
    obtain ⟨n, hn, ok⟩ := h.link p hp
    obtain ⟨m, hm, hl, hh⟩ := h.attached hp hr hn
    refine ih (ok.listed hr).1 (by omega) ?_
    rw [← hh, reached_succ hm, List.mem_cons, List.mem_flatMap]
    exact .inr ⟨p, hl.listed, hq⟩

theorem Linked.mem_reached_iff (h : Linked deg nodes root L) (q : ℕ) :
    q ∈ reached nodes (L.height root) root ↔ q ∈ L.pages := by
  refine ⟨fun hq => (h.of_mem_reached h.root_mem rfl hq).1, fun hq => ?_⟩
  have hle := h.top q hq
  exact h.reached_climb (L.height root - L.height q) hq (by omega) (self_mem_reached _ _)

theorem Linked.shape (h : Linked deg nodes root L) (hs : Sized u nodes root L none) :
    Shape u nodes root (L.height root) where
  leaves := h.leavesAt h.root_mem rfl
  once := h.reached_nodup h.root_mem rfl
  upper p hp n hn := by simpa using hs.upper p ((h.mem_reached_iff p).mp hp) n hn
  lower p hp := hs.lower p ((h.mem_reached_iff p).mp hp)
  root_nonempty := hs.root_nonempty
  leaf_children p hp n hn := (h.link_of ((h.mem_reached_iff p).mp hp) hn).leaf_children
  arity p hp := hs.arity p ((h.mem_reached_iff p).mp hp)
  parent p hp n hn q hq := ((h.link_of ((h.mem_reached_iff p).mp hp) hn).kids q hq).2.2
  root_flag p hp n hn := (h.link_of ((h.mem_reached_iff p).mp hp) hn).root_iff

theorem Tree.ascends (h : Tree deg nodes root L) : Ascends nodes root (L.height root) := by
  refine h.inorder_sorted.imp_of_mem fun {a b} ha hb hab => ?_
  have hkey : ∀ c ∈ inorder nodes (L.height root) root, c.key.isNaN = false := by
    intro c hc
    obtain ⟨p, hp, n, hn, hcn⟩ := (h.mem_inorder_root c).mp hc
    exact (h.ordered p hp n hn).keys c hcn
  exact (Vari.lt_iff (hkey a ha) (hkey b hb)).mpr hab

theorem Evolved.mem_pages_iff {h h' : Heap T} {r : ℕ} {L' : Layout}
    (he : Evolved h (.single r) h' L') (hl : Linked deg h'.nodes h'.root L') (q : ℕ) :
    q ∈ L'.pages ↔ q = r ∨ h.nodes q = none ∧ h'.nodes q ≠ none := by
  have hsingle : ∀ q, q ∈ (Layout.single r).pages ↔ q = r := fun q => by simp [Layout.single]
  constructor
  · intro hq
    by_cases hqr : q = r
    · exact .inl hqr
    · obtain ⟨n, hn, -⟩ := hl.link q hq
      exact .inr ⟨he.fresh q hq (by rwa [hsingle]), by simp [hn]⟩
  · rintro (rfl | ⟨h1, h2⟩)
    · exact he.pages ((hsingle q).mpr rfl)
    · by_contra hq
      rw [he.frame q hq] at h2
      exact h2 h1

end Layout

section Reached

variable {P : LawfulPager σ T} {t : ℕ} {st₀ : BtreeState σ}

/-- Every run from the empty tree returns and leaves a B-tree that consists of the root it started
from and of the pages created since.  Its keys ascend if none of them is a NaN. -/
theorem shape_of_run (ht : 2 ≤ t) (ht' : t ≤ 2 ^ 15) (hempty : EmptyTree P t st₀)
    (havail : P.avail st₀.pager = ⊤) (ops : List (TreeOp T)) {fuel : ℕ}
    (hfuel : ops.length + 2 ≤ fuel) :
    ∃ rs st d, runOps P.toPagerOps t fuel ops st₀ = .ok rs st ∧
      Shape t (P.view st.pager) st.rootPageID d ∧
      (∀ p, p ∈ reached (P.view st.pager) d st.rootPageID ↔
        p = st₀.rootPageID ∨ P.view st₀.pager p = none ∧ P.view st.pager p ≠ none) ∧
      ((∀ op ∈ ops, op.key.isNaN = false) → Ascends (P.view st.pager) st.rootPageID d) := by
  obtain ⟨ok, par, hn⟩ := hempty
  have hu : effectiveDegree t = t := effectiveDegree_of_le (by omega) ht'
  have hfuel' : (Layout.single st₀.rootPageID).height st₀.rootPageID + ops.length + 1 ≤ fuel := by
    simp only [Layout.single]
    omega
  obtain ⟨rs, st, hrun, -, -, L, hpost⟩ := ok_of_wp (wp_mono
    (Runs.start ok (runs_runOps (A := fun _ => False) (o := ∀ op ∈ ops, op.key.isNaN = false) hu ht id
      (balanced_single rfl hn) hfuel'))
    (fun _ _ hq => hq) (fun _ _ hr => hr.2.2 havail) fun _ hA => hA)
  have hl := hpost.balanced.linked
  refine ⟨rs, st, L.height st.rootPageID, hrun, hl.shape hpost.balanced.sized, fun p => ?_,
    fun ho => (hpost.balanced.tree ho).ascends⟩
  exact (hl.mem_reached_iff p).trans (hpost.evolved.mem_pages_iff hl p)

end Reached

def sixRows : List (TreeOp ℕ) :=
  [.insert 10 (.int 1), .insert 20 (.int 2), .insert 30 (.int 3), .insert 40 (.int 4), .insert 50 (.int 5),
    .insert 60 (.int 6)]

/-- Six insertions split the root and a leaf. -/
theorem shape_of_run_two : ∃ rs st d,
    runOps memoryPager.toPagerOps 2 8 sixRows (emptyMemory ℕ 2 none) = .ok rs st ∧
      (st.rootPageID = 1 ∧ st.pager.pages.length = 4) ∧
      Shape 2 (memoryPager.view st.pager) st.rootPageID d ∧
      (∀ p, p ∈ reached (memoryPager.view st.pager) d st.rootPageID ↔
        p = 0 ∨ memoryPager.view (emptyMemory ℕ 2 none).pager p = none ∧
          memoryPager.view st.pager p ≠ none) ∧
      Ascends (memoryPager.view st.pager) st.rootPageID d := by
  obtain ⟨rs, st, d, hrun, hshape, hpages, hasc⟩ := shape_of_run (by decide) (by decide)
    (emptyTree_emptyMemory 2 none) rfl sixRows (le_refl 8)
  have hsplit : ((runOps memoryPager.toPagerOps 2 8 sixRows (emptyMemory ℕ 2 none)).stateD
        (emptyMemory ℕ 2 none)).rootPageID = 1 ∧
      ((runOps memoryPager.toPagerOps 2 8 sixRows (emptyMemory ℕ 2 none)).stateD
        (emptyMemory ℕ 2 none)).pager.pages.length = 4 := by
    decide +kernel
  rw [hrun] at hsplit
  exact ⟨rs, st, d, hrun, hsplit, hshape, hpages, hasc (by simp [sixRows, TreeOp.key, Vari.isNaN])⟩

def nan : Vari := .float 0x7FC00000

def nanTwice : BtreeState (Memory ℕ) :=
  ⟨⟨[{ (BtreeNodePage.new 2 PGID_INVALID true true 0 : BtreeNodePage ℕ) with
    cells := [⟨nan, 20⟩, ⟨nan, 10⟩] }], none⟩, 0⟩

def earlySplit : BtreeState (Memory ℕ) :=
  ⟨⟨[{ (BtreeNodePage.new 32770 1 false true 0 : BtreeNodePage ℕ) with cells := [⟨.int 1, 10⟩] },
    { (BtreeNodePage.new 32770 PGID_INVALID true false 1 : BtreeNodePage ℕ) with
      cells := [⟨.int 2, 20⟩], children := [0, 2] },
    { (BtreeNodePage.new 32770 1 false true 2 : BtreeNodePage ℕ) with cells := [⟨.int 3, 30⟩] }],
    none⟩, 1⟩

theorem earlySplit_small (d : ℕ) : ¬Shape 32770 (memoryPager.view earlySplit.pager) 1 d := by
  intro h
  cases d with
  | zero =>
    obtain ⟨n, hn, hl⟩ := h.leaves
    obtain rfl : _ = n := Option.some.inj hn
    cases hl
  | succ d =>
    have hmem : 0 ∈ reached (memoryPager.view earlySplit.pager) (d + 1) 1 := by
      rw [reached_succ (n := { (BtreeNodePage.new 32770 PGID_INVALID true false 1 : BtreeNodePage ℕ) with
        cells := [⟨.int 2, 20⟩], children := [0, 2] }) rfl, List.mem_cons, List.mem_flatMap]
      exact .inr ⟨0, by simp, self_mem_reached d 0⟩
    have := h.lower 0 hmem (by decide) _ rfl
    simp at this

theorem nanTwice_not_ascends (d : ℕ) (hl : LeavesAt (memoryPager.view nanTwice.pager) d 0) :
    ¬Ascends (memoryPager.view nanTwice.pager) 0 d := by
  cases d with
  | zero =>
    intro h
    have : nan.lt nan = true := List.rel_of_pairwise_cons h (List.mem_singleton_self _)
    exact absurd this (by decide)
  | succ d =>
    obtain ⟨n, hn, hf, -⟩ := hl
    obtain rfl : _ = n := Option.some.inj hn
    cases hf

/-- A NaN is inserted a second time, and at degree 32770 three keys are enough for a split. -/
theorem shape_counterexample :
    (runOps memoryPager.toPagerOps 2 4 [.insert 10 nan, .insert 20 nan] (emptyMemory ℕ 2 none) =
        .ok [.changed true, .changed true] nanTwice ∧
      ∀ d, LeavesAt (memoryPager.view nanTwice.pager) d 0 →
        ¬Ascends (memoryPager.view nanTwice.pager) 0 d) ∧
    (runOps memoryPager.toPagerOps 32770 5
        [.insert 10 (.int 1), .insert 20 (.int 2), .insert 30 (.int 3)] (emptyMemory ℕ 32770 none) =
        .ok [.changed true, .changed true, .changed true] earlySplit ∧
      ∀ d, ¬Shape 32770 (memoryPager.view earlySplit.pager) 1 d) :=
  ⟨⟨rfl, nanTwice_not_ascends⟩, by decide +kernel, earlySplit_small⟩

end Kndb.Btree
