import Mathlib.Data.Finset.Insert
import Kndb.Library.Ascending
import Kndb.Btree.Heap

namespace Kndb.Btree

open Ascending

variable {T : Type}

/-- The pages of a tree, with the distance to the leaves and the interval of keys of each. -/
structure Layout where
  pages : Finset ℕ
  height : ℕ → ℕ
  lo : ℕ → Bound
  hi : ℕ → Bound

def keyBounds (cells : List (Cell T)) : List Bound := cells.map fun c => c.key.bound

structure LinkOk (deg : ℕ) (nodes : ℕ → Option (BtreeNodePage T)) (root : ℕ) (L : Layout)
    (p : ℕ) (n : BtreeNodePage T) : Prop where
  degree : n.degree = deg
  leaf_iff : n.leaf = true ↔ L.height p = 0
  leaf_children : n.leaf = true → n.children = []
  children_nodup : n.children.Nodup
  kids : ∀ c ∈ n.children, c ∈ L.pages ∧ L.height c + 1 = L.height p ∧
    ∃ m, nodes c = some m ∧ m.parentID = p
  root_iff : n.root = true ↔ p = root
  listed : p ≠ root → n.parentID ∈ L.pages ∧ ∃ q, nodes n.parentID = some q ∧ p ∈ q.children

/-- The keys of the node `n` at page `p` ascend, and its children lie between them. -/
structure Ordered (L : Layout) (p : ℕ) (n : BtreeNodePage T) : Prop where
  keys : ∀ c ∈ n.cells, c.key.isNaN = false
  between : Between (L.lo p) (L.hi p) (keyBounds n.cells)
  kids_lo : n.leaf = false → n.children.map L.lo = L.lo p :: keyBounds n.cells
  kids_hi : n.leaf = false → n.children.map L.hi = keyBounds n.cells ++ [L.hi p]

structure NodeOk (deg : ℕ) (nodes : ℕ → Option (BtreeNodePage T)) (root : ℕ) (L : Layout)
    (p : ℕ) (n : BtreeNodePage T) : Prop
    extends LinkOk deg nodes root L p n, Ordered L p n

/-- The links of all pages; nothing is said about the cells. -/
structure Linked (deg : ℕ) (nodes : ℕ → Option (BtreeNodePage T)) (root : ℕ) (L : Layout) :
    Prop where
  root_mem : root ∈ L.pages
  top : ∀ p ∈ L.pages, L.height p ≤ L.height root
  link : ∀ p ∈ L.pages, ∃ n, nodes p = some n ∧ LinkOk deg nodes root L p n

structure Tree (deg : ℕ) (nodes : ℕ → Option (BtreeNodePage T)) (root : ℕ) (L : Layout) :
    Prop extends Linked deg nodes root L where
  root_lo : L.lo root = ⊥
  root_hi : L.hi root = ⊤
  ordered : ∀ p ∈ L.pages, ∀ n, nodes p = some n → Ordered L p n

def Arity (nodes : ℕ → Option (BtreeNodePage T)) (L : Layout) : Prop :=
  ∀ p ∈ L.pages, ∀ n, nodes p = some n → n.leaf = false → n.children.length = n.cells.length + 1

/-- Occupancy of minimum degree `t`; the page `ovf`, if any, may hold one cell too many.  A node
that is not a leaf has one child more than cells. -/
structure Occupied (t : ℕ) (nodes : ℕ → Option (BtreeNodePage T)) (root : ℕ) (L : Layout)
    (ovf : Option ℕ) : Prop where
  lower : ∀ p ∈ L.pages, p ≠ root → ∀ n, nodes p = some n → t - 1 ≤ n.cells.length
  upper : ∀ p ∈ L.pages, ∀ n, nodes p = some n →
    n.cells.length ≤ 2 * t - 2 + if ovf = some p then 1 else 0
  arity : ∀ p ∈ L.pages, ∀ n, nodes p = some n → n.leaf = false →
    n.children.length = n.cells.length + 1

structure Sized (t : ℕ) (nodes : ℕ → Option (BtreeNodePage T)) (root : ℕ) (L : Layout)
    (ovf : Option ℕ) : Prop extends Occupied t nodes root L ovf where
  root_nonempty : ∀ n, nodes root = some n → n.leaf = false → 1 ≤ n.cells.length

/-- The heap holds a tree of minimum degree `u`, whose keys are in order if `o` holds. -/
structure Balanced (o : Prop) (deg u : ℕ) (h : Heap T) (L : Layout) (ovf : Option ℕ) :
    Prop where
  linked : Linked deg h.nodes h.root L
  sized : Sized u h.nodes h.root L ovf
  tree : o → Tree deg h.nodes h.root L

/-- The cells below a page of a given height, in order. -/
def inorder (nodes : ℕ → Option (BtreeNodePage T)) : ℕ → ℕ → List (Cell T)
  | 0, p => (nodes p).elim [] (·.cells)
  | h + 1, p => (nodes p).elim [] fun n => weave (n.children.map (inorder nodes h)) n.cells

def CellIn (nodes : ℕ → Option (BtreeNodePage T)) (L : Layout) (c : Cell T) : Prop :=
  ∃ p ∈ L.pages, ∃ n, nodes p = some n ∧ c ∈ n.cells

section Node

variable {deg : ℕ} {nodes : ℕ → Option (BtreeNodePage T)} {root : ℕ} {L : Layout} {p : ℕ}
variable {n : BtreeNodePage T}

theorem LinkOk.leaf_eq_false (h : LinkOk deg nodes root L p n) (hp : L.height p ≠ 0) :
    n.leaf = false := by
  rw [← Bool.not_eq_true, h.leaf_iff]
  exact hp

theorem Ordered.children_length (h : Ordered L p n) (hl : n.leaf = false) :
    n.children.length = n.cells.length + 1 := by
  simpa [keyBounds] using congrArg List.length (h.kids_lo hl)

theorem Ordered.sorted (h : Ordered L p n) :
    n.cells.Pairwise fun a b => a.key.rank < b.key.rank := by
  have := h.between.sorted
  rw [keyBounds, List.pairwise_map] at this
  exact this.imp Vari.bound_lt_bound.mp

theorem Ordered.cell_bounds (h : Ordered L p n) {c : Cell T} (hc : c ∈ n.cells) :
    L.lo p < c.key.bound ∧ c.key.bound < L.hi p :=
  h.between.mem (List.mem_map_of_mem hc)

end Node

section Tree

variable {deg : ℕ} {nodes nodes' : ℕ → Option (BtreeNodePage T)} {root : ℕ} {L : Layout}

theorem Linked.link_of (h : Linked deg nodes root L) {p : ℕ} (hp : p ∈ L.pages)
    {n : BtreeNodePage T} (hn : nodes p = some n) : LinkOk deg nodes root L p n := by
  obtain ⟨n', hn', ok⟩ := h.link p hp
  rwa [Option.some.inj (hn.symm.trans hn')]

theorem Tree.node_of (h : Tree deg nodes root L) {p : ℕ} (hp : p ∈ L.pages)
    {n : BtreeNodePage T} (hn : nodes p = some n) : NodeOk deg nodes root L p n :=
  { h.link_of hp hn, h.ordered p hp n hn with }

theorem Tree.node (h : Tree deg nodes root L) (p : ℕ) (hp : p ∈ L.pages) :
    ∃ n, nodes p = some n ∧ NodeOk deg nodes root L p n := by
  obtain ⟨n, hn, -⟩ := h.link p hp
  exact ⟨n, hn, h.node_of hp hn⟩

theorem Linked.congr (h : Linked deg nodes root L) (heq : ∀ p ∈ L.pages, nodes' p = nodes p) :
    Linked deg nodes' root L where
  root_mem := h.root_mem
  top := h.top
  link p hp := by
    obtain ⟨n, hn, ok⟩ := h.link p hp
    refine ⟨n, (heq p hp).trans hn, { ok with kids := ?_, listed := ?_ }⟩
    · intro c hc
      obtain ⟨hm, hh, m, hcm, hpar⟩ := ok.kids c hc
      exact ⟨hm, hh, m, (heq c hm).trans hcm, hpar⟩
    · intro hr
      obtain ⟨hm, q, hq, hmem⟩ := ok.listed hr
      exact ⟨hm, q, (heq _ hm).trans hq, hmem⟩

theorem Tree.congr (h : Tree deg nodes root L) (heq : ∀ p ∈ L.pages, nodes' p = nodes p) :
    Tree deg nodes' root L where
  toLinked := h.toLinked.congr heq
  root_lo := h.root_lo
  root_hi := h.root_hi
  ordered p hp n hn := h.ordered p hp n (heq p hp ▸ hn)

theorem Sized.congr {t : ℕ} {ovf : Option ℕ} (h : Sized t nodes root L ovf)
    (hr : root ∈ L.pages) (heq : ∀ p ∈ L.pages, nodes' p = nodes p) :
    Sized t nodes' root L ovf where
  lower p hp hpr n hn := h.lower p hp hpr n (heq p hp ▸ hn)
  upper p hp n hn := h.upper p hp n (heq p hp ▸ hn)
  arity p hp n hn := h.arity p hp n (heq p hp ▸ hn)
  root_nonempty n hn hl := h.root_nonempty n (heq root hr ▸ hn) hl

theorem Occupied.drop_over {t f : ℕ} (h : Occupied t nodes root L (some f))
    (hf : ∀ n, nodes f = some n → n.cells.length ≤ 2 * t - 2) : Occupied t nodes root L none where
  lower := h.lower
  upper p hp n hn := by
    by_cases he : p = f
    · simpa using hf n (he ▸ hn)
    · have := h.upper p hp n hn
      rwa [if_neg (fun hs => he (Option.some.inj hs).symm)] at this
  arity := h.arity

theorem Sized.drop_over {t f : ℕ} (h : Sized t nodes root L (some f))
    (hf : ∀ n, nodes f = some n → n.cells.length ≤ 2 * t - 2) : Sized t nodes root L none where
  toOccupied := h.toOccupied.drop_over hf
  root_nonempty := h.root_nonempty

theorem CellIn.congr (heq : ∀ p ∈ L.pages, nodes' p = nodes p) (c : Cell T) :
    CellIn nodes' L c ↔ CellIn nodes L c := by
  refine exists_congr fun p => and_congr_right fun hp => ?_
  rw [heq p hp]

theorem inorder_zero (p : ℕ) {n : BtreeNodePage T} (hn : nodes p = some n) :
    inorder nodes 0 p = n.cells := by simp [inorder, hn]

theorem inorder_succ (k p : ℕ) {n : BtreeNodePage T} (hn : nodes p = some n) :
    inorder nodes (k + 1) p = weave (n.children.map (inorder nodes k)) n.cells := by
  simp [inorder, hn]

theorem Tree.inorder_between (h : Tree deg nodes root L) {k p : ℕ} (hp : p ∈ L.pages)
    (hk : L.height p = k) : Between (L.lo p) (L.hi p) (keyBounds (inorder nodes k p)) := by
  induction k generalizing p with
  | zero =>
    obtain ⟨n, hn, ok⟩ := h.node p hp
    rw [inorder_zero p hn]
    exact ok.between
  | succ k ih =>
    obtain ⟨n, hn, ok⟩ := h.node p hp
    have hl : n.leaf = false := ok.leaf_eq_false (by omega)
    rw [inorder_succ k p hn, keyBounds, map_weave, List.map_map]
    refine between_weave _ ok.between (ok.kids_lo hl) (ok.kids_hi hl) ?_
    intro c hc
    obtain ⟨hm, hh, -⟩ := ok.kids c hc
    exact ih hm (by omega)

theorem Tree.cellIn_of_mem_inorder (h : Tree deg nodes root L) {k p : ℕ} (hp : p ∈ L.pages)
    (hk : L.height p = k) {c : Cell T} (hc : c ∈ inorder nodes k p) : CellIn nodes L c := by
  induction k generalizing p with
  | zero =>
    obtain ⟨n, hn, ok⟩ := h.node p hp
    rw [inorder_zero p hn] at hc
    exact ⟨p, hp, n, hn, hc⟩
  | succ k ih =>
    obtain ⟨n, hn, ok⟩ := h.node p hp
    have hl : n.leaf = false := ok.leaf_eq_false (by omega)
    rw [inorder_succ k p hn, mem_weave _ _ _ (ok.children_length hl)] at hc
    rcases hc with hc | ⟨q, hq, hc⟩
    · exact ⟨p, hp, n, hn, hc⟩
    · obtain ⟨hm, hh, -⟩ := ok.kids q hq
      exact ih hm (by omega) hc

theorem Tree.mem_inorder_parent (h : Tree deg nodes root L) {k p : ℕ} (hp : p ∈ L.pages)
    (hk : L.height p = k) (hr : p ≠ root) {n : BtreeNodePage T} (hn : nodes p = some n)
    {c : Cell T} (hc : c ∈ inorder nodes k p) :
    n.parentID ∈ L.pages ∧ L.height n.parentID = k + 1 ∧ c ∈ inorder nodes (k + 1) n.parentID := by
  obtain ⟨hm, q, hq, hmem⟩ := (h.node_of hp hn).listed hr
  have okq := h.node_of hm hq
  have hh : L.height n.parentID = k + 1 := by
    have := (okq.kids p hmem).2.1
    omega
  have hl : q.leaf = false := okq.leaf_eq_false (by omega)
  refine ⟨hm, hh, ?_⟩
  rw [inorder_succ k _ hq, mem_weave _ _ _ (okq.children_length hl)]
  exact .inr ⟨p, hmem, hc⟩

theorem Tree.mem_inorder_climb (h : Tree deg nodes root L) {c : Cell T} (d : ℕ) :
    ∀ p ∈ L.pages, L.height p + d = L.height root → c ∈ inorder nodes (L.height p) p →
      c ∈ inorder nodes (L.height root) root := by
  induction d with
  | zero =>
    intro p hp hd hc
    by_cases hr : p = root
    · exact hr ▸ hc
    · obtain ⟨n, hn, -⟩ := h.node p hp
      obtain ⟨hm, hh, -⟩ := h.mem_inorder_parent hp rfl hr hn hc
      have := h.top _ hm
      omega
  | succ d ih =>
    intro p hp hd hc
    have hr : p ≠ root := by rintro rfl; omega
    obtain ⟨n, hn, -⟩ := h.node p hp
    obtain ⟨hm, hh, hc'⟩ := h.mem_inorder_parent hp rfl hr hn hc
    exact ih _ hm (by omega) (hh ▸ hc')

/-- The in-order sequence of the root lists every cell of the tree. -/
theorem Tree.mem_inorder_root (h : Tree deg nodes root L) (c : Cell T) :
    c ∈ inorder nodes (L.height root) root ↔ CellIn nodes L c := by
  refine ⟨h.cellIn_of_mem_inorder h.root_mem rfl, ?_⟩
  rintro ⟨p, hp, n, hn, hc⟩
  have hle := h.top p hp
  refine h.mem_inorder_climb (L.height root - L.height p) p hp (by omega) ?_
  have ok := h.node_of hp hn
  rcases hk : L.height p with _ | k
  · rwa [inorder_zero p hn]
  · rw [inorder_succ k p hn, mem_weave _ _ _ (ok.children_length (ok.leaf_eq_false (by omega)))]
    exact .inl hc

theorem Tree.inorder_sorted (h : Tree deg nodes root L) :
    (inorder nodes (L.height root) root).Pairwise fun a b => a.key.rank < b.key.rank := by
  have := (h.inorder_between h.root_mem rfl).sorted
  rw [keyBounds, List.pairwise_map] at this
  exact this.imp Vari.bound_lt_bound.mp

theorem Tree.cell_unique (h : Tree deg nodes root L) {c c' : Cell T} (hc : CellIn nodes L c)
    (hc' : CellIn nodes L c') (hk : c.key.rank = c'.key.rank) : c = c' := by
  rw [← h.mem_inorder_root] at hc hc'
  have hs := h.inorder_sorted
  have hall : c = c' ∨ c.key.rank < c'.key.rank ∨ c'.key.rank < c.key.rank :=
    List.Pairwise.forall_of_forall_of_flip
      (R := fun a b => a = b ∨ a.key.rank < b.key.rank ∨ b.key.rank < a.key.rank)
      (fun _ _ => .inl rfl) (hs.imp fun h => .inr (.inl h)) (hs.imp fun h => .inr (.inr h)) hc hc'
  rcases hall with h | h | h
  · exact h
  · exact absurd hk h.ne
  · exact absurd hk h.ne'

/-- The cells below a page other than those of the node itself and of one child lie outside the
interval of that child. -/
theorem Tree.child_of_key (h : Tree deg nodes root L) {k p q : ℕ} (hp : p ∈ L.pages)
    (hk : L.height p = k + 1) {n : BtreeNodePage T} (hn : nodes p = some n) (hq : q ∈ n.children)
    {key : Vari} (hlo : L.lo q < key.bound) (hhi : key.bound < L.hi q)
    (hno : ∀ c ∈ n.cells, c.key.rank ≠ key.rank) {c : Cell T} (hc : c ∈ inorder nodes (k + 1) p)
    (hr : c.key.rank = key.rank) : c ∈ inorder nodes k q := by
  have ok := h.node_of hp hn
  have hl : n.leaf = false := ok.leaf_eq_false (by omega)
  rw [inorder_succ k p hn, mem_weave _ _ _ (ok.children_length hl)] at hc
  rcases hc with hc | ⟨q', hq', hc⟩
  · exact absurd hr (hno c hc)
  · obtain ⟨hm', hh', -⟩ := ok.kids q' hq'
    have hb := (h.inorder_between hm' (by omega : L.height q' = k)).mem (List.mem_map_of_mem hc)
    have hcb : c.key.bound = key.bound := Vari.bound_inj.mpr hr
    rw [hcb] at hb
    rwa [kid_unique ok.between (ok.kids_lo hl) (ok.kids_hi hl) hq hq' ⟨hlo, hhi⟩ hb]

end Tree
end Kndb.Btree
