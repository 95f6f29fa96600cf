import Kndb.Btree.SplitLinks

namespace Kndb.Btree

open Ascending

variable {T : Type} {deg : ℕ} {nodes : ℕ → Option (BtreeNodePage T)} {root : ℕ} {L : Layout}
variable {c : Cut T} {q : ℕ}

namespace CutAt

theorem ordn (h : CutAt deg nodes root L c) (ht : Tree deg nodes root L) : Ordered L c.id c.n :=
  ht.ordered _ h.mem _ h.node

theorem ordp (h : CutAt deg nodes root L c) (ht : Tree deg nodes root L) :
    Ordered L c.n.parentID c.p :=
  ht.ordered _ h.pid_mem _ h.parent

theorem keyBounds_eq (h : CutAt deg nodes root L c) :
    keyBounds c.n.cells = keyBounds c.X ++ c.m.key.bound :: keyBounds c.Y := by
  simp [h.cells, keyBounds]

theorem parent_lo (h : CutAt deg nodes root L c) (ht : Tree deg nodes root L)
    (hlen : c.A.length = c.C.length) :
    L.lo c.n.parentID :: keyBounds c.C = c.A.map L.lo ++ [L.lo c.id] ∧
      c.B.map L.lo = keyBounds c.D := by
  have hk := (h.ordp ht).kids_lo h.p_leaf
  rw [h.p_children, h.p_cells] at hk
  have hk' : (c.A.map L.lo ++ [L.lo c.id]) ++ c.B.map L.lo =
      (L.lo c.n.parentID :: keyBounds c.C) ++ keyBounds c.D := by
    simpa [keyBounds] using hk
  have := List.append_inj hk' (by simp [keyBounds, hlen])
  exact ⟨this.1.symm, this.2⟩

theorem parent_hi (h : CutAt deg nodes root L c) (ht : Tree deg nodes root L)
    (hlen : c.A.length = c.C.length) :
    c.A.map L.hi = keyBounds c.C ∧
      keyBounds c.D ++ [L.hi c.n.parentID] = L.hi c.id :: c.B.map L.hi := by
  have hk := (h.ordp ht).kids_hi h.p_leaf
  rw [h.p_children, h.p_cells] at hk
  have hk' : c.A.map L.hi ++ (L.hi c.id :: c.B.map L.hi) =
      keyBounds c.C ++ (keyBounds c.D ++ [L.hi c.n.parentID]) := by
    simpa [keyBounds] using hk
  have := List.append_inj hk' (by simp [keyBounds, hlen])
  exact ⟨this.1, this.2.symm⟩

end CutAt

namespace SplitAt

theorem left_ordered (h : SplitAt deg nodes root L c) (ht : Tree deg nodes root L) :
    Ordered (L.split c) c.id c.leftNode := by
  have ok := h.ordn ht
  have hb := ok.between
  rw [h.keyBounds_eq, between_append_cons] at hb
  have hsub : ∀ q ∈ c.n.children.take (c.X.length + 1), q ∈ L.pages :=
    fun q hq => (h.child (List.mem_of_mem_take hq)).1
  have hid : c.id ∉ c.n.children.take (c.X.length + 1) :=
    fun hq => (h.child (List.mem_of_mem_take hq)).2.2.1 rfl
  have hhi : (L.split c).hi c.id = c.m.key.bound := by simp [Layout.split]
  constructor
  case keys => exact fun d hd => ok.keys d (by simp [h.cells, show d ∈ c.X from hd])
  case between => rw [hhi, h.split_lo h.mem]; exact hb.1
  case kids_lo =>
    intro hl
    have hk := congrArg (List.take (c.X.length + 1)) (ok.kids_lo hl)
    rw [h.keyBounds_eq, ← List.map_take] at hk
    rw [Cut.leftNode, h.map_split_lo hsub, h.split_lo h.mem, hk]
    simp [keyBounds]
  case kids_hi =>
    intro hl
    have hk := congrArg (List.take (c.X.length + 1)) (ok.kids_hi hl)
    rw [h.keyBounds_eq, ← List.map_take] at hk
    rw [Cut.leftNode, h.map_split_hi hsub hid, hhi, hk]
    simp [keyBounds, List.take_append]

theorem right_ordered (h : SplitAt deg nodes root L c) (ht : Tree deg nodes root L) :
    Ordered (L.split c) c.new c.rightNode := by
  have ok := h.ordn ht
  have hb := ok.between
  rw [h.keyBounds_eq, between_append_cons] at hb
  have hsub : ∀ q ∈ c.n.children.drop (c.X.length + 1), q ∈ L.pages :=
    fun q hq => (h.child (List.mem_of_mem_drop hq)).1
  have hid : c.id ∉ c.n.children.drop (c.X.length + 1) :=
    fun hq => (h.child (List.mem_of_mem_drop hq)).2.2.1 rfl
  have hlo : (L.split c).lo c.new = c.m.key.bound := by simp [Layout.split]
  have hhi : (L.split c).hi c.new = L.hi c.id := by
    simp [Layout.split, (h.ne_new h.mem).symm]
  constructor
  case keys => exact fun d hd => ok.keys d (by simp [h.cells, show d ∈ c.Y from hd])
  case between => rw [hlo, hhi]; exact hb.2
  case kids_lo =>
    intro hl
    have hk := congrArg (List.drop (c.X.length + 1)) (ok.kids_lo hl)
    rw [h.keyBounds_eq, ← List.map_drop] at hk
    simp only [Cut.rightNode]
    rw [h.map_split_lo hsub, hlo, hk]
    simp [keyBounds]
  case kids_hi =>
    intro hl
    have hk := congrArg (List.drop (c.X.length + 1)) (ok.kids_hi hl)
    rw [h.keyBounds_eq, ← List.map_drop] at hk
    simp only [Cut.rightNode]
    rw [h.map_split_hi hsub hid, hhi, hk]
    simp [keyBounds, List.drop_append]

theorem parent_ordered (h : SplitAt deg nodes root L c) (ht : Tree deg nodes root L)
    (hlen : c.A.length = c.C.length) : Ordered (L.split c) c.n.parentID c.parentNode := by
  have ok := h.ordp ht
  have hmed := (h.ordn ht).cell_bounds (c := c.m) (by simp [h.cells])
  obtain ⟨hA, hB⟩ := h.siblings_ne
  obtain ⟨hlo1, hlo2⟩ := h.parent_lo ht hlen
  obtain ⟨hhi1, hhi2⟩ := h.parent_hi ht hlen
  have hsubA : ∀ q ∈ c.A, q ∈ L.pages :=
    fun q hq => (h.linkp.kids q (by simp [h.p_children, hq])).1
  have hsubB : ∀ q ∈ c.B, q ∈ L.pages :=
    fun q hq => (h.linkp.kids q (by simp [h.p_children, hq])).1
  have hpid : (L.split c).hi c.n.parentID = L.hi c.n.parentID := h.split_hi h.pid_mem h.pid_ne_id
  -- the median lies inside the interval of the node, which is that between its neighbours
  have hkb : keyBounds c.parentNode.cells = keyBounds c.C ++ c.m.key.bound :: keyBounds c.D := by
    simp [Cut.parentNode, keyBounds]
  have hmem : ∀ d ∈ c.parentNode.cells, d ∈ c.n.cells ∨ d ∈ c.p.cells := by
    intro d hd
    simp only [Cut.parentNode, List.mem_append, List.mem_cons] at hd
    rw [h.cells, h.p_cells]
    rcases hd with hd | rfl | hd <;> simp_all
  constructor
  case keys => exact fun d hd => (hmem d hd).elim ((h.ordn ht).keys d) (ok.keys d)
  case between =>
    have hb := ok.between
    rw [h.p_cells, keyBounds, List.map_append] at hb
    rw [h.split_lo h.pid_mem, hpid, hkb]
    exact hb.insert hlo1 hhi2 hmed.1 hmed.2
  case kids_lo =>
    intro _
    have hnew : (L.split c).lo c.new = c.m.key.bound := by simp [Layout.split]
    rw [hkb, h.split_lo h.pid_mem, ← List.cons_append, hlo1]
    simp [Cut.parentNode, h.map_split_lo hsubA, h.map_split_lo hsubB, h.split_lo h.mem, hnew, hlo2]
  case kids_hi =>
    intro _
    have hid : (L.split c).hi c.id = c.m.key.bound := by simp [Layout.split]
    have hnew : (L.split c).hi c.new = L.hi c.id := by simp [Layout.split, (h.ne_new h.mem).symm]
    rw [hkb, hpid, List.append_assoc, List.cons_append, hhi2]
    simp [Cut.parentNode, h.map_split_hi hsubA hA, h.map_split_hi hsubB hB, hid, hnew, hhi1]

theorem other_ordered (h : SplitAt deg nodes root L c) (ht : Tree deg nodes root L)
    (hq : q ∈ L.pages) (hid : q ≠ c.id) (hpid : q ≠ c.n.parentID) {n' : BtreeNodePage T}
    (hn' : splitNodes nodes c q = some n') : Ordered (L.split c) q n' := by
  obtain ⟨n, hn, ok⟩ := ht.node q hq
  have hsub : ∀ r ∈ n.children, r ∈ L.pages := fun r hr => (ok.kids r hr).1
  have hnid : c.id ∉ n.children :=
    fun hr => (h.other_child ok.toLinkOk hid hpid hr).2.1 rfl
  have hord : Ordered (L.split c) q n := by
    constructor
    case keys => exact ok.keys
    case between => rw [h.split_lo hq, h.split_hi hq hid]; exact ok.between
    case kids_lo => rw [h.split_lo hq, h.map_split_lo hsub]; exact ok.kids_lo
    case kids_hi => rw [h.split_hi hq hid, h.map_split_hi hsub hnid]; exact ok.kids_hi
  rw [h.at_rest hq hid hpid hn, Option.some.injEq] at hn'
  subst hn'
  split_ifs
  · exact ⟨hord.keys, hord.between, hord.kids_lo, hord.kids_hi⟩
  · exact hord

/-- One step of `split` keeps the tree invariant. -/
theorem tree_split (h : SplitAt deg nodes root L c) (ht : Tree deg nodes root L)
    (hlen : c.A.length = c.C.length) : Tree deg (splitNodes nodes c) root (L.split c) where
  toLinked := h.linked_split
  root_lo := by rw [h.split_lo ht.root_mem]; exact ht.root_lo
  root_hi := by rw [h.split_hi ht.root_mem h.ne_root.symm]; exact ht.root_hi
  ordered := by
    intro q hq n' hn'
    by_cases h1 : q = c.id
    · subst h1
      exact Option.some.inj (at_id.symm.trans hn') ▸ h.left_ordered ht
    by_cases h2 : q = c.n.parentID
    · subst h2
      exact Option.some.inj (h.at_pid.symm.trans hn') ▸ h.parent_ordered ht hlen
    rcases Finset.mem_insert.mp hq with rfl | hq
    · exact Option.some.inj (h.at_new.symm.trans hn') ▸ h.right_ordered ht
    · exact h.other_ordered ht hq h1 h2 hn'

end SplitAt
end Kndb.Btree
