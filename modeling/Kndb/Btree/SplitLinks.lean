import Kndb.Btree.Invariant

namespace Kndb.Btree

variable {T : Type}

/-- A node cut at its cell `m`, and its parent cut at the node: `X` and `Y` are the cells left and
right of `m`, and the parent lists `A`, `id`, `B` between its cells `C` and `D`. -/
structure Cut (T : Type) where
  id : ℕ
  new : ℕ
  n : BtreeNodePage T
  p : BtreeNodePage T
  X : List (Cell T)
  m : Cell T
  Y : List (Cell T)
  A : List ℕ
  B : List ℕ
  C : List (Cell T)
  D : List (Cell T)

namespace Cut

def leftNode (c : Cut T) : BtreeNodePage T :=
  { c.n with cells := c.X, children := c.n.children.take (c.X.length + 1) }

def rightNode (c : Cut T) : BtreeNodePage T :=
  { c.n with
    pageID := c.new, root := false, cells := c.Y, children := c.n.children.drop (c.X.length + 1) }

def parentNode (c : Cut T) : BtreeNodePage T :=
  { c.p with cells := c.C ++ c.m :: c.D, children := c.A ++ c.id :: c.new :: c.B }

end Cut

def splitNodes (nodes : ℕ → Option (BtreeNodePage T)) (c : Cut T) :
    ℕ → Option (BtreeNodePage T) := fun q =>
  if q = c.id then some c.leftNode
  else if q = c.n.parentID then some c.parentNode
  else if q = c.new then some c.rightNode
  else if q ∈ c.n.children.drop (c.X.length + 1) then (nodes q).map (·.setParent c.new)
  else nodes q

/-- The new page takes the interval of the old one from the median on. -/
def Layout.split (L : Layout) (c : Cut T) : Layout where
  pages := Insert.insert c.new L.pages
  height := Function.update L.height c.new (L.height c.id)
  lo := Function.update L.lo c.new c.m.key.bound
  hi := Function.update (Function.update L.hi c.new (L.hi c.id)) c.id c.m.key.bound

/-- The cut is one of a linked page that is not the root. -/
structure CutAt (deg : ℕ) (nodes : ℕ → Option (BtreeNodePage T)) (root : ℕ) (L : Layout)
    (c : Cut T) : Prop where
  linked : Linked deg nodes root L
  mem : c.id ∈ L.pages
  ne_root : c.id ≠ root
  node : nodes c.id = some c.n
  parent : nodes c.n.parentID = some c.p
  cells : c.n.cells = c.X ++ c.m :: c.Y
  p_children : c.p.children = c.A ++ c.id :: c.B
  p_cells : c.p.cells = c.C ++ c.D

/-- The page can be split along the cut. -/
structure SplitAt (deg : ℕ) (nodes : ℕ → Option (BtreeNodePage T)) (root : ℕ) (L : Layout)
    (c : Cut T) : Prop extends CutAt deg nodes root L c where
  fresh : nodes c.new = none

namespace CutAt

variable {deg : ℕ} {nodes : ℕ → Option (BtreeNodePage T)} {root : ℕ} {L : Layout} {c : Cut T}
variable {q : ℕ}

theorem linkn (h : CutAt deg nodes root L c) : LinkOk deg nodes root L c.id c.n :=
  h.linked.link_of h.mem h.node

theorem pid_mem (h : CutAt deg nodes root L c) : c.n.parentID ∈ L.pages :=
  (h.linkn.listed h.ne_root).1

theorem linkp (h : CutAt deg nodes root L c) : LinkOk deg nodes root L c.n.parentID c.p :=
  h.linked.link_of h.pid_mem h.parent

theorem height_pid (h : CutAt deg nodes root L c) : L.height c.id + 1 = L.height c.n.parentID :=
  (h.linkp.kids c.id (by simp [h.p_children])).2.1

theorem p_leaf (h : CutAt deg nodes root L c) : c.p.leaf = false :=
  h.linkp.leaf_eq_false (by have := h.height_pid; omega)

theorem pid_ne_id (h : CutAt deg nodes root L c) : c.n.parentID ≠ c.id := by
  intro he
  have := h.height_pid
  rw [he] at this
  omega

theorem child (h : CutAt deg nodes root L c) (hq : q ∈ c.n.children) :
    q ∈ L.pages ∧ L.height q + 1 = L.height c.id ∧ q ≠ c.id ∧ q ≠ c.n.parentID := by
  obtain ⟨hm, hh, -⟩ := h.linkn.kids q hq
  have hp := h.height_pid
  refine ⟨hm, hh, ?_, ?_⟩
  · rintro rfl; omega
  · intro he
    rw [he] at hh
    omega

theorem siblings_ne (h : CutAt deg nodes root L c) : c.id ∉ c.A ∧ c.id ∉ c.B := by
  have hnd := h.linkp.children_nodup
  rw [h.p_children, List.nodup_append] at hnd
  exact ⟨fun hA => hnd.2.2 c.id hA c.id (by simp) rfl, (List.nodup_cons.mp hnd.2.1).1⟩

end CutAt

namespace SplitAt

variable {deg : ℕ} {nodes : ℕ → Option (BtreeNodePage T)} {root : ℕ} {L : Layout} {c : Cut T}
variable {q : ℕ}

theorem ne_new (h : SplitAt deg nodes root L c) (hq : q ∈ L.pages) : q ≠ c.new := by
  rintro rfl
  obtain ⟨n', hn', -⟩ := h.linked.link _ hq
  simp [h.fresh] at hn'

theorem at_id : splitNodes nodes c c.id = some c.leftNode := by simp [splitNodes]

theorem at_pid (h : SplitAt deg nodes root L c) :
    splitNodes nodes c c.n.parentID = some c.parentNode := by
  simp [splitNodes, h.pid_ne_id]

theorem at_new (h : SplitAt deg nodes root L c) : splitNodes nodes c c.new = some c.rightNode := by
  simp [splitNodes, (h.ne_new h.mem).symm, (h.ne_new h.pid_mem).symm]

theorem at_moved (h : SplitAt deg nodes root L c) (hq : q ∈ c.n.children.drop (c.X.length + 1)) :
    splitNodes nodes c q = (nodes q).map (·.setParent c.new) := by
  obtain ⟨hm, -, h1, h2⟩ := h.child (List.mem_of_mem_drop hq)
  simp [splitNodes, h1, h2, h.ne_new hm, hq]

theorem at_other (hid : q ≠ c.id) (hpid : q ≠ c.n.parentID) (hnew : q ≠ c.new)
    (hq : q ∉ c.n.children.drop (c.X.length + 1)) : splitNodes nodes c q = nodes q := by
  simp [splitNodes, hid, hpid, hnew, hq]

theorem at_far (h : SplitAt deg nodes root L c) (hq : q ∈ L.pages)
    (hh : L.height c.id ≤ L.height q ∨ L.height q + 1 < L.height c.id) (hid : q ≠ c.id)
    (hpid : q ≠ c.n.parentID) : splitNodes nodes c q = nodes q := by
  refine at_other hid hpid (h.ne_new hq) fun hmem => ?_
  have := (h.child (List.mem_of_mem_drop hmem)).2.1
  omega

theorem split_height (h : SplitAt deg nodes root L c) (hq : q ∈ L.pages) :
    (L.split c).height q = L.height q := by
  simp [Layout.split, h.ne_new hq]

theorem split_lo (h : SplitAt deg nodes root L c) (hq : q ∈ L.pages) :
    (L.split c).lo q = L.lo q := by
  simp [Layout.split, h.ne_new hq]

theorem split_hi (h : SplitAt deg nodes root L c) (hq : q ∈ L.pages) (hid : q ≠ c.id) :
    (L.split c).hi q = L.hi q := by
  simp [Layout.split, h.ne_new hq, hid]

theorem map_split_lo (h : SplitAt deg nodes root L c) {l : List ℕ} (hl : ∀ q ∈ l, q ∈ L.pages) :
    l.map (L.split c).lo = l.map L.lo :=
  List.map_congr_left fun q hq => h.split_lo (hl q hq)

theorem map_split_hi (h : SplitAt deg nodes root L c) {l : List ℕ} (hl : ∀ q ∈ l, q ∈ L.pages)
    (hid : c.id ∉ l) : l.map (L.split c).hi = l.map L.hi :=
  List.map_congr_left fun q hq => h.split_hi (hl q hq) fun he => hid (he ▸ hq)

theorem mem_split (hq : q ∈ L.pages) : q ∈ (L.split c).pages := by
  simp [Layout.split, hq]

theorem left_link (h : SplitAt deg nodes root L c) :
    LinkOk deg (splitNodes nodes c) root (L.split c) c.id c.leftNode := by
  have ok := h.linkn
  constructor
  case degree => exact ok.degree
  case leaf_iff => rw [h.split_height h.mem]; exact ok.leaf_iff
  case leaf_children =>
    intro hl
    simp [Cut.leftNode, ok.leaf_children hl]
  case children_nodup => exact ok.children_nodup.sublist (List.take_sublist ..)
  case kids =>
    intro q hq
    have hq' : q ∈ c.n.children := List.mem_of_mem_take hq
    obtain ⟨hm, hh, m, hqm, hpar⟩ := ok.kids q hq'
    obtain ⟨-, -, h1, h2⟩ := h.child hq'
    have hdrop : q ∉ c.n.children.drop (c.X.length + 1) :=
      fun hd => List.disjoint_take_drop ok.children_nodup le_rfl hq hd
    refine ⟨mem_split hm, by rw [h.split_height hm, h.split_height h.mem]; exact hh, m, ?_, hpar⟩
    rw [at_other h1 h2 (h.ne_new hm) hdrop, hqm]
  case root_iff => exact ok.root_iff
  case listed =>
    exact fun _ => ⟨mem_split h.pid_mem, c.parentNode, h.at_pid, by simp [Cut.parentNode]⟩

theorem right_link (h : SplitAt deg nodes root L c) :
    LinkOk deg (splitNodes nodes c) root (L.split c) c.new c.rightNode := by
  have ok := h.linkn
  have hheight : (L.split c).height c.new = L.height c.id := by simp [Layout.split]
  constructor
  case degree => exact ok.degree
  case leaf_iff => rw [hheight]; exact ok.leaf_iff
  case leaf_children =>
    intro hl
    simp [Cut.rightNode, ok.leaf_children hl]
  case children_nodup => exact ok.children_nodup.sublist (List.drop_sublist ..)
  case kids =>
    intro q hq
    obtain ⟨hm, hh, m, hqm, -⟩ := ok.kids q (List.mem_of_mem_drop hq)
    refine ⟨mem_split hm, by rw [h.split_height hm, hheight]; exact hh, m.setParent c.new, ?_, rfl⟩
    rw [h.at_moved hq, hqm]
    rfl
  case root_iff => simpa [Cut.rightNode] using (h.ne_new h.linked.root_mem).symm
  case listed =>
    exact fun _ => ⟨mem_split h.pid_mem, c.parentNode, h.at_pid, by simp [Cut.parentNode]⟩

theorem parent_link (h : SplitAt deg nodes root L c) :
    LinkOk deg (splitNodes nodes c) root (L.split c) c.n.parentID c.parentNode := by
  have ok := h.linkp
  obtain ⟨hA, hB⟩ := h.siblings_ne
  constructor
  case degree => exact ok.degree
  case leaf_iff => rw [h.split_height h.pid_mem]; exact ok.leaf_iff
  case leaf_children =>
    intro hl
    exact absurd (h.p_leaf.symm.trans hl) (by simp)
  case children_nodup =>
    have hnew : ∀ q ∈ c.p.children, q ≠ c.new := fun q hq => h.ne_new (ok.kids q hq).1
    have hnd := ok.children_nodup
    rw [h.p_children] at hnew hnd
    have hperm : (c.A ++ c.id :: c.new :: c.B).Perm (c.new :: (c.A ++ c.id :: c.B)) := by
      rw [List.append_cons]
      refine List.perm_middle.trans ?_
      simp
    refine hperm.nodup_iff.mpr (List.nodup_cons.mpr ⟨fun hmem => hnew _ hmem rfl, hnd⟩)
  case kids =>
    intro q hq
    -- a child of the parent is one of the two halves or was its child before
    have hcases : q = c.id ∨ q = c.new ∨ q ≠ c.id ∧ q ∈ c.p.children := by
      simp only [Cut.parentNode, List.mem_append, List.mem_cons] at hq
      rw [h.p_children]
      rcases hq with hq | rfl | rfl | hq
      · exact .inr (.inr ⟨fun he => hA (he ▸ hq), by simp [hq]⟩)
      · exact .inl rfl
      · exact .inr (.inl rfl)
      · exact .inr (.inr ⟨fun he => hB (he ▸ hq), by simp [hq]⟩)
    rw [h.split_height h.pid_mem]
    rcases hcases with rfl | rfl | ⟨hne, hq⟩
    · exact ⟨mem_split h.mem, by rw [h.split_height h.mem]; exact h.height_pid, _, at_id, rfl⟩
    · refine ⟨by simp [Layout.split], ?_, _, h.at_new, rfl⟩
      simpa [Layout.split] using h.height_pid
    · obtain ⟨hm, hh, m, hqm, hpar⟩ := ok.kids q hq
      have hp := h.height_pid
      have hqp : q ≠ c.n.parentID := by
        rintro rfl
        omega
      refine ⟨mem_split hm, by rw [h.split_height hm]; exact hh, m, ?_, hpar⟩
      rw [h.at_far hm (by omega) hne hqp, hqm]
  case root_iff => exact ok.root_iff
  case listed =>
    intro hr
    obtain ⟨hm, r, hrn, hmem⟩ := ok.listed hr
    -- the parent of the parent is too high up to be one of the pages that change
    have hh := ((h.linked.link_of hm hrn).kids _ hmem).2.1
    have hp := h.height_pid
    refine ⟨mem_split hm, r, ?_, hmem⟩
    change splitNodes nodes c c.p.parentID = some r
    rw [h.at_far hm (by omega) (by rintro he; rw [he] at hh; omega)
      (by intro he; rw [he] at hh; omega)]
    exact hrn

theorem other_child (h : SplitAt deg nodes root L c) {n : BtreeNodePage T} {r : ℕ}
    (ok : LinkOk deg nodes root L q n) (hid : q ≠ c.id) (hpid : q ≠ c.n.parentID)
    (hr : r ∈ n.children) : r ∈ L.pages ∧ r ≠ c.id ∧
      ∃ m, splitNodes nodes c r = some m ∧ m.parentID = q := by
  obtain ⟨hm, hh, m, hrm, hpar⟩ := ok.kids r hr
  have hrid : r ≠ c.id := by
    rintro rfl
    rw [Option.some.inj (h.node.symm.trans hrm)] at hpid
    exact hpid hpar.symm
  refine ⟨hm, hrid, ?_⟩
  by_cases hrp : r = c.n.parentID
  · refine ⟨c.parentNode, hrp ▸ h.at_pid, ?_⟩
    rw [hrp] at hrm
    rw [← hpar, ← Option.some.inj (h.parent.symm.trans hrm)]
    rfl
  · refine ⟨m, ?_, hpar⟩
    rw [at_other hrid hrp (h.ne_new hm) ?_, hrm]
    intro hd
    obtain ⟨-, -, m', hm', hpar'⟩ := h.linkn.kids r (List.mem_of_mem_drop hd)
    rw [Option.some.inj (hrm.symm.trans hm')] at hpar
    exact hid (hpar.symm.trans hpar')

theorem at_rest (h : SplitAt deg nodes root L c) (hq : q ∈ L.pages) (hid : q ≠ c.id)
    (hpid : q ≠ c.n.parentID) {n : BtreeNodePage T} (hn : nodes q = some n) :
    splitNodes nodes c q =
      some (if q ∈ c.n.children.drop (c.X.length + 1) then n.setParent c.new else n) := by
  by_cases hmoved : q ∈ c.n.children.drop (c.X.length + 1)
  · rw [h.at_moved hmoved, hn, if_pos hmoved]
    rfl
  · rw [at_other hid hpid (h.ne_new hq) hmoved, hn, if_neg hmoved]

theorem other_link (h : SplitAt deg nodes root L c) (hq : q ∈ L.pages) (hid : q ≠ c.id)
    (hpid : q ≠ c.n.parentID) :
    ∃ n', splitNodes nodes c q = some n' ∧ LinkOk deg (splitNodes nodes c) root (L.split c) q n' := by
  obtain ⟨n, hn, ok⟩ := h.linked.link q hq
  have hrest := h.at_rest hq hid hpid hn
  have hkids : ∀ r ∈ n.children, r ∈ (L.split c).pages ∧
      (L.split c).height r + 1 = (L.split c).height q ∧
      ∃ m, splitNodes nodes c r = some m ∧ m.parentID = q := by
    intro r hr
    obtain ⟨hm, -, hex⟩ := h.other_child ok hid hpid hr
    exact ⟨mem_split hm, by rw [h.split_height hm, h.split_height hq]; exact (ok.kids r hr).2.1, hex⟩
  have hleaf : n.leaf = true ↔ (L.split c).height q = 0 := by
    rw [h.split_height hq]
    exact ok.leaf_iff
  -- a child of the right half has a new parent, every other page keeps its own
  by_cases hmoved : q ∈ c.n.children.drop (c.X.length + 1)
  · rw [if_pos hmoved] at hrest
    refine ⟨_, hrest, { ok with
      leaf_iff := hleaf, kids := hkids, listed := fun _ => ⟨?_, c.rightNode, h.at_new, hmoved⟩ }⟩
    simp [Layout.split, BtreeNodePage.setParent]
  · rw [if_neg hmoved] at hrest
    refine ⟨n, hrest, { ok with leaf_iff := hleaf, kids := hkids, listed := fun hr => ?_ }⟩
    obtain ⟨hm, r, hrn, hmem⟩ := ok.listed hr
    refine ⟨mem_split hm, ?_⟩
    by_cases h1 : n.parentID = c.id
    · refine ⟨c.leftNode, h1 ▸ at_id, ?_⟩
      rw [h1] at hrn
      rw [← Option.some.inj (h.node.symm.trans hrn),
        ← List.take_append_drop (c.X.length + 1) c.n.children] at hmem
      exact (List.mem_append.mp hmem).resolve_right hmoved
    by_cases h2 : n.parentID = c.n.parentID
    · refine ⟨c.parentNode, h2 ▸ h.at_pid, ?_⟩
      rw [h2] at hrn
      rw [← Option.some.inj (h.parent.symm.trans hrn), h.p_children] at hmem
      simp only [Cut.parentNode, List.mem_append, List.mem_cons] at hmem ⊢
      tauto
    · refine ⟨_, h.at_rest hm h1 h2 hrn, ?_⟩
      split_ifs <;> exact hmem

/-- One step of `split` keeps the links. -/
theorem linked_split (h : SplitAt deg nodes root L c) :
    Linked deg (splitNodes nodes c) root (L.split c) where
  root_mem := mem_split h.linked.root_mem
  top := by
    intro q hq
    rw [h.split_height h.linked.root_mem]
    rcases Finset.mem_insert.mp hq with rfl | hq
    · simpa [Layout.split] using h.linked.top _ h.mem
    · rw [h.split_height hq]
      exact h.linked.top q hq
  link := by
    intro q hq
    by_cases h1 : q = c.id
    · exact h1 ▸ ⟨_, at_id, h.left_link⟩
    by_cases h2 : q = c.n.parentID
    · exact h2 ▸ ⟨_, h.at_pid, h.parent_link⟩
    rcases Finset.mem_insert.mp hq with rfl | hq
    · exact ⟨_, h.at_new, h.right_link⟩
    · exact h.other_link hq h1 h2

theorem cells_split (h : SplitAt deg nodes root L c) {n' : BtreeNodePage T}
    (hq : q ∈ (L.split c).pages) (hn' : splitNodes nodes c q = some n') :
    q = c.id ∧ n'.cells = c.X ∨ q = c.n.parentID ∧ n'.cells = c.C ++ c.m :: c.D ∨
      q = c.new ∧ n'.cells = c.Y ∨
      q ≠ c.id ∧ q ≠ c.n.parentID ∧ q ∈ L.pages ∧ ∃ n, nodes q = some n ∧ n'.cells = n.cells ∧
        n'.leaf = n.leaf := by
  by_cases h1 : q = c.id
  · subst h1
    rw [at_id, Option.some.injEq] at hn'
    exact .inl ⟨rfl, hn' ▸ rfl⟩
  by_cases h2 : q = c.n.parentID
  · subst h2
    rw [h.at_pid, Option.some.injEq] at hn'
    exact .inr (.inl ⟨rfl, hn' ▸ rfl⟩)
  rcases Finset.mem_insert.mp hq with rfl | hq
  · rw [h.at_new, Option.some.injEq] at hn'
    exact .inr (.inr (.inl ⟨rfl, hn' ▸ rfl⟩))
  · obtain ⟨n, hn, -⟩ := h.linked.link q hq
    refine .inr (.inr (.inr ⟨h1, h2, hq, n, hn, ?_⟩))
    by_cases h3 : q ∈ c.n.children.drop (c.X.length + 1)
    · rw [h.at_moved h3, hn, Option.map_some, Option.some.injEq] at hn'
      exact hn' ▸ ⟨rfl, rfl⟩
    · rw [at_other h1 h2 (h.ne_new hq) h3, hn, Option.some.injEq] at hn'
      exact hn' ▸ ⟨rfl, rfl⟩

/-- A split moves cells between pages and neither adds nor drops one. -/
theorem cellIn_split (h : SplitAt deg nodes root L c) (d : Cell T) :
    CellIn (splitNodes nodes c) (L.split c) d ↔ CellIn nodes L d := by
  constructor
  -- a cell of a half or of the parent was in the node or in the parent
  · rintro ⟨q, hq, n', hn', hd⟩
    rcases h.cells_split hq hn' with ⟨-, he⟩ | ⟨-, he⟩ | ⟨-, he⟩ | ⟨-, -, hq, n, hn, he, -⟩
    · exact ⟨c.id, h.mem, c.n, h.node, by simp [h.cells, ← he, hd]⟩
    · rw [he, List.mem_append, List.mem_cons] at hd
      rcases hd with hd | rfl | hd
      · exact ⟨_, h.pid_mem, c.p, h.parent, by simp [h.p_cells, hd]⟩
      · exact ⟨c.id, h.mem, c.n, h.node, by simp [h.cells]⟩
      · exact ⟨_, h.pid_mem, c.p, h.parent, by simp [h.p_cells, hd]⟩
    · exact ⟨c.id, h.mem, c.n, h.node, by simp [h.cells, ← he, hd]⟩
    · exact ⟨q, hq, n, hn, he ▸ hd⟩
  · rintro ⟨q, hq, n, hn, hd⟩
    by_cases h1 : q = c.id
    · subst h1
      rw [← Option.some.inj (h.node.symm.trans hn), h.cells, List.mem_append, List.mem_cons] at hd
      rcases hd with hd | rfl | hd
      · exact ⟨_, mem_split h.mem, _, at_id, hd⟩
      · exact ⟨_, mem_split h.pid_mem, _, h.at_pid, by simp [Cut.parentNode]⟩
      · exact ⟨c.new, by simp [Layout.split], _, h.at_new, hd⟩
    by_cases h2 : q = c.n.parentID
    · subst h2
      rw [← Option.some.inj (h.parent.symm.trans hn), h.p_cells, List.mem_append] at hd
      refine ⟨_, mem_split h.pid_mem, _, h.at_pid, ?_⟩
      simp only [Cut.parentNode, List.mem_append, List.mem_cons]
      tauto
    by_cases h3 : q ∈ c.n.children.drop (c.X.length + 1)
    · exact ⟨q, mem_split hq, n.setParent c.new, by rw [h.at_moved h3, hn]; rfl, hd⟩
    · exact ⟨q, mem_split hq, n, by rw [at_other h1 h2 (h.ne_new hq) h3, hn], hd⟩

end SplitAt
end Kndb.Btree
