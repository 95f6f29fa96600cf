import Kndb.Btree.SplitTree

namespace Kndb.Btree

open Ascending

variable {T : Type} {deg t : ℕ} {nodes : ℕ → Option (BtreeNodePage T)} {root : ℕ} {L : Layout}

theorem SplitAt.arity_split {c : Cut T} (h : SplitAt deg nodes root L c) (ha : Arity nodes L)
    (hAC : c.A.length = c.C.length) : Arity (splitNodes nodes c) (L.split c) := by
  intro q hq n' hn' hl
  by_cases h1 : q = c.id
  · subst h1
    obtain rfl := Option.some.inj (SplitAt.at_id.symm.trans hn')
    have := ha _ h.mem c.n h.node hl
    rw [h.cells, List.length_append, List.length_cons] at this
    simp only [Cut.leftNode, List.length_take]
    omega
  by_cases h2 : q = c.n.parentID
  · subst h2
    obtain rfl := Option.some.inj (h.at_pid.symm.trans hn')
    have := ha _ h.pid_mem c.p h.parent hl
    rw [h.p_cells, h.p_children] at this
    simp only [Cut.parentNode, List.length_append, List.length_cons] at this ⊢
    omega
  rcases Finset.mem_insert.mp hq with rfl | hq
  · obtain rfl := Option.some.inj (h.at_new.symm.trans hn')
    have := ha _ h.mem c.n h.node hl
    rw [h.cells, List.length_append, List.length_cons] at this
    simp only [Cut.rightNode, List.length_drop]
    omega
  · obtain ⟨n, hn, -⟩ := h.linked.link q hq
    rw [h.at_rest hq h1 h2 hn, Option.some.injEq] at hn'
    have := ha q hq n hn
    subst hn'
    split_ifs at hl ⊢
    · exact this hl
    · exact this hl

theorem SplitAt.occupied_split {c : Cut T} (h : SplitAt deg nodes root L c)
    (ho : Occupied t nodes root L (some c.id)) (hX : t - 1 ≤ c.X.length) (hY : t - 1 ≤ c.Y.length)
    (hXY : c.X.length + c.Y.length + 1 ≤ 2 * t - 1) (hAC : c.A.length = c.C.length) :
    Occupied t (splitNodes nodes c) root (L.split c) (some c.n.parentID) where
  lower q hq hqr n' hn' := by
    rcases h.cells_split hq hn' with ⟨-, he⟩ | ⟨rfl, he⟩ | ⟨-, he⟩ | ⟨-, -, hq, n, hn, he, -⟩
    · rwa [he]
    · have := ho.lower _ h.pid_mem hqr c.p h.parent
      rw [h.p_cells, List.length_append] at this
      rw [he, List.length_append, List.length_cons]
      omega
    · rwa [he]
    · rw [he]
      exact ho.lower q hq hqr n hn
  upper q hq n' hn' := by
    rcases h.cells_split hq hn' with ⟨rfl, he⟩ | ⟨rfl, he⟩ | ⟨rfl, he⟩ | ⟨hid, -, hq, n, hn, he, -⟩
    · rw [he]
      omega
    · have := ho.upper _ h.pid_mem c.p h.parent
      rw [h.p_cells, List.length_append, if_neg (by simpa using h.pid_ne_id.symm)] at this
      rw [he, List.length_append, List.length_cons, if_pos rfl]
      omega
    · rw [he]
      omega
    · have := ho.upper q hq n hn
      rw [if_neg (by simpa using Ne.symm hid)] at this
      rw [he]
      omega
  arity := h.arity_split ho.arity hAC

/-- The median goes to the root, or the root keeps its cells. -/
theorem SplitAt.root_nonempty_split {c : Cut T} (h : SplitAt deg nodes root L c)
    (hr : c.n.parentID ≠ root → ∀ n, nodes root = some n → n.leaf = false → 1 ≤ n.cells.length) :
    ∀ n, splitNodes nodes c root = some n → n.leaf = false → 1 ≤ n.cells.length := by
  intro n' hn' hl
  have hroot := SplitAt.mem_split (c := c) h.linked.root_mem
  rcases h.cells_split hroot hn' with ⟨he, -⟩ | ⟨-, he⟩ | ⟨he, -⟩ | ⟨-, hp, -, n, hn, he, hl'⟩
  · exact absurd he.symm h.ne_root
  · rw [he, List.length_append, List.length_cons]
    omega
  · exact absurd he (h.ne_new h.linked.root_mem)
  · rw [he]
    exact hr hp.symm n hn (hl'.symm.trans hl)

theorem SplitAt.sized_split {c : Cut T} (h : SplitAt deg nodes root L c)
    (ho : Occupied t nodes root L (some c.id)) (hX : t - 1 ≤ c.X.length) (hY : t - 1 ≤ c.Y.length)
    (hXY : c.X.length + c.Y.length + 1 ≤ 2 * t - 1) (hAC : c.A.length = c.C.length)
    (hr : c.n.parentID ≠ root → ∀ n, nodes root = some n → n.leaf = false → 1 ≤ n.cells.length) :
    Sized t (splitNodes nodes c) root (L.split c) (some c.n.parentID) where
  toOccupied := h.occupied_split ho hX hY hXY hAC
  root_nonempty := h.root_nonempty_split hr

def newRootNode (deg root r : ℕ) : BtreeNodePage T :=
  { BtreeNodePage.new deg PGID_INVALID true false r with children := [root] }

def growNodes (nodes : ℕ → Option (BtreeNodePage T)) (deg root r : ℕ) (n : BtreeNodePage T) :
    ℕ → Option (BtreeNodePage T) :=
  Function.update (Function.update nodes r (some (newRootNode deg root r))) root
    (some ((n.setRoot false).setParent r))

def Layout.grow (L : Layout) (root r : ℕ) : Layout where
  pages := Insert.insert r L.pages
  height := Function.update L.height r (L.height root + 1)
  lo := Function.update L.lo r ⊥
  hi := Function.update L.hi r ⊤

section Grow

variable {n : BtreeNodePage T} {r q : ℕ}

theorem Linked.ne_fresh (h : Linked deg nodes root L) (hr : nodes r = none) (hq : q ∈ L.pages) :
    q ≠ r := by
  rintro rfl
  obtain ⟨n', hn', -⟩ := h.link _ hq
  simp [hr] at hn'

theorem growNodes_root : growNodes nodes deg root r n root =
    some ((n.setRoot false).setParent r) := by simp [growNodes]

theorem growNodes_new (h : root ≠ r) :
    growNodes nodes deg root r n r = some (newRootNode deg root r) := by
  simp [growNodes, h.symm]

theorem growNodes_other (h1 : q ≠ root) (h2 : q ≠ r) : growNodes nodes deg root r n q = nodes q := by
  simp [growNodes, h1, h2]

section Layout

variable (h : Linked deg nodes root L) (hr : nodes r = none) (hq : q ∈ L.pages)
include h hr hq

theorem Linked.grow_height : (L.grow root r).height q = L.height q := by
  simp [Layout.grow, h.ne_fresh hr hq]

theorem Linked.grow_lo : (L.grow root r).lo q = L.lo q := by
  simp [Layout.grow, h.ne_fresh hr hq]

theorem Linked.grow_hi : (L.grow root r).hi q = L.hi q := by
  simp [Layout.grow, h.ne_fresh hr hq]

end Layout

theorem Layout.mem_grow (hq : q ∈ L.pages) : q ∈ (L.grow root r).pages := by
  simp [Layout.grow, hq]

theorem Linked.new_link (h : Linked deg nodes root L) (hr : nodes r = none) :
    LinkOk deg (growNodes nodes deg root r n) r (L.grow root r) r (newRootNode deg root r) := by
  constructor
  case degree => rfl
  case leaf_iff => simp [newRootNode, BtreeNodePage.new, Layout.grow]
  case leaf_children => simp [newRootNode, BtreeNodePage.new]
  case children_nodup => simp [newRootNode]
  case kids =>
    intro s hs
    obtain rfl : s = root := by simpa [newRootNode, BtreeNodePage.new] using hs
    refine ⟨Layout.mem_grow h.root_mem, ?_, _, growNodes_root, rfl⟩
    rw [h.grow_height hr h.root_mem]
    simp [Layout.grow]
  case root_iff => simp [newRootNode, BtreeNodePage.new]
  case listed => exact fun hqr => absurd rfl hqr

theorem Linked.child_ne_root (h : Linked deg nodes root L) (hq : q ∈ L.pages)
    {m : BtreeNodePage T} (ok : LinkOk deg nodes root L q m) {s : ℕ} (hs : s ∈ m.children) :
    s ∈ L.pages ∧ s ≠ root := by
  obtain ⟨hsm, hsh, -⟩ := ok.kids s hs
  refine ⟨hsm, ?_⟩
  rintro rfl
  have := h.top q hq
  omega

theorem Linked.grow (h : Linked deg nodes root L) (hn : nodes root = some n) (hr : nodes r = none) :
    Linked deg (growNodes nodes deg root r n) r (L.grow root r) := by
  have hne : ∀ q ∈ L.pages, q ≠ r := fun q hq => h.ne_fresh hr hq
  have hnew : growNodes nodes deg root r n r = some (newRootNode deg root r) :=
    growNodes_new (hne root h.root_mem)
  refine ⟨by simp [Layout.grow], ?_, ?_⟩
  · intro q hq
    rcases Finset.mem_insert.mp hq with rfl | hq
    · exact le_rfl
    · rw [h.grow_height hr hq]
      simpa [Layout.grow] using (h.top q hq).trans (Nat.le_succ _)
  · intro q hq
    rcases Finset.mem_insert.mp hq with rfl | hq
    · exact ⟨_, hnew, h.new_link hr⟩
    obtain ⟨m, hm, ok⟩ := h.link q hq
    have hleaf : m.leaf = true ↔ (L.grow root r).height q = 0 := by
      rw [h.grow_height hr hq]
      exact ok.leaf_iff
    have hkids : ∀ s ∈ m.children, s ∈ (L.grow root r).pages ∧
        (L.grow root r).height s + 1 = (L.grow root r).height q ∧
        ∃ m', growNodes nodes deg root r n s = some m' ∧ m'.parentID = q := by
      intro s hs
      obtain ⟨hsm, hsh, m', hm', hpar⟩ := ok.kids s hs
      have hsr := (h.child_ne_root hq ok hs).2
      refine ⟨Layout.mem_grow hsm, ?_, m', (growNodes_other hsr (hne s hsm)).trans hm', hpar⟩
      rw [h.grow_height hr hsm, h.grow_height hr hq]
      exact hsh
    -- the old root is the only page with a new parent
    by_cases hqr : q = root
    · subst hqr
      obtain rfl : n = m := Option.some.inj (hn.symm.trans hm)
      refine ⟨_, growNodes_root, { ok with
        leaf_iff := hleaf, kids := hkids, root_iff := ?_, listed := fun _ => ⟨?_, _, hnew, ?_⟩ }⟩
      · simpa [BtreeNodePage.setRoot, BtreeNodePage.setParent] using hne q h.root_mem
      · simp [Layout.grow, BtreeNodePage.setParent]
      · simp [newRootNode, BtreeNodePage.new]
    · refine ⟨m, (growNodes_other hqr (hne q hq)).trans hm, { ok with
        leaf_iff := hleaf, kids := hkids, root_iff := ?_, listed := fun _ => ?_ }⟩
      · rw [ok.root_iff]
        exact iff_of_false hqr (hne q hq)
      · obtain ⟨hpm, p, hp, hqp⟩ := ok.listed hqr
        refine ⟨Layout.mem_grow hpm, ?_⟩
        by_cases hpr : m.parentID = root
        · rw [hpr, hn] at hp
          rw [hpr]
          exact ⟨_, growNodes_root, Option.some.inj hp ▸ hqp⟩
        · exact ⟨p, (growNodes_other hpr (hne _ hpm)).trans hp, hqp⟩

theorem Tree.grow (h : Tree deg nodes root L) (hn : nodes root = some n) (hr : nodes r = none) :
    Tree deg (growNodes nodes deg root r n) r (L.grow root r) where
  toLinked := h.toLinked.grow hn hr
  root_lo := by simp [Layout.grow]
  root_hi := by simp [Layout.grow]
  ordered := by
    intro q hq m' hm'
    have hlo := fun q hq => h.grow_lo (q := q) hr hq
    have hhi := fun q hq => h.grow_hi (q := q) hr hq
    -- the new root has no keys, so that its one child has its whole interval
    rcases Finset.mem_insert.mp hq with rfl | hq
    · rw [growNodes_new (h.ne_fresh hr h.root_mem), Option.some.injEq] at hm'
      subst hm'
      have hlo' : (L.grow root q).lo q = (L.grow root q).lo root := by
        rw [hlo root h.root_mem, h.root_lo]
        simp [Layout.grow]
      have hhi' : (L.grow root q).hi q = (L.grow root q).hi root := by
        rw [hhi root h.root_mem, h.root_hi]
        simp [Layout.grow]
      constructor
      case keys => simp [newRootNode, BtreeNodePage.new]
      case between => simp [newRootNode, BtreeNodePage.new, keyBounds, Layout.grow]
      case kids_lo => simp [newRootNode, BtreeNodePage.new, keyBounds, hlo']
      case kids_hi => simp [newRootNode, BtreeNodePage.new, keyBounds, hhi']
    obtain ⟨m, hm, ok⟩ := h.node q hq
    have hsub : ∀ s ∈ m.children, s ∈ L.pages := fun s hs => (ok.kids s hs).1
    have hord : Ordered (L.grow root r) q m := by
      constructor
      case keys => exact ok.keys
      case between => rw [hlo q hq, hhi q hq]; exact ok.between
      case kids_lo =>
        rw [hlo q hq, List.map_congr_left fun s hs => hlo s (hsub s hs)]
        exact ok.kids_lo
      case kids_hi =>
        rw [hhi q hq, List.map_congr_left fun s hs => hhi s (hsub s hs)]
        exact ok.kids_hi
    by_cases hqr : q = root
    · subst hqr
      obtain rfl : n = m := Option.some.inj (hn.symm.trans hm)
      rw [growNodes_root, Option.some.injEq] at hm'
      subst hm'
      exact ⟨hord.keys, hord.between, hord.kids_lo, hord.kids_hi⟩
    · rw [growNodes_other hqr (h.ne_fresh hr hq), hm, Option.some.injEq] at hm'
      exact hm' ▸ hord

theorem Linked.cells_grow (h : Linked deg nodes root L) (hn : nodes root = some n) (hr : nodes r = none)
    {n' : BtreeNodePage T} (hq : q ∈ (L.grow root r).pages)
    (hn' : growNodes nodes deg root r n q = some n') :
    q = r ∧ n'.cells = [] ∨ q ≠ r ∧ q ∈ L.pages ∧ ∃ m, nodes q = some m ∧ n'.cells = m.cells := by
  by_cases hqr : q = r
  · subst hqr
    rw [growNodes_new (h.ne_fresh hr h.root_mem), Option.some.injEq] at hn'
    exact .inl ⟨rfl, hn' ▸ rfl⟩
  · have hq' : q ∈ L.pages := (Finset.mem_insert.mp hq).resolve_left hqr
    refine .inr ⟨hqr, hq', ?_⟩
    by_cases h1 : q = root
    · subst h1
      rw [growNodes_root, Option.some.injEq] at hn'
      exact ⟨n, hn, hn' ▸ rfl⟩
    · rw [growNodes_other h1 hqr] at hn'
      exact ⟨n', hn', rfl⟩

theorem Linked.cellIn_grow (h : Linked deg nodes root L) (hn : nodes root = some n)
    (hr : nodes r = none) (d : Cell T) :
    CellIn (growNodes nodes deg root r n) (L.grow root r) d ↔ CellIn nodes L d := by
  constructor
  · rintro ⟨q, hq, n', hn', hd⟩
    rcases h.cells_grow hn hr hq hn' with ⟨-, he⟩ | ⟨-, hq, m, hm, he⟩
    · simp [he] at hd
    · exact ⟨q, hq, m, hm, he ▸ hd⟩
  · rintro ⟨q, hq, m, hm, hd⟩
    refine ⟨q, by simp [Layout.grow, hq], ?_⟩
    by_cases h1 : q = root
    · subst h1
      exact ⟨_, growNodes_root, Option.some.inj (hn.symm.trans hm) ▸ hd⟩
    · exact ⟨m, (growNodes_other h1 (h.ne_fresh hr hq)).trans hm, hd⟩

theorem Linked.arity_grow (h : Linked deg nodes root L) (hn : nodes root = some n) (hr : nodes r = none)
    (ha : Arity nodes L) : Arity (growNodes nodes deg root r n) (L.grow root r) := by
  intro q hq n' hn' hl
  rcases Finset.mem_insert.mp hq with rfl | hq
  · obtain rfl := Option.some.inj ((growNodes_new (h.ne_fresh hr h.root_mem)).symm.trans hn')
    rfl
  · by_cases hqr : q = root
    · subst hqr
      obtain rfl := Option.some.inj (growNodes_root.symm.trans hn')
      exact ha q h.root_mem n hn hl
    · rw [growNodes_other hqr (h.ne_fresh hr hq)] at hn'
      exact ha q hq n' hn' hl

theorem Linked.occupied_grow (h : Linked deg nodes root L) (hn : nodes root = some n)
    (hr : nodes r = none) (ho : Occupied t nodes root L (some root)) (hlen : t - 1 ≤ n.cells.length) :
    Occupied t (growNodes nodes deg root r n) r (L.grow root r) (some root) where
  lower q hq hqr n' hn' := by
    rcases h.cells_grow hn hr hq hn' with ⟨he, -⟩ | ⟨-, hq, m, hm, he⟩
    · exact absurd he hqr
    · rw [he]
      by_cases h1 : q = root
      · subst h1
        rwa [← Option.some.inj (hn.symm.trans hm)]
      · exact ho.lower q hq h1 m hm
  upper q hq n' hn' := by
    rcases h.cells_grow hn hr hq hn' with ⟨-, he⟩ | ⟨-, hq, m, hm, he⟩
    · simp [he]
    · rw [he]
      exact ho.upper q hq m hm
  arity := h.arity_grow hn hr ho.arity

end Grow
end Kndb.Btree
