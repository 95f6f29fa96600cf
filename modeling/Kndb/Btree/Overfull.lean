import Kndb.Btree.Shape

namespace Kndb.Btree

variable {T : Type} {nodes : ℕ → Option (BtreeNodePage T)} {root d t : ℕ}

structure ShapeBut (t : ℕ) (nodes : ℕ → Option (BtreeNodePage T)) (root d : ℕ) (ovf : Option ℕ) : Prop where
  leaves : LeavesAt nodes d root
  once : (reached nodes d root).Nodup
  degree : ∀ p ∈ reached nodes d root, ∀ n, nodes p = some n → n.degree = t
  upper : ∀ p ∈ reached nodes d root, ovf ≠ some p → ∀ n, nodes p = some n → n.cells.length ≤ 2 * t - 2
  lower : ∀ p ∈ reached nodes d root, p ≠ root → ∀ n, nodes p = some n → t - 1 ≤ n.cells.length
  leaf_children : ∀ p ∈ reached nodes d root, ∀ n, nodes p = some n → n.leaf = true → n.children = []
  arity : ∀ p ∈ reached nodes d root, ∀ n, nodes p = some n → n.leaf = false →
    n.children.length = n.cells.length + 1
  parent : ∀ p ∈ reached nodes d root, ∀ n, nodes p = some n → ∀ q ∈ n.children,
    ∃ m, nodes q = some m ∧ m.parentID = p
  root_flag : ∀ p ∈ reached nodes d root, ∀ n, nodes p = some n → (n.root = true ↔ p = root)
  ascends : Ascends nodes root d

/-- The page `id` has exactly one key too many. -/
structure Overfull (t : ℕ) (nodes : ℕ → Option (BtreeNodePage T)) (root d id : ℕ) : Prop
    extends ShapeBut t nodes root d (some id) where
  mem : id ∈ reached nodes d root
  full : ∀ n, nodes id = some n → n.cells.length = 2 * t - 1

/-- The number of levels below a page, along the first children. -/
def levels (nodes : ℕ → Option (BtreeNodePage T)) : ℕ → ℕ → ℕ
  | 0, _ => 0
  | d + 1, p => (nodes p).elim 0 fun n => n.children.head?.elim 0 fun q => levels nodes d q + 1

/-- The pages of a tree of depth `d`; nothing is said about the intervals of keys. -/
def Layout.reached (nodes : ℕ → Option (BtreeNodePage T)) (root d : ℕ) : Layout where
  pages := (Btree.reached nodes d root).toFinset
  height := levels nodes d
  lo _ := ⊥
  hi _ := ⊤

theorem Layout.mem_reached {p : ℕ} : p ∈ (Layout.reached nodes root d).pages ↔ p ∈ Btree.reached nodes d root :=
  List.mem_toFinset

theorem reached_child_sublist {p q : ℕ} {n : BtreeNodePage T} (hn : nodes p = some n) (hq : q ∈ n.children) :
    (reached nodes d q).Sublist (reached nodes (d + 1) p) := by
  rw [reached_succ hn]
  exact (List.sublist_flatten_of_mem (List.mem_map_of_mem hq)).cons p

/-- A page in a tree is the root of a tree itself, and the child of a page unless it is the root. -/
structure Below (nodes : ℕ → Option (BtreeNodePage T)) (root d p k : ℕ) : Prop where
  le : k ≤ d
  leaves : LeavesAt nodes k p
  sublist : (reached nodes k p).Sublist (reached nodes d root)
  listed : p ≠ root → ∃ q ∈ reached nodes d root, ∃ n, nodes q = some n ∧ p ∈ n.children

theorem below_of_reached {p : ℕ} (hl : LeavesAt nodes d root) (hp : p ∈ reached nodes d root) :
    ∃ k, Below nodes root d p k := by
  induction d generalizing root with
  | zero =>
    obtain rfl : p = root := by simpa [reached] using hp
    exact ⟨0, le_rfl, hl, List.Sublist.refl _, fun hne => absurd rfl hne⟩
  | succ d ih =>
    have hl' := hl
    obtain ⟨n, hn, -, hkids⟩ := hl
    rw [reached_succ hn, List.mem_cons, List.mem_flatMap] at hp
    rcases hp with rfl | ⟨c, hc, hp⟩
    · exact ⟨d + 1, le_rfl, hl', List.Sublist.refl _, fun hne => absurd rfl hne⟩
    · obtain ⟨k, hb⟩ := ih (hkids c hc) hp
      have hsub := reached_child_sublist (d := d) hn hc
      refine ⟨k, hb.le.trans (Nat.le_succ d), hb.leaves, hb.sublist.trans hsub, fun _ => ?_⟩
      by_cases hpc : p = c
      · exact ⟨root, self_mem_reached _ _, n, hn, hpc ▸ hc⟩
      · obtain ⟨q, hq, m, hm, hpm⟩ := hb.listed hpc
        exact ⟨q, hsub.mem hq, m, hm, hpm⟩

section Shape

variable {ovf : Option ℕ} {p q k : ℕ} {n : BtreeNodePage T}

theorem Below.mem (h : Below nodes root d p k) : p ∈ reached nodes d root :=
  h.sublist.mem (self_mem_reached k p)

theorem Below.child (h : Below nodes root d p (k + 1)) (hn : nodes p = some n) (hq : q ∈ n.children) :
    Below nodes root d q k := by
  obtain ⟨m, hm, -, hkids⟩ := h.leaves
  obtain rfl : n = m := Option.some.inj (hn.symm.trans hm)
  exact ⟨(Nat.le_succ k).trans h.le, hkids q hq, (reached_child_sublist hn hq).trans h.sublist,
    fun _ => ⟨p, h.mem, n, hn, hq⟩⟩

theorem ShapeBut.levels_eq (h : ShapeBut t nodes root d ovf) (hb : Below nodes root d p k) {e : ℕ} (hk : k ≤ e) :
    levels nodes e p = k := by
  induction k generalizing p e with
  | zero =>
    obtain ⟨n, hn, hleaf⟩ := hb.leaves
    cases e with
    | zero => rfl
    | succ e => simp [levels, hn, h.leaf_children p hb.mem n hn hleaf]
  | succ k ih =>
    obtain ⟨e, rfl⟩ : ∃ e', e = e' + 1 := ⟨e - 1, by omega⟩
    obtain ⟨n, hn, hleaf, -⟩ := hb.leaves
    have harity := h.arity p hb.mem n hn hleaf
    obtain ⟨c, cs, hcs⟩ := List.exists_cons_of_length_pos (l := n.children) (by omega)
    have hc : Below nodes root d c k := hb.child hn (by simp [hcs])
    simp [levels, hn, hcs, ih hc (Nat.le_of_succ_le_succ hk)]

theorem ShapeBut.children_nodup (h : ShapeBut t nodes root d ovf) (hb : Below nodes root d p k)
    (hn : nodes p = some n) : n.children.Nodup := by
  cases k with
  | zero =>
    obtain ⟨m, hm, hleaf⟩ := hb.leaves
    obtain rfl : n = m := Option.some.inj (hn.symm.trans hm)
    rw [h.leaf_children p hb.mem n hn hleaf]
    exact List.nodup_nil
  | succ k =>
    have honce := h.once.sublist hb.sublist
    rw [reached_succ hn, List.nodup_cons, List.nodup_flatMap] at honce
    refine honce.2.2.imp fun {a b} hdis => ?_
    rintro rfl
    exact hdis (self_mem_reached k a) (self_mem_reached k a)

theorem ShapeBut.linkOk (h : ShapeBut t nodes root d ovf) (hb : Below nodes root d p k)
    (hn : nodes p = some n) : LinkOk t nodes root (.reached nodes root d) p n where
  degree := h.degree p hb.mem n hn
  leaf_iff := by
    change n.leaf = true ↔ levels nodes d p = 0
    -- the height of a page is its distance from the leaves, which all lie equally deep
    rw [h.levels_eq hb hb.le]
    cases k with
    | zero =>
      obtain ⟨m, hm, hleaf⟩ := hb.leaves
      obtain rfl : n = m := Option.some.inj (hn.symm.trans hm)
      simp [hleaf]
    | succ k =>
      obtain ⟨m, hm, hleaf, -⟩ := hb.leaves
      obtain rfl : n = m := Option.some.inj (hn.symm.trans hm)
      simp [hleaf]
  leaf_children := h.leaf_children p hb.mem n hn
  children_nodup := h.children_nodup hb hn
  kids := by
    intro c hc
    cases k with
    | zero =>
      obtain ⟨m, hm, hleaf⟩ := hb.leaves
      obtain rfl : n = m := Option.some.inj (hn.symm.trans hm)
      rw [h.leaf_children p hb.mem n hn hleaf] at hc
      exact absurd hc List.not_mem_nil
    | succ k =>
      have hbc := hb.child hn hc
      refine ⟨Layout.mem_reached.mpr hbc.mem, ?_, h.parent p hb.mem n hn c hc⟩
      change levels nodes d c + 1 = levels nodes d p
      rw [h.levels_eq hb hb.le, h.levels_eq hbc hbc.le]
  root_iff := h.root_flag p hb.mem n hn
  listed := by
    intro hr
    obtain ⟨q, hq, m, hm, hpm⟩ := hb.listed hr
    obtain ⟨n', hn', hpar⟩ := h.parent q hq m hm p hpm
    obtain rfl : n = n' := Option.some.inj (hn.symm.trans hn')
    exact hpar ▸ ⟨Layout.mem_reached.mpr hq, m, hm, hpm⟩

theorem ShapeBut.root_height (h : ShapeBut t nodes root d ovf) : (Layout.reached nodes root d).height root = d :=
  h.levels_eq ⟨le_rfl, h.leaves, List.Sublist.refl _, fun hne => absurd rfl hne⟩ le_rfl

theorem ShapeBut.linked (h : ShapeBut t nodes root d ovf) : Linked t nodes root (.reached nodes root d) where
  root_mem := Layout.mem_reached.mpr (self_mem_reached d root)
  top := by
    intro p hp
    obtain ⟨k, hb⟩ := below_of_reached h.leaves (Layout.mem_reached.mp hp)
    change levels nodes d p ≤ _
    rw [h.root_height, h.levels_eq hb hb.le]
    exact hb.le
  link := by
    intro p hp
    obtain ⟨k, hb⟩ := below_of_reached h.leaves (Layout.mem_reached.mp hp)
    obtain ⟨n, hn⟩ : ∃ n, nodes p = some n := by
      cases k with
      | zero => exact ⟨_, hb.leaves.choose_spec.1⟩
      | succ k => exact ⟨_, hb.leaves.choose_spec.1⟩
    exact ⟨n, hn, h.linkOk hb hn⟩

theorem Overfull.occupied (h : Overfull t nodes root d p) :
    Occupied t nodes root (.reached nodes root d) (some p) where
  lower q hq := h.lower q (Layout.mem_reached.mp hq)
  upper q hq n hn := by
    by_cases hqp : p = q
    · subst hqp
      rw [h.full n hn, if_pos rfl]
      omega
    · exact (h.upper q (Layout.mem_reached.mp hq) (by simpa using hqp) n hn).trans (Nat.le_add_right ..)
  arity q hq := h.arity q (Layout.mem_reached.mp hq)

end Shape

theorem Linked.shapeBut {L : Layout} (h : Linked t nodes root L) (ho : Occupied t nodes root L none)
    (hasc : Ascends nodes root (L.height root)) : ShapeBut t nodes root (L.height root) none where
  leaves := h.leavesAt h.root_mem rfl
  once := h.reached_nodup h.root_mem rfl
  degree p hp n hn := (h.link_of ((h.mem_reached_iff p).mp hp) hn).degree
  upper p hp _ n hn := by simpa using ho.upper p ((h.mem_reached_iff p).mp hp) n hn
  lower p hp := ho.lower p ((h.mem_reached_iff p).mp hp)
  leaf_children p hp n hn := (h.link_of ((h.mem_reached_iff p).mp hp) hn).leaf_children
  arity p hp := ho.arity p ((h.mem_reached_iff p).mp hp)
  parent p hp n hn q hq := ((h.link_of ((h.mem_reached_iff p).mp hp) hn).kids q hq).2.2
  root_flag p hp n hn := (h.link_of ((h.mem_reached_iff p).mp hp) hn).root_iff
  ascends := hasc

end Kndb.Btree
