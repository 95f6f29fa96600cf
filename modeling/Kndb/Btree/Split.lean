import Kndb.Btree.Grow

namespace Kndb.Btree

open Imp.Prog

variable {σ T : Type} {P : LawfulPager σ T} {s₀ : σ} {h : Heap T} {A : Imp.Stop → Prop}

def reparent (nodes : ℕ → Option (BtreeNodePage T)) (newParent : ℕ) (l : List ℕ) :
    ℕ → Option (BtreeNodePage T) := fun q =>
  if q ∈ l then (nodes q).map (·.setParent newParent) else nodes q

theorem reparent_nil (nodes : ℕ → Option (BtreeNodePage T)) (newParent : ℕ) :
    reparent nodes newParent [] = nodes := by
  funext q
  simp [reparent]

theorem reparent_cons {nodes : ℕ → Option (BtreeNodePage T)} {newParent pg : ℕ} {pgs : List ℕ}
    {m : BtreeNodePage T} (hm : nodes pg = some m) :
    reparent (Function.update nodes pg (some (m.setParent newParent))) newParent pgs =
      reparent nodes newParent (pg :: pgs) := by
  funext q
  simp only [reparent, List.mem_cons]
  by_cases he : q = pg
  · subst he
    by_cases hq : q ∈ pgs <;> simp [hq, hm, BtreeNodePage.setParent]
  · simp [he]

theorem runs_setParents {Q : Unit → Heap T → Prop} {R : Heap T → Prop} {newParent : ℕ} {l : List ℕ}
    (hl : ∀ q ∈ l, ∃ m, h.nodes q = some m)
    (hQ : Q () { h with nodes := reparent h.nodes newParent l }) :
    Runs P s₀ (setParents P.toPagerOps newParent l) h Q R A := by
  induction l generalizing h with
  | nil =>
    rw [reparent_nil] at hQ
    exact runs_pure hQ
  | cons pg pgs ih =>
    obtain ⟨m, hm⟩ := hl pg (by simp)
    rw [← reparent_cons hm] at hQ
    refine runs_bind (runs_node hm (runs_bind (runs_modify hm rfl (ih ?_ hQ))))
    intro q hq
    obtain ⟨m', hm'⟩ := hl q (by simp [hq])
    by_cases he : q = pg
    · exact ⟨_, by rw [he]; exact Function.update_self ..⟩
    · exact ⟨m', by simpa [he] using hm'⟩

/-- The heap after `moveRightHalf`. -/
def moveNodes (nodes : ℕ → Option (BtreeNodePage T)) (node new : ℕ) (n m : BtreeNodePage T)
    (median : ℕ) : ℕ → Option (BtreeNodePage T) :=
  Function.update
    (Function.update (reparent nodes new (n.children.drop (median + 1))) new
      (some { m with cells := n.cells.drop median, children := n.children.drop (median + 1) }))
    node (some { n with cells := n.cells.take median, children := n.children.take (median + 1) })

theorem moveNodes_new {nodes : ℕ → Option (BtreeNodePage T)} {node new median : ℕ}
    {n m : BtreeNodePage T} (h : new ≠ node) : moveNodes nodes node new n m median new =
      some { m with cells := n.cells.drop median, children := n.children.drop (median + 1) } := by
  simp [moveNodes, h]

theorem moveNodes_other {nodes : ℕ → Option (BtreeNodePage T)} {node new median q : ℕ}
    {n m : BtreeNodePage T} (h1 : q ≠ node) (h2 : q ≠ new) (h3 : q ∉ n.children) :
    moveNodes nodes node new n m median q = nodes q := by
  have : q ∉ n.children.drop (median + 1) := fun hd => h3 (List.mem_of_mem_drop hd)
  simp [moveNodes, h1, h2, reparent, this]

theorem runs_moveRightHalf {Q : Unit → Heap T → Prop} {R : Heap T → Prop} {node new median : ℕ}
    {n m : BtreeNodePage T} (hn : h.nodes node = some n) (hm : h.nodes new = some m)
    (hne : new ≠ node) (hleaf : n.leaf = true → n.children = []) (hmc : m.children = [])
    (hkids : ∀ q ∈ n.children, q ≠ node ∧ q ≠ new ∧ ∃ m, h.nodes q = some m)
    (hcells : median ≤ n.cells.length)
    (hA : n.leaf = false → ¬median + 1 ≤ n.children.length → A .abort)
    (hQ : (n.leaf = false → median + 1 ≤ n.children.length) →
      Q () { h with nodes := moveNodes h.nodes node new n m median }) :
    Runs P s₀ (moveRightHalf P.toPagerOps node new median) h Q R A := by
  refine runs_bind (runs_deref hn fun _ => runs_bind (runs_require (by simpa using hcells) ?_))
  refine runs_bind (runs_modify hm rfl (runs_bind (runs_modify (n := n) ?_ rfl ?_)))
  · simpa [hne.symm] using hn
  -- a node with children gives away those of the right half, each with a new parent
  rcases hl : n.leaf with _ | _
  · simp only [Bool.not_false, if_true]
    refine runs_bind (runs_check (fun hlen => ?_) fun hlen => hA hl (by simpa using hlen))
    refine runs_bind (runs_modify (n := m.setCells (n.cells.drop median)) (by simp [hne]) rfl ?_)
    refine runs_bind (runs_deref (Function.update_self ..) fun _ => ?_)
    refine runs_bind (runs_deref (Function.update_self ..) fun hid => ?_)
    refine runs_bind (runs_setParents ?_ (runs_modify (n := n.setCells (n.cells.take median)) ?_ rfl ?_))
    · intro q hq
      obtain ⟨h1, h2, h3⟩ := hkids q (List.mem_of_mem_drop hq)
      simpa [h1, h2] using h3
    · have : node ∉ n.children.drop (median + 1) :=
        fun hd => (hkids _ (List.mem_of_mem_drop hd)).1 rfl
      simp [reparent, BtreeNodePage.setChildren, this, hne.symm]
    · convert hQ fun _ => by simpa using hlen using 1
      simp only [Heap.set, Heap.mk.injEq, and_true]
      funext q
      have hid' : m.pageID = new := hid
      by_cases h1 : q = node
      · subst h1
        simp [moveNodes, BtreeNodePage.setChildren, BtreeNodePage.setCells]
      by_cases h2 : q = new
      · subst h2
        have : q ∉ n.children.drop (median + 1) :=
          fun hd => (hkids _ (List.mem_of_mem_drop hd)).2.1 rfl
        simp [moveNodes, h1, reparent, this, BtreeNodePage.setChildren, BtreeNodePage.setCells]
      · simp [moveNodes, h1, h2, reparent, BtreeNodePage.setChildren, BtreeNodePage.setCells, hid']
  · simp only [Bool.not_true, Bool.false_eq_true, if_false]
    refine runs_pure ?_
    convert hQ (by simp [hl]) using 1
    simp only [Heap.set, Heap.mk.injEq, and_true]
    funext q
    have hc := hleaf hl
    by_cases h1 : q = node
    · subst h1
      cases n
      simp_all [moveNodes, BtreeNodePage.setCells]
    by_cases h2 : q = new
    · subst h2
      cases m
      simp_all [moveNodes, BtreeNodePage.setCells]
    · simp [moveNodes, h1, h2, reparent, hc]

theorem insertIdx_eq {α : Type} {l : List α} {i : ℕ} (a : α) (hi : i ≤ l.length) :
    l.insertIdx i a = l.take i ++ a :: l.drop i := by
  induction i generalizing l with
  | zero => simp
  | succ i ih =>
    cases l with
    | nil => simp at hi
    | cons b l => simpa using ih (by simpa using hi)

/-- The cut at the median of a node and at its place in the parent. -/
def Cut.atMedian (id new : ℕ) (n p : BtreeNodePage T) (m : Cell T) : Cut T where
  id := id
  new := new
  n := n
  p := p
  X := n.cells.take (n.cells.length / 2)
  m := m
  Y := n.cells.drop (n.cells.length / 2 + 1)
  A := p.children.take (p.children.idxOf id)
  B := p.children.drop (p.children.idxOf id + 1)
  C := p.cells.take (p.children.idxOf id)
  D := p.cells.drop (p.children.idxOf id)

/-- The median is in the parent, but the node keeps all the other cells. -/
def stuckNodes (nodes : ℕ → Option (BtreeNodePage T)) (c : Cut T) :
    ℕ → Option (BtreeNodePage T) :=
  Function.update
    (Function.update nodes c.n.parentID (some { c.p with cells := c.C ++ c.m :: c.D })) c.id
    (some { c.n with cells := c.X ++ c.Y })

/-- `splitNodes` is put together by moving the right half and then writing the parent. -/
theorem moveNodes_stuck (nodes : ℕ → Option (BtreeNodePage T)) {c : Cut T} (hne : c.new ≠ c.id)
    (hnp : c.new ≠ c.n.parentID) (hp : c.n.parentID ≠ c.id) (hroot : c.n.root = false)
    (o : BtreeNodePage T) :
    Function.update
      (moveNodes (Function.update (Function.update (Function.update nodes c.n.parentID (some o)) c.id
          (some (c.n.setCells (c.X ++ c.Y)))) c.new
          (some (.new c.n.degree c.n.parentID false c.n.leaf c.new)))
        c.id c.new (c.n.setCells (c.X ++ c.Y)) (.new c.n.degree c.n.parentID false c.n.leaf c.new)
        c.X.length)
      c.n.parentID (some c.parentNode) = splitNodes nodes c := by
  funext q
  by_cases h1 : q = c.id
  · subst h1
    simp [splitNodes, moveNodes, hp.symm, Cut.leftNode, BtreeNodePage.setCells]
  by_cases h2 : q = c.n.parentID
  · subst h2
    simp [splitNodes, hp]
  by_cases h3 : q = c.new
  · subst h3
    simp [splitNodes, moveNodes, hne, hnp, Cut.rightNode, BtreeNodePage.setCells,
      BtreeNodePage.new, hroot]
  by_cases h4 : q ∈ c.n.children.drop (c.X.length + 1)
  · simp [splitNodes, moveNodes, reparent, h1, h2, h3, h4, BtreeNodePage.setCells]
  · simp [splitNodes, moveNodes, reparent, h1, h2, h3, h4, BtreeNodePage.setCells]

/-- What the non-root branch relies on. -/
structure Attached (deg : ℕ) (nodes : ℕ → Option (BtreeNodePage T)) (id : ℕ)
    (n p : BtreeNodePage T) : Prop where
  node : nodes id = some n
  parent : nodes n.parentID = some p
  degree : n.degree = deg
  not_root : n.root = false
  ne : n.parentID ≠ id
  listed : id ∈ p.children
  leaf_children : n.leaf = true → n.children = []
  kids : ∀ q ∈ n.children, q ≠ id ∧ q ≠ n.parentID ∧ ∃ m, nodes q = some m

structure Halvable (n : BtreeNodePage T) : Prop where
  median : n.cells ≠ []
  children : n.leaf = false → n.cells.length / 2 + 1 ≤ n.children.length

structure Cuttable (id : ℕ) (n p : BtreeNodePage T) : Prop extends Halvable n where
  place : p.children.idxOf id ≤ p.cells.length

theorem runs_splitNonRoot {deg id : ℕ} {n p : BtreeNodePage T} {Q : Unit → Heap T → Prop}
    {R : Heap T → Prop} (hl : Attached deg h.nodes id n p) (hA : ¬Cuttable id n p → A .abort)
    (hQ : Cuttable id n p → ∀ new a m, h.nodes new = none → h.avail = a + 1 →
      n.cells[n.cells.length / 2]? = some m →
      Q () { h with nodes := splitNodes h.nodes (.atMedian id new n p m), avail := a })
    (hR : h.avail = 0 → ∀ new m, n.cells[n.cells.length / 2]? = some m →
      p.children.idxOf id ≤ p.cells.length →
      R { h with nodes := stuckNodes h.nodes (.atMedian id new n p m) }) :
    Runs P s₀ (splitNonRoot P.toPagerOps deg id id) h Q R A := by
  have hidx : p.children.idxOf id < p.children.length := List.idxOf_lt_length_of_mem hl.listed
  refine runs_bind (runs_deref hl.node fun hnid => runs_bind (runs_node hl.parent ?_))
  refine runs_bind (runs_deref hl.parent fun hpid => ?_)
  refine runs_bind (runs_deref hl.parent fun _ => ?_)
  refine runs_bind (runs_require (by simpa using hidx) ?_)
  refine runs_bind (runs_deref hl.node fun _ => runs_bind (runs_index (fun m hm => ?_) ?_))
  swap
  · intro hnone
    refine hA fun hc => hc.median (List.eq_nil_of_length_eq_zero ?_)
    have := List.getElem?_eq_none_iff.mp hnone
    omega
  refine runs_bind (runs_deref hl.parent fun _ => ?_)
  refine runs_bind (runs_check (fun hplace => ?_) fun hplace => hA fun hc => ?_)
  swap
  · exact absurd hc.place (by simpa using hplace)
  have hplace' : p.children.idxOf id ≤ p.cells.length := by simpa using hplace
  have hlen : n.cells.length / 2 < n.cells.length := (List.getElem?_eq_some_iff.mp hm).1
  refine runs_bind (runs_modify hl.parent rfl (runs_bind (runs_modify (n := n) ?_ rfl ?_)))
  · simpa [hl.ne.symm] using hl.node
  rw [insertIdx_eq m hplace', List.eraseIdx_eq_take_drop_succ]
  set c := Cut.atMedian id 0 n p m with hc
  change Runs P s₀ _ { h with nodes := stuckNodes h.nodes c } Q R A
  set n' := n.setCells (c.X ++ c.Y) with hn'
  set p' := p.setCells (c.C ++ m :: c.D) with hp'
  have hpar : stuckNodes h.nodes c n.parentID = some p' := by
    simp [stuckNodes, hc, Cut.atMedian, hl.ne, hp', BtreeNodePage.setCells]
  have hnode : stuckNodes h.nodes c id = some n' := by
    simp [stuckNodes, hc, Cut.atMedian, hn', BtreeNodePage.setCells]
  refine runs_bind (runs_deref hpar fun _ => runs_bind (runs_deref hnode fun _ => ?_))
  rw [show p'.pageID = n.parentID from hpid, show n'.leaf = n.leaf from rfl]
  refine runs_bind (runs_new (fun new a hnew ha => ?_) fun ha => hR ha 0 m hm hplace')
  set m' : BtreeNodePage T := .new deg n.parentID false n.leaf new with hm'
  change stuckNodes h.nodes c new = none at hnew
  have hne : new ≠ id := by
    rintro rfl
    exact absurd (hnew.symm.trans hnode) (by simp)
  have hnp : new ≠ n.parentID := by
    rintro rfl
    exact absurd (hnew.symm.trans hpar) (by simp)
  have hnew' : h.nodes new = none := by simpa [stuckNodes, hne, hnp, hc, Cut.atMedian] using hnew
  have hnk : new ∉ n.children := by
    intro hmem
    obtain ⟨-, -, o, ho⟩ := hl.kids new hmem
    exact absurd (hnew'.symm.trans ho) (by simp)
  have hpk : n.parentID ∉ n.children := fun hmem => (hl.kids _ hmem).2.1 rfl
  have hXlen : c.X.length = n.cells.length / 2 := by
    simp only [hc, Cut.atMedian, List.length_take]
    omega
  refine runs_bind (runs_moveRightHalf (n := n') (m := m') ?_ (Function.update_self ..) hne
    hl.leaf_children rfl ?_ ?_ ?_ fun hchild => ?_)
  · exact (Function.update_of_ne hne.symm _ _).trans hnode
  · intro q hq
    obtain ⟨h1, h2, o, ho⟩ := hl.kids q hq
    have h3 : q ≠ new := fun he => hnk (he ▸ hq)
    refine ⟨h1, h3, o, (Function.update_of_ne h3 _ _).trans ?_⟩
    simpa [stuckNodes, h1, h2, hc, Cut.atMedian] using ho
  · simp [hn', BtreeNodePage.setCells, hXlen]
  · exact fun hleaf hlen => hA fun hcut => hlen (hcut.children hleaf)
  have hcut : Cuttable id n p := ⟨⟨List.ne_nil_of_length_pos (by omega), hchild⟩, hplace'⟩
  rw [Heap.alloc_nodes, ← hXlen]
  refine runs_bind (runs_deref (moveNodes_new hne) fun _ => ?_)
  have hpar' : moveNodes (Function.update (stuckNodes h.nodes c) new (some m')) id new n' m'
      c.X.length n.parentID = some p' :=
    (moveNodes_other (n := n') hl.ne hnp.symm hpk).trans
      ((Function.update_of_ne hnp.symm _ _).trans hpar)
  refine runs_bind (runs_deref hpar' fun _ => ?_)
  refine runs_bind (runs_require (decide_eq_true (Nat.succ_le_of_lt hidx))
    (runs_modify hpar' rfl ?_))
  have hparent : p'.setChildren (p'.children.insertIdx (p.children.idxOf id + 1) new) =
      (Cut.atMedian id new n p m).parentNode := by
    have htake : p.children.take (p.children.idxOf id + 1) =
        p.children.take (p.children.idxOf id) ++ [id] := by
      rw [← List.take_append_getElem hidx, List.getElem_idxOf]
    have hins := insertIdx_eq new (Nat.succ_le_of_lt hidx)
    rw [Nat.succ_eq_add_one, htake] at hins
    rw [show p'.children = p.children from rfl, hins, hp']
    simp [Cut.atMedian, Cut.parentNode, hc, BtreeNodePage.setChildren, BtreeNodePage.setCells]
  have hfinal := moveNodes_stuck h.nodes (c := .atMedian id new n p m) hne hnp hl.ne
    hl.not_root p'
  rw [show (Cut.atMedian id new n p m).n.degree = deg from hl.degree, ← hparent] at hfinal
  have hpost := hQ hcut new a m hnew' ha hm
  rw [← hfinal] at hpost
  exact hpost

/-- There is a new root, and the median in it, but the old root keeps all the other cells. -/
def stuckRootNodes (nodes : ℕ → Option (BtreeNodePage T)) (deg id r : ℕ) (n : BtreeNodePage T)
    (m : Cell T) : ℕ → Option (BtreeNodePage T) :=
  Function.update
    (Function.update nodes r (some ((BtreeNodePage.new deg PGID_INVALID true false r).setCells [m])))
    id (some (((n.setRoot false).setParent r).setCells
      (n.cells.take (n.cells.length / 2) ++ n.cells.drop (n.cells.length / 2 + 1))))

theorem runs_splitRoot {deg id : ℕ} {n : BtreeNodePage T} {Q : Unit → Heap T → Prop}
    {R : Heap T → Prop} (hn : h.nodes id = some n) (hdeg : n.degree = deg)
    (hleaf : n.leaf = true → n.children = [])
    (hkids : ∀ q ∈ n.children, q ≠ id ∧ ∃ m, h.nodes q = some m) (hA : ¬Halvable n → A .abort)
    (hQ : Halvable n → ∀ r new a m, h.nodes r = none →
      growNodes h.nodes deg id r n new = none → h.avail = a + 1 + 1 →
      n.cells[n.cells.length / 2]? = some m →
      Q () { nodes := splitNodes (growNodes h.nodes deg id r n)
              (.atMedian id new ((n.setRoot false).setParent r) (newRootNode deg id r) m)
             root := r, avail := a })
    (hR₁ : h.avail = 0 → R h)
    (hR₂ : ∀ r m, h.nodes r = none → h.avail = 1 → n.cells[n.cells.length / 2]? = some m →
      R { nodes := stuckRootNodes h.nodes deg id r n m, root := r, avail := 0 }) :
    Runs P s₀ (splitRoot P.toPagerOps deg id id) h Q R A := by
  refine runs_bind (runs_new (fun r b hr hb => ?_) hR₁)
  have hne : r ≠ id := by
    rintro rfl
    exact absurd (hr.symm.trans hn) (by simp)
  have hrk : r ∉ n.children := by
    intro hmem
    obtain ⟨-, o, ho⟩ := hkids r hmem
    exact absurd (hr.symm.trans ho) (by simp)
  refine runs_bind (runs_deref (Function.update_self ..) fun _ => runs_bind (runs_setRoot ?_))
  refine runs_bind (runs_modify (n := n) ?_ rfl ?_)
  · exact (Function.update_of_ne hne.symm _ _).trans hn
  refine runs_bind (runs_modify (Function.update_self ..) rfl ?_)
  refine runs_bind (runs_deref (Function.update_self ..) fun _ => ?_)
  set n₁ := (n.setRoot false).setParent r with hn₁
  refine runs_bind (runs_index (fun m hm => ?_) fun hnone => hA fun hc => hc.median ?_)
  swap
  · have := List.getElem?_eq_none_iff.mp hnone
    refine List.eq_nil_of_length_eq_zero ?_
    change n.cells.length ≤ n.cells.length / 2 at this
    omega
  have hlen : n.cells.length / 2 < n.cells.length := (List.getElem?_eq_some_iff.mp hm).1
  refine runs_bind (runs_modify (n := .new deg PGID_INVALID true false r) ?_ rfl ?_)
  · simp [hne]
  refine runs_bind (runs_modify (n := n₁) ?_ rfl ?_)
  · simp [hne.symm, hn₁, BtreeNodePage.new, BtreeNodePage.setParent, BtreeNodePage.setRoot]
  refine runs_congr (?_ : _ = ⟨stuckRootNodes h.nodes deg id r n m, r, b⟩) ?_
  · simp only [Heap.set, Heap.alloc, stuckRootNodes, Heap.mk.injEq, and_true]
    refine ⟨?_, rfl⟩
    funext q
    by_cases h1 : q = id
    · subst h1
      simp [hn₁, List.eraseIdx_eq_take_drop_succ, BtreeNodePage.setParent, BtreeNodePage.setRoot]
    · by_cases h2 : q = r
      · subst h2
        simp [h1, BtreeNodePage.new]
      · simp [h1, h2]
  set c := Cut.atMedian id 0 n₁ (newRootNode deg id r) m with hc
  set p' := (BtreeNodePage.new (T := T) deg PGID_INVALID true false r).setCells [m] with hp'
  have hroot : stuckRootNodes h.nodes deg id r n m r = some p' := by
    simp [stuckRootNodes, hne, hp']
  have hnode : stuckRootNodes h.nodes deg id r n m id = some (n₁.setCells (c.X ++ c.Y)) := by
    simp [stuckRootNodes, hc, Cut.atMedian, hn₁, BtreeNodePage.setParent, BtreeNodePage.setRoot]
  refine runs_bind (runs_node hnode (runs_bind (runs_deref hnode fun _ => ?_)))
  refine runs_bind (runs_new (fun new a hnew ha => ?_) fun hb0 => ?_)
  swap
  · change b = 0 at hb0
    subst hb0
    exact hR₂ r m hr hb hm
  change stuckRootNodes h.nodes deg id r n m new = none at hnew
  change b = a + 1 at ha
  subst ha
  have hne' : new ≠ id := by
    rintro rfl
    exact absurd (hnew.symm.trans hnode) (by simp)
  have hnr : new ≠ r := by
    rintro rfl
    exact absurd (hnew.symm.trans hroot) (by simp)
  have hnew' : growNodes h.nodes deg id r n new = none := by
    rw [growNodes_other hne' hnr]
    simpa [stuckRootNodes, hne', hnr] using hnew
  have hnk : new ∉ n.children := by
    intro hmem
    obtain ⟨-, o, ho⟩ := hkids new hmem
    rw [growNodes_other hne' hnr] at hnew'
    exact absurd (hnew'.symm.trans ho) (by simp)
  have hXlen : c.X.length = n.cells.length / 2 := by
    simp only [hc, Cut.atMedian, List.length_take]
    change min (n.cells.length / 2) n.cells.length = n.cells.length / 2
    omega
  rw [show (BtreeNodePage.new deg PGID_INVALID true false r : BtreeNodePage T).pageID = r from rfl]
  set m' : BtreeNodePage T := .new deg r false (n₁.setCells (c.X ++ c.Y)).leaf new with hm'
  refine runs_bind (runs_moveRightHalf (n := n₁.setCells (c.X ++ c.Y)) (m := m') ?_
    (Function.update_self ..) hne' hleaf rfl ?_ ?_ ?_ fun hchild => ?_)
  · exact (Function.update_of_ne hne'.symm _ _).trans hnode
  · intro q hq
    obtain ⟨h1, o, ho⟩ := hkids q hq
    have h2 : q ≠ r := fun he => hrk (he ▸ hq)
    have h3 : q ≠ new := fun he => hnk (he ▸ hq)
    refine ⟨h1, h3, o, (Function.update_of_ne h3 _ _).trans ?_⟩
    simpa [stuckRootNodes, h1, h2] using ho
  · change n.cells.length / 2 ≤ (c.X ++ c.Y).length
    simp [hXlen]
  · exact fun hl hlen' => hA fun hcut => hlen' (hcut.children hl)
  have hcut : Halvable n := ⟨List.ne_nil_of_length_pos (by omega), hchild⟩
  have hr' : moveNodes (Function.update (stuckRootNodes h.nodes deg id r n m) new (some m')) id new
      (n₁.setCells (c.X ++ c.Y)) m' (n.cells.length / 2) r = some p' :=
    (moveNodes_other (n := n₁.setCells (c.X ++ c.Y)) hne hnr.symm hrk).trans
      ((Function.update_of_ne hnr.symm _ _).trans hroot)
  refine runs_bind (runs_modify hr' rfl ?_)
  refine runs_bind (runs_deref (n := { m' with
    cells := (c.X ++ c.Y).drop (n.cells.length / 2)
    children := n.children.drop (n.cells.length / 2 + 1) }) ?_ fun _ => ?_)
  · exact (Function.update_of_ne hnr _ _).trans (moveNodes_new hne')
  refine runs_modify (Function.update_self ..) rfl ?_
  have hfinal := moveNodes_stuck (growNodes h.nodes deg id r n)
    (c := .atMedian id new n₁ (newRootNode deg id r) m) hne' hnr hne rfl p'
  have hgrow : Function.update (Function.update (growNodes h.nodes deg id r n) r (some p')) id
      (some (n₁.setCells (c.X ++ c.Y))) = stuckRootNodes h.nodes deg id r n m := by
    funext q
    by_cases h1 : q = id
    · subst h1
      simp [stuckRootNodes, hc, Cut.atMedian, hn₁, BtreeNodePage.setParent, BtreeNodePage.setRoot]
    · by_cases h2 : q = r
      · subst h2
        simp [h1, stuckRootNodes, hp']
      · simp [h1, h2, stuckRootNodes, growNodes]
  have hfinal := moveNodes_stuck (growNodes h.nodes deg id r n)
    (c := .atMedian id new n₁ (newRootNode deg id r) m) hne' hnr hne rfl p'
  change Function.update (moveNodes (Function.update (Function.update (Function.update
    (growNodes h.nodes deg id r n) r (some p')) id (some (n₁.setCells (c.X ++ c.Y)))) new
    (some (.new n.degree r false n.leaf new))) id new (n₁.setCells (c.X ++ c.Y))
    (.new n.degree r false n.leaf new) c.X.length) r _ = _ at hfinal
  rw [hgrow, hXlen, hdeg] at hfinal
  have hparent : (p'.setChildren (p'.children ++ [id])).setChildren
      ((p'.setChildren (p'.children ++ [id])).children ++ [new]) =
      (Cut.atMedian id new n₁ (newRootNode deg id r) m).parentNode := by
    simp [Cut.parentNode, Cut.atMedian, newRootNode, hp', BtreeNodePage.new,
      BtreeNodePage.setChildren, BtreeNodePage.setCells]
  have hpost := hQ hcut r new a m hr hnew' hb hm
  rw [← hfinal, ← hparent] at hpost
  rw [Heap.set, Heap.set, Function.update_idem]
  exact hpost

end Kndb.Btree
