import Mathlib.Data.Finset.Card
import Mathlib.Tactic.Ring
import Kndb.Btree.Split

namespace Kndb.Btree

open Ascending Imp.Prog

variable {σ T : Type} {P : LawfulPager σ T} {s₀ : σ} {h : Heap T} {A : Imp.Stop → Prop}
variable {deg u : ℕ} {L : Layout}

/-- The `t` whose `2 * t - 1` is the `maxKeys` of a node of this degree. -/
def effectiveDegree (deg : ℕ) : ℕ := ((2 * deg + 2 ^ 16 - 1) % 2 ^ 16 + 1) / 2

theorem maxKeys_eq (n : BtreeNodePage T) : n.maxKeys = 2 * effectiveDegree n.degree - 1 := by
  simp only [BtreeNodePage.maxKeys, effectiveDegree]
  omega

theorem effectiveDegree_pos (deg : ℕ) : 1 ≤ effectiveDegree deg := by
  simp only [effectiveDegree]
  omega

theorem effectiveDegree_le (deg : ℕ) : effectiveDegree deg ≤ 2 ^ 15 := by
  simp only [effectiveDegree]
  omega

theorem effectiveDegree_of_le {deg : ℕ} (h1 : 1 ≤ deg) (h2 : deg ≤ 2 ^ 15) :
    effectiveDegree deg = deg := by
  simp only [effectiveDegree]
  omega

theorem two_le_effectiveDegree {deg : ℕ} (h : effectiveDegree deg ≠ 1) : 2 ≤ effectiveDegree deg :=
  lt_of_le_of_ne (effectiveDegree_pos deg) (Ne.symm h)

theorem effectiveDegree_cases {t : ℕ} (ht : 2 ≤ t) (ht' : t < 2 ^ 16) :
    t ≠ 32769 ∧ 2 ≤ effectiveDegree t ∨ t = 32769 ∧ effectiveDegree t = 1 := by
  simp only [effectiveDegree]
  omega

def rootSplitNeeds (n : BtreeNodePage T) : ℕ∞ := if 1 < n.maxKeys then 2 else ⊤

theorem rootSplitNeeds_congr {n n' : BtreeNodePage T} (h : n'.maxKeys = n.maxKeys) :
    rootSplitNeeds n' = rootSplitNeeds n := by
  rw [rootSplitNeeds, h, rootSplitNeeds]

/-- How many pages `split` creates when page `id` holds one cell more. -/
def splitsNeeded (nodes : ℕ → Option (BtreeNodePage T)) : ℕ → ℕ → ℕ∞
  | 0, _ => 0
  | fuel + 1, id => (nodes id).elim 0 fun n =>
    if n.cells.length + 1 < n.maxKeys then 0
    else if n.root then rootSplitNeeds n
    else splitsNeeded nodes fuel n.parentID + 1

def splitsPending (nodes : ℕ → Option (BtreeNodePage T)) (fuel id : ℕ) : ℕ∞ :=
  (nodes id).elim 0 fun n =>
    if n.cells.length < n.maxKeys then 0
    else if n.root then rootSplitNeeds n
    else splitsNeeded nodes fuel n.parentID + 1

/-- On the way from the tree `L` in `h` to the tree `L'` in `h'` pages were only added. -/
structure Evolved (h : Heap T) (L : Layout) (h' : Heap T) (L' : Layout) : Prop where
  pages : L.pages ⊆ L'.pages
  fresh : ∀ q ∈ L'.pages, q ∉ L.pages → h.nodes q = none
  frame : ∀ q ∉ L'.pages, h'.nodes q = h.nodes q
  avail : h.avail + L.pages.card = h'.avail + L'.pages.card

structure Grown (h : Heap T) (L : Layout) (h' : Heap T) (L' : Layout) : Prop
    extends Evolved h L h' L' where
  cells : ∀ c, CellIn h'.nodes L' c ↔ CellIn h.nodes L c

theorem Evolved.of_frame {h h' : Heap T} (frame : ∀ q ∉ L.pages, h'.nodes q = h.nodes q)
    (avail : h'.avail = h.avail) : Evolved h L h' L where
  pages := subset_rfl
  fresh _ hq hn := absurd hq hn
  frame := frame
  avail := by rw [avail]

theorem Evolved.trans {h h' h'' : Heap T} {L L' L'' : Layout} (h₁ : Evolved h L h' L')
    (h₂ : Evolved h' L' h'' L'') : Evolved h L h'' L'' where
  pages := h₁.pages.trans h₂.pages
  fresh q hq hn := by
    by_cases hq' : q ∈ L'.pages
    · exact h₁.fresh q hq' hn
    · rw [← h₁.frame q hq']
      exact h₂.fresh q hq hq'
  frame q hq := (h₂.frame q hq).trans (h₁.frame q fun hq' => hq (h₂.pages hq'))
  avail := h₁.avail.trans h₂.avail

theorem Grown.refl (h : Heap T) (L : Layout) : Grown h L h L where
  toEvolved := .of_frame (fun _ _ => rfl) rfl
  cells _ := Iff.rfl

theorem Grown.trans {h h' h'' : Heap T} {L L' L'' : Layout} (h₁ : Grown h L h' L')
    (h₂ : Grown h' L' h'' L'') : Grown h L h'' L'' where
  toEvolved := h₁.toEvolved.trans h₂.toEvolved
  cells c := (h₂.cells c).trans (h₁.cells c)

theorem SplitAt.card_split {c : Cut T} {nodes : ℕ → Option (BtreeNodePage T)} {root : ℕ}
    (hs : SplitAt deg nodes root L c) : (L.split c).pages.card = L.pages.card + 1 :=
  Finset.card_insert_of_notMem fun hm => hs.ne_new hm rfl

theorem Linked.card_grow {nodes : ℕ → Option (BtreeNodePage T)} {root r : ℕ}
    (ht : Linked deg nodes root L) (hr : nodes r = none) :
    (L.grow root r).pages.card = L.pages.card + 1 :=
  Finset.card_insert_of_notMem fun hm => ht.ne_fresh hr hm rfl

theorem SplitAt.grown {c : Cut T} {root : ℕ} {a : ℕ∞} (hs : SplitAt deg h.nodes root L c)
    (ha : h.avail = a + 1) :
    Grown h L { nodes := splitNodes h.nodes c, root := root, avail := a } (L.split c) where
  pages _ hq := SplitAt.mem_split hq
  fresh q hq hn := by
    rcases Finset.mem_insert.mp hq with rfl | hq
    · exact hs.fresh
    · exact absurd hq hn
  frame q hq := by
    have hq' : q ≠ c.new ∧ q ∉ L.pages := by simpa [Layout.split] using hq
    refine SplitAt.at_other ?_ ?_ hq'.1 fun hd => ?_
    · rintro rfl
      exact hq'.2 hs.mem
    · rintro rfl
      exact hq'.2 hs.pid_mem
    · exact hq'.2 (hs.child (List.mem_of_mem_drop hd)).1
  avail := by
    rw [ha, hs.card_split]
    push_cast
    ring
  cells := hs.cellIn_split

theorem Linked.grown_grow {root r : ℕ} {a : ℕ∞} {n : BtreeNodePage T}
    (ht : Linked deg h.nodes root L)
    (hn : h.nodes root = some n) (hr : h.nodes r = none) (ha : h.avail = a + 1) :
    Grown h L { nodes := growNodes h.nodes deg root r n, root := r, avail := a } (L.grow root r) where
  pages _ hq := by simp [Layout.grow, hq]
  fresh q hq hn := by
    rcases Finset.mem_insert.mp hq with rfl | hq
    · exact hr
    · exact absurd hq hn
  frame q hq := by
    have hq' : q ≠ r ∧ q ∉ L.pages := by simpa [Layout.grow] using hq
    refine growNodes_other ?_ hq'.1
    rintro rfl
    exact hq'.2 ht.root_mem
  avail := by
    rw [ha, ht.card_grow hr]
    push_cast
    ring
  cells := ht.cellIn_grow hn hr

section Cutting

variable {nodes : ℕ → Option (BtreeNodePage T)} {root id new : ℕ} {n p : BtreeNodePage T}
variable {ovf : Option ℕ}

theorem Arity.halvable (ha : Arity nodes L) (hid : id ∈ L.pages)
    (hn : nodes id = some n) (hlen : n.cells ≠ []) : Halvable n where
  median := hlen
  children hl := by
    rw [ha id hid n hn hl]
    omega

theorem eq_take_cons_drop {α : Type} {l : List α} {i : ℕ} {a : α} (ha : l[i]? = some a) :
    l = l.take i ++ a :: l.drop (i + 1) := by
  obtain ⟨hlt, rfl⟩ := List.getElem?_eq_some_iff.mp ha
  rw [List.getElem_cons_drop, List.take_append_drop]

theorem Linked.attached (ht : Linked deg nodes root L) (hid : id ∈ L.pages) (hr : id ≠ root)
    (hn : nodes id = some n) : ∃ p, nodes n.parentID = some p ∧ Attached deg nodes id n p ∧
      L.height id + 1 = L.height n.parentID := by
  have hok := ht.link_of hid hn
  obtain ⟨hpm, p, hp, hmem⟩ := hok.listed hr
  have hh := ((ht.link_of hpm hp).kids id hmem).2.1
  refine ⟨p, hp, ⟨hn, hp, hok.degree, ?_, ?_, hmem, hok.leaf_children, fun q hq => ?_⟩, hh⟩
  · rw [← Bool.not_eq_true, hok.root_iff]
    exact hr
  · intro he
    rw [he] at hh
    omega
  · obtain ⟨-, hqh, o, ho, -⟩ := hok.kids q hq
    refine ⟨?_, ?_, o, ho⟩
    · rintro rfl
      omega
    · rintro rfl
      omega

theorem Attached.cutAt (hl : Attached deg nodes id n p) (ht : Linked deg nodes root L)
    (hid : id ∈ L.pages) (hr : id ≠ root) {m : Cell T} (hm : n.cells[n.cells.length / 2]? = some m) :
    CutAt deg nodes root L (.atMedian id new n p m) where
  linked := ht
  mem := hid
  ne_root := hr
  node := hl.node
  parent := hl.parent
  cells := eq_take_cons_drop hm
  p_children := by
    have hlt := List.idxOf_lt_length_of_mem hl.listed
    exact eq_take_cons_drop (List.getElem?_eq_some_iff.mpr ⟨hlt, List.getElem_idxOf hlt⟩)
  p_cells := (List.take_append_drop ..).symm

theorem Cuttable.length_eq (hc : Cuttable id n p) (hmem : id ∈ p.children) {m : Cell T} :
    (Cut.atMedian id new n p m).A.length = (Cut.atMedian id new n p m).C.length := by
  have hlt := List.idxOf_lt_length_of_mem hmem
  have := hc.place
  simp only [Cut.atMedian, List.length_take]
  omega

theorem Arity.cuttable (ha : Arity nodes L) (ht : Linked deg nodes root L)
    (hl : Attached deg nodes id n p) (hid : id ∈ L.pages) (hr : id ≠ root) (hlen : n.cells ≠ []) :
    Cuttable id n p where
  toHalvable := ha.halvable hid hl.node hlen
  place := by
    have hlt := List.idxOf_lt_length_of_mem hl.listed
    have hpm := ((ht.link_of hid hl.node).listed hr).1
    have hpl : p.leaf = false := by
      rcases hleaf : p.leaf with _ | _
      · rfl
      · simp [(ht.link_of hpm hl.parent).leaf_children hleaf] at hlt
    rw [ha _ hpm p hl.parent hpl] at hlt
    omega

structure HalvedAt (deg : ℕ) (nodes : ℕ → Option (BtreeNodePage T)) (root : ℕ) (L : Layout) (c : Cut T) : Prop
    extends SplitAt deg nodes root L c where
  place : c.A.length = c.C.length
  left : c.X.length = c.n.cells.length / 2

theorem HalvedAt.length_eq {c : Cut T} (h : HalvedAt deg nodes root L c) :
    c.n.cells.length = c.X.length + c.Y.length + 1 := by
  rw [h.cells, List.length_append, List.length_cons, add_assoc]

theorem Attached.halvedAt (hl : Attached deg nodes id n p) (ht : Linked deg nodes root L) (ha : Arity nodes L)
    (hid : id ∈ L.pages) (hr : id ≠ root) {m : Cell T} (hm : n.cells[n.cells.length / 2]? = some m)
    (hnew : nodes new = none) : HalvedAt deg nodes root L (.atMedian id new n p m) where
  toCutAt := hl.cutAt ht hid hr hm
  fresh := hnew
  place := (ha.cuttable ht hl hid hr (List.ne_nil_of_mem (List.mem_of_getElem? hm))).length_eq hl.listed
  left := by
    have := (List.getElem?_eq_some_iff.mp hm).1
    simp only [Cut.atMedian, List.length_take]
    omega

theorem Linked.splitsNeeded_congr {nodes' : ℕ → Option (BtreeNodePage T)}
    (ht : Linked deg nodes root L) (fuel : ℕ) (hid : id ∈ L.pages)
    (heq : ∀ q ∈ L.pages, L.height id ≤ L.height q → nodes' q = nodes q) :
    splitsNeeded nodes' fuel id = splitsNeeded nodes fuel id := by
  induction fuel generalizing id with
  | zero => rfl
  | succ fuel ih =>
    obtain ⟨n, hn, hok⟩ := ht.link id hid
    rw [splitsNeeded, splitsNeeded, heq id hid le_rfl, hn, Option.elim_some, Option.elim_some]
    by_cases hr : n.root = true
    · simp [hr]
    · have hne : id ≠ root := fun he => hr (hok.root_iff.mpr he)
      obtain ⟨-, -, -, hh⟩ := ht.attached hid hne hn
      rw [ih (hok.listed hne).1 fun q hq hle => heq q hq (by omega)]

theorem SplitAt.above {c : Cut T} (hs : SplitAt deg nodes root L c) (hne : c.n.parentID ≠ root) {q : ℕ}
    (hq : q ∈ L.pages) (hle : L.height c.p.parentID ≤ L.height q) : splitNodes nodes c q = nodes q := by
  obtain ⟨-, -, -, hh⟩ := hs.linked.attached hs.pid_mem hne hs.parent
  have hp := hs.height_pid
  refine hs.at_far hq (by omega) ?_ ?_
  · rintro rfl
    omega
  · rintro rfl
    omega

theorem SplitAt.splitsPending {c : Cut T} (hs : SplitAt deg nodes root L c) (fuel : ℕ) :
    splitsPending (splitNodes nodes c) fuel c.n.parentID =
      splitsNeeded nodes (fuel + 1) c.n.parentID := by
  have hlen : c.parentNode.cells.length = c.p.cells.length + 1 := by
    simp only [Cut.parentNode, hs.p_cells, List.length_append, List.length_cons]
    omega
  have hkeys : c.parentNode.maxKeys = c.p.maxKeys := rfl
  rw [Btree.splitsPending, splitsNeeded, hs.at_pid, hs.parent, Option.elim_some, Option.elim_some,
    hlen, rootSplitNeeds_congr hkeys, hkeys, show c.parentNode.root = c.p.root from rfl,
    show c.parentNode.parentID = c.p.parentID from rfl]
  by_cases hr : c.p.root = true
  · simp only [hr, if_true]
  · have hne : c.n.parentID ≠ root := fun he => hr (hs.linkp.root_iff.mpr he)
    rw [hs.linked.splitsNeeded_congr fuel (hs.linkp.listed hne).1 fun q hq hle => hs.above hne hq hle]

end Cutting

variable {o : Prop}

inductive Stuck (deg : ℕ) (g : Heap T) (L : Layout) (id : ℕ) : Heap T → Prop
  | root (he : id = g.root) : Stuck deg g L id g
  | newRoot (g' : Heap T) (he : id = g.root) (hr : g'.root ≠ g.root) : Stuck deg g L id g'
  | parent (c : Cut T) (hid : c.id = id) (hc : CutAt deg g.nodes g.root L c) :
    Stuck deg g L id { g with nodes := stuckNodes g.nodes c }

/-- How `split` leaves the heap when it throws: it had come to a full page `id'` above `id`. -/
structure Thrown (o : Prop) (deg u : ℕ) (h : Heap T) (L : Layout) (id : ℕ) (h' g : Heap T) (L' : Layout)
    (id' : ℕ) : Prop where
  grown : Grown h L g L'
  balanced : Balanced o deg u g L' (some id')
  root_eq : g.root = h.root
  height : L'.height g.root = L.height h.root
  mem : id' ∈ L'.pages
  lo : o → L'.lo id' ≤ L.lo id
  hi : o → L.hi id ≤ L'.hi id'
  stuck : Stuck deg g L' id' h'

theorem Balanced.cut_lengths {id : ℕ} {n : BtreeNodePage T} (hb : Balanced o deg u h L (some id))
    (hdeg : effectiveDegree deg = u) (hid : id ∈ L.pages) (hn : h.nodes id = some n)
    (hfull : ¬n.cells.length < n.maxKeys) :
    n.cells.length = 2 * u - 1 ∧ n.cells.length / 2 = u - 1 := by
  have hup := hb.sized.upper id hid n hn
  rw [maxKeys_eq, (hb.linked.link_of hid hn).degree, hdeg] at hfull
  rw [if_pos rfl] at hup
  have := effectiveDegree_pos deg
  omega

theorem HalvedAt.sized_split {nodes : ℕ → Option (BtreeNodePage T)} {root : ℕ} {c : Cut T}
    (h : HalvedAt deg nodes root L c) (ho : Occupied u nodes root L (some c.id))
    (hlen : c.n.cells.length = 2 * u - 1) (hu : 1 ≤ u)
    (hr : c.n.parentID ≠ root → ∀ n, nodes root = some n → n.leaf = false → 1 ≤ n.cells.length) :
    Sized u (splitNodes nodes c) root (L.split c) (some c.n.parentID) := by
  have hX := h.left
  have hXY := h.length_eq
  exact h.toSplitAt.sized_split ho (by omega) (by omega) (by omega) h.place hr

theorem splitsPending_of_lt {nodes : ℕ → Option (BtreeNodePage T)} {id k : ℕ}
    {n : BtreeNodePage T} (hn : nodes id = some n) (hlt : n.cells.length < n.maxKeys) :
    splitsPending nodes k id = 0 := by
  rw [splitsPending, hn, Option.elim_some, if_pos hlt]

theorem splitsPending_fullRoot {nodes : ℕ → Option (BtreeNodePage T)} {id k : ℕ}
    {n : BtreeNodePage T} (hn : nodes id = some n) (hfull : ¬n.cells.length < n.maxKeys)
    (hroot : n.root = true) : splitsPending nodes k id = rootSplitNeeds n := by
  rw [splitsPending, hn, Option.elim_some, if_neg hfull, if_pos hroot]

theorem splitsPending_fullNode {nodes : ℕ → Option (BtreeNodePage T)} {id k : ℕ}
    {n : BtreeNodePage T} (hn : nodes id = some n) (hfull : ¬n.cells.length < n.maxKeys)
    (hroot : n.root = false) : splitsPending nodes k id = splitsNeeded nodes k n.parentID + 1 := by
  rw [splitsPending, hn, Option.elim_some, if_neg hfull, hroot, if_neg Bool.false_ne_true]

theorem runs_split_of_lt {id fuel : ℕ} {n : BtreeNodePage T} {Q : Unit → Heap T → Prop}
    {R : Heap T → Prop} (hn : h.nodes id = some n) (hlt : n.cells.length < n.maxKeys)
    (hQ : Q () h) : Runs P s₀ (split P.toPagerOps deg (fuel + 1) id) h Q R A := by
  rw [split]
  refine runs_bind (runs_node hn (runs_bind (runs_deref hn fun _ => ?_)))
  rw [if_pos hlt]
  exact runs_pure hQ

theorem cells_ne_nil_of_full {n : BtreeNodePage T} (hfull : ¬n.cells.length < n.maxKeys) : n.cells ≠ [] := by
  have := effectiveDegree_pos n.degree
  rw [maxKeys_eq] at hfull
  exact List.ne_nil_of_length_pos (by omega)

theorem runs_split_fullNode {fuel id : ℕ} {n : BtreeNodePage T} {Q : Unit → Heap T → Prop} {R : Heap T → Prop}
    (ht : Linked deg h.nodes h.root L) (ha : Arity h.nodes L) (hid : id ∈ L.pages) (hne : id ≠ h.root)
    (hn : h.nodes id = some n) (hfull : ¬n.cells.length < n.maxKeys)
    (hQ : ∀ c a, c.id = id → c.n = n → HalvedAt deg h.nodes h.root L c → h.avail = a + 1 →
      Runs P s₀ (split P.toPagerOps deg fuel n.parentID)
        { h with nodes := splitNodes h.nodes c, avail := a } Q R A)
    (hR : h.avail = 0 → ∀ c, c.id = id → CutAt deg h.nodes h.root L c →
      R { h with nodes := stuckNodes h.nodes c }) :
    Runs P s₀ (split P.toPagerOps deg (fuel + 1) id) h Q R A := by
  obtain ⟨p, hp, hl, -⟩ := ht.attached hid hne hn
  have hcut := ha.cuttable ht hl hid hne (cells_ne_nil_of_full hfull)
  rw [split]
  refine runs_bind (runs_node hn (runs_bind (runs_deref hn fun _ => ?_)))
  rw [if_neg hfull, hl.not_root]
  refine runs_bind (runs_splitNonRoot hl (fun hno => absurd hcut hno) ?_ ?_)
  · intro _ new a m hnew hav hm
    refine runs_bind (runs_deref (SplitAt.at_id (c := .atMedian id new n p m)) fun _ => ?_)
    rw [show (Cut.atMedian id new n p m).leftNode.root = false from hl.not_root]
    exact hQ _ a rfl rfl (hl.halvedAt ht ha hid hne hm hnew) hav
  · exact fun hav new m hm _ => hR hav _ rfl (hl.cutAt ht hid hne hm)

theorem runs_split_fullRoot {fuel : ℕ} {n : BtreeNodePage T} {Q : Unit → Heap T → Prop} {R : Heap T → Prop}
    (ht : Linked deg h.nodes h.root L) (ha : Arity h.nodes L) (hn : h.nodes h.root = some n)
    (hfull : ¬n.cells.length < n.maxKeys) (hmax : 1 < n.maxKeys)
    (hQ : ∀ r c a, h.nodes r = none → c.id = h.root → c.n = (n.setRoot false).setParent r →
      c.parentNode.cells = [c.m] → HalvedAt deg (growNodes h.nodes deg h.root r n) r (L.grow h.root r) c →
      h.avail = a + 1 + 1 →
      Q () { nodes := splitNodes (growNodes h.nodes deg h.root r n) c, root := r, avail := a })
    (hR₁ : h.avail = 0 → R h) (hR₂ : ∀ h', h.avail = 1 → h'.root ≠ h.root → R h') :
    Runs P s₀ (split P.toPagerOps deg (fuel + 1 + 1) h.root) h Q R A := by
  have hmem := ht.root_mem
  have hok := ht.link_of hmem hn
  have hhalf := ha.halvable hmem hn (cells_ne_nil_of_full hfull)
  have hroot : n.root = true := hok.root_iff.mpr rfl
  rw [split]
  refine runs_bind (runs_node hn (runs_bind (runs_deref hn fun _ => ?_)))
  rw [if_neg hfull, hroot]
  refine runs_bind (runs_splitRoot hn hok.degree hok.leaf_children ?_ (fun hno => absurd hhalf hno) ?_ hR₁
    fun r m hr hav _ => hR₂ _ hav (ht.ne_fresh hr hmem).symm)
  · intro q hq
    obtain ⟨-, hh, o, ho, -⟩ := hok.kids q hq
    refine ⟨?_, o, ho⟩
    rintro rfl
    omega
  · intro _ r new a m hr hnew hav hm
    have hne : h.root ≠ r := ht.ne_fresh hr hmem
    obtain ⟨p, hp, hl, -⟩ := (ht.grow hn hr).attached (Layout.mem_grow hmem) hne growNodes_root
    obtain rfl : newRootNode deg h.root r = p := Option.some.inj ((growNodes_new hne).symm.trans hp)
    have hs := hl.halvedAt (ht.grow hn hr) (ht.arity_grow hn hr ha) (Layout.mem_grow hmem) hne hm hnew
    set c := Cut.atMedian h.root new ((n.setRoot false).setParent r) (newRootNode deg h.root r) m
    -- the new root has one cell and is not full
    have hone : c.parentNode.cells = [m] := by
      simp [c, Cut.parentNode, Cut.atMedian, newRootNode, BtreeNodePage.new]
    have hlt : c.parentNode.cells.length < c.parentNode.maxKeys := by
      rw [maxKeys_eq, hok.degree, ← show c.parentNode.degree = deg from rfl, ← maxKeys_eq] at hmax
      rwa [hone]
    refine runs_bind (runs_deref (SplitAt.at_id (c := c)) fun _ => ?_)
    exact runs_split_of_lt hs.at_pid hlt (hQ r c a hr rfl rfl hone hs hav)

/-- What a call of `split` on the page `id` of the tree `L` establishes. -/
def SplitPost (o : Prop) (deg u k id : ℕ) (h : Heap T) (L : Layout) (h' : Heap T) : Prop :=
  ∃ L', Grown h L h' L' ∧ Balanced o deg u h' L' none ∧ L'.height h'.root ≤ L.height h.root + 1 ∧
    h.avail = h'.avail + splitsPending h.nodes k id ∧
    (L'.pages.card : ℕ∞) = L.pages.card + splitsPending h.nodes k id

def SplitThrows (o : Prop) (deg u k id : ℕ) (h : Heap T) (L : Layout) (h' : Heap T) : Prop :=
  h.avail < splitsPending h.nodes k id ∧ ∃ g L' id', Thrown o deg u h L id h' g L' id'

theorem Balanced.splitPost_of_lt {id k : ℕ} {n : BtreeNodePage T}
    (hb : Balanced o deg u h L (some id)) (hdeg : effectiveDegree deg = u) (hid : id ∈ L.pages)
    (hn : h.nodes id = some n) (hlt : n.cells.length < n.maxKeys) : SplitPost o deg u k id h L h := by
  refine ⟨L, .refl h L, ⟨hb.linked, hb.sized.drop_over fun n' hn' => ?_, hb.tree⟩, Nat.le_succ _, ?_⟩
  · obtain rfl := Option.some.inj (hn.symm.trans hn')
    rw [maxKeys_eq, (hb.linked.link_of hid hn).degree, hdeg] at hlt
    omega
  · rw [splitsPending_of_lt hn hlt]
    simp

theorem runs_split_root (hu : 2 ≤ u) (hdeg : effectiveDegree deg = u) {fuel k : ℕ}
    (hb : Balanced o deg u h L (some h.root)) :
    Runs P s₀ (split P.toPagerOps deg (fuel + 1 + 1) h.root) h
      (fun _ => SplitPost o deg u k h.root h L) (SplitThrows o deg u k h.root h L) A := by
  have hmem := hb.linked.root_mem
  obtain ⟨n, hn, hok⟩ := hb.linked.link _ hmem
  by_cases hlt : n.cells.length < n.maxKeys
  · exact runs_split_of_lt hn hlt (hb.splitPost_of_lt hdeg hmem hn hlt)
  obtain ⟨hlen, -⟩ := hb.cut_lengths hdeg hmem hn hlt
  have hmax : 1 < n.maxKeys := by
    rw [maxKeys_eq, hok.degree, hdeg]
    omega
  have hpend : splitsPending h.nodes k h.root = 2 := by
    rw [splitsPending_fullRoot hn hlt (hok.root_iff.mpr rfl), rootSplitNeeds, if_pos hmax]
  refine runs_split_fullRoot hb.linked hb.sized.arity hn hlt hmax ?_ ?_ ?_
  · intro r c a hr hcid hcn hcell hs ha
    have hgrown := hb.linked.grown_grow hn hr ha
    have hocc := hb.linked.occupied_grow hn hr hb.sized.toOccupied (by omega)
    have hsized := hs.sized_split (by rwa [hcid]) (by rw [hcn]; exact hlen) (by omega)
      fun hpr => absurd (congrArg BtreeNodePage.parentID hcn) hpr
    refine ⟨_, hgrown.trans (hs.grown rfl), ⟨hs.linked_split, ?_,
      fun ho => hs.tree_split ((hb.tree ho).grow hn hr) hs.place⟩, ?_, ?_, ?_⟩
    · refine hsized.drop_over fun n' hn' => ?_
      rw [← Option.some.inj (hs.at_pid.symm.trans hn'), hcell, List.length_singleton]
      omega
    · rw [hs.split_height hs.linked.root_mem]
      simp [Layout.grow]
    · rw [hpend, ha, add_assoc]
      rfl
    · rw [hpend, hs.card_split, hb.linked.card_grow hr]
      rfl
  · intro ha
    refine ⟨by rw [hpend, ha]; simp, h, L, h.root, .refl h L, hb, rfl, rfl, hmem,
      fun _ => le_rfl, fun _ => le_rfl, ?_⟩
    exact .root rfl
  -- the last page became the new root, and none is left for the other half
  · intro h' ha hr
    refine ⟨by rw [hpend, ha]; simp, h, L, h.root, .refl h L, hb, rfl, rfl, hmem,
      fun _ => le_rfl, fun _ => le_rfl, ?_⟩
    exact .newRoot _ rfl hr

theorem Linked.eq_root {nodes : ℕ → Option (BtreeNodePage T)} {root : ℕ}
    (ht : Linked deg nodes root L) {id : ℕ} (hid : id ∈ L.pages)
    (hh : L.height id = L.height root) : id = root := by
  by_contra hne
  obtain ⟨n, hn, hok⟩ := ht.link id hid
  obtain ⟨p, hp, -, hup⟩ := ht.attached hid hne hn
  have := ht.top _ (hok.listed hne).1
  omega

theorem Tree.kid_bounds {nodes : ℕ → Option (BtreeNodePage T)} {root id : ℕ} {n : BtreeNodePage T}
    (ht : Tree deg nodes root L) (hid : id ∈ L.pages) (hr : id ≠ root) (hn : nodes id = some n) :
    L.lo n.parentID ≤ L.lo id ∧ L.hi id ≤ L.hi n.parentID := by
  obtain ⟨p, hp, hl, hh⟩ := ht.attached hid hr hn
  have hpok := ht.node_of ((ht.link_of hid hn).listed hr).1 hp
  have hpl : p.leaf = false := hpok.leaf_eq_false (by omega)
  exact Ascending.kid_bounds hpok.between (hpok.kids_lo hpl) (hpok.kids_hi hpl) hl.listed

/-- `split` ends after at most one call per level and one more.  It keeps the cells and creates as
many pages as the full pages above ask for, or throws when there are not so many left. -/
theorem runs_split (hu : 2 ≤ u) (hdeg : effectiveDegree deg = u) (d : ℕ) {fuel k id : ℕ}
    (hb : Balanced o deg u h L (some id)) (hid : id ∈ L.pages)
    (hd : L.height id + d = L.height h.root) (hfuel : d + 2 ≤ fuel) (hk : d ≤ k) :
    Runs P s₀ (split P.toPagerOps deg fuel id) h (fun _ => SplitPost o deg u k id h L)
      (SplitThrows o deg u k id h L) A := by
  induction d generalizing h L fuel k id with
  | zero =>
    obtain rfl : id = h.root := hb.linked.eq_root hid (by omega)
    obtain ⟨fuel, rfl⟩ : ∃ f, fuel = f + 1 + 1 := ⟨fuel - 2, by omega⟩
    exact runs_split_root hu hdeg hb
  -- one page is halved; its parent has one cell more and is the next to be too large
  | succ d ih =>
    obtain ⟨fuel, rfl⟩ : ∃ f, fuel = f + 1 := ⟨fuel - 1, by omega⟩
    obtain ⟨k, rfl⟩ : ∃ k', k = k' + 1 := ⟨k - 1, by omega⟩
    obtain ⟨n, hn, hok⟩ := hb.linked.link _ hid
    by_cases hlt : n.cells.length < n.maxKeys
    · exact runs_split_of_lt hn hlt (hb.splitPost_of_lt hdeg hid hn hlt)
    have hne : id ≠ h.root := by
      rintro rfl
      omega
    obtain ⟨p, hp, hl, hup⟩ := hb.linked.attached hid hne hn
    obtain ⟨hlen, -⟩ := hb.cut_lengths hdeg hid hn hlt
    have hpend : splitsPending h.nodes (k + 1) id = splitsNeeded h.nodes (k + 1) n.parentID + 1 :=
      splitsPending_fullNode hn hlt hl.not_root
    refine runs_split_fullNode hb.linked hb.sized.arity hid hne hn hlt ?_ ?_
    · rintro c a rfl rfl hs ha
      have hsized := hs.sized_split hb.sized.toOccupied hlen (by omega) fun _ => hb.sized.root_nonempty
      have hgrown : Grown h L { h with nodes := splitNodes h.nodes c, avail := a } (L.split c) :=
        hs.grown ha
      have hpid : (L.split c).height c.n.parentID = L.height c.n.parentID := hs.split_height hs.pid_mem
      have hroot : (L.split c).height h.root = L.height h.root := hs.split_height hs.linked.root_mem
      have hlo : (L.split c).lo c.n.parentID = L.lo c.n.parentID := hs.split_lo hs.pid_mem
      have hhi : (L.split c).hi c.n.parentID = L.hi c.n.parentID :=
        hs.split_hi hs.pid_mem hs.pid_ne_id
      -- the halves do not change how many pages are full further up
      have hneeded : splitsPending (splitNodes h.nodes c) k c.n.parentID =
          splitsNeeded h.nodes (k + 1) c.n.parentID := hs.splitsPending k
      refine runs_mono (ih (k := k) ⟨hs.linked_split, hsized, fun ho => hs.tree_split (hb.tree ho) hs.place⟩
        (hgrown.pages hs.pid_mem) ?_ (by omega) (by omega)) ?_ ?_ (fun _ hA => hA)
      · change (L.split c).height c.n.parentID + d = (L.split c).height h.root
        rw [hpid, hroot]
        omega
      · rintro - h' ⟨L', hg', hb', hh', hav, hcard⟩
        refine ⟨L', hgrown.trans hg', hb', hroot ▸ hh', ?_, ?_⟩
        · change a = h'.avail + _ at hav
          rw [hpend, ha, hav, hneeded, add_assoc]
        · rw [hcard, hs.card_split, hneeded, hpend]
          push_cast
          ring
      -- a throw further up comes from a page whose interval encloses that of this one
      · rintro h' ⟨hav, g, L', id', ht⟩
        change a < _ at hav
        rw [hneeded] at hav
        have hkid := fun ho => (hb.tree ho).kid_bounds hid hne hn
        refine ⟨?_, g, L', id', hgrown.trans ht.grown, ht.balanced, ht.root_eq,
          ht.height.trans hroot, ht.mem,
          fun ho => ?_, fun ho => ?_, ht.stuck⟩
        · rw [hpend, ha]
          exact (ENat.add_lt_add_iff_right (by simp)).mpr hav
        · refine (ht.lo ho).trans ?_
          rw [hlo]
          exact (hkid ho).1
        · refine le_trans ?_ (ht.hi ho)
          rw [hhi]
          exact (hkid ho).2
    · intro ha c hcid hc
      refine ⟨by rw [hpend, ha]; simp, h, L, id, .refl h L, hb, rfl, rfl, hid,
        fun _ => le_rfl, fun _ => le_rfl, ?_⟩
      exact .parent c hcid hc

end Kndb.Btree
