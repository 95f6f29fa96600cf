import Mathlib.Data.Set.Card
import Kndb.Table.Create

namespace Kndb.Table

open Imp Imp.Prog Btree LawfulCache Pager

variable {σ : Type} {C : LawfulCache σ} {m m' m'' : Mem} {N : ℕ} {st st' : TableState σ} {t t' t'' : Table}
variable {types : Tuple} {L L' L'' : Layout} {M M' M'' : Rank → Option Tuple}

def keys (M : Rank → Option Tuple) : Set Rank := {r | (M r).isSome}

theorem keys_update (M : Rank → Option Tuple) (r : Rank) (v : Tuple) :
    keys (Function.update M r (some v)) = Insert.insert r (keys M) := by
  ext x
  by_cases hx : x = r
  · subst hx
    simp [keys]
  · simp [keys, hx]

section Tree

variable {deg root : ℕ} {nodes : ℕ → Option (BtreeNodePage Tuple)}

theorem keys_eq (ht : Tree deg nodes root L) (hM : Represents nodes L M) :
    keys M = ((inorder nodes (L.height root) root).map fun c => c.key.rank).toFinset := by
  ext r
  rw [List.coe_toFinset, Set.mem_ofPred_eq, List.mem_map, keys, Set.mem_ofPred_eq, Option.isSome_iff_exists]
  constructor
  · rintro ⟨v, hv⟩
    obtain ⟨c, hc, hr, -⟩ := (hM r v).mp hv
    exact ⟨c, (ht.mem_inorder_root c).mpr hc, hr⟩
  · rintro ⟨c, hc, hr⟩
    exact ⟨c.value, (hM r _).mpr ⟨c, (ht.mem_inorder_root c).mp hc, hr, rfl⟩⟩

theorem finite_keys (ht : Tree deg nodes root L) (hM : Represents nodes L M) : (keys M).Finite := by
  rw [keys_eq ht hM]
  exact Finset.finite_toSet _

theorem ncard_keys (ht : Tree deg nodes root L) (hM : Represents nodes L M) :
    (keys M).ncard = (inorder nodes (L.height root) root).length := by
  have hnodup : ((inorder nodes (L.height root) root).map fun c => c.key.rank).Nodup := by
    rw [List.Nodup, List.pairwise_map]
    exact ht.inorder_sorted.imp fun h => h.ne
  rw [keys_eq ht hM, Set.ncard_coe_finset, List.toFinset_card_of_nodup hnodup, List.length_map]

theorem ncard_keys_le (hM : Represents nodes L M) {k : ℕ}
    (hk : ∀ p ∈ L.pages, ∀ n, nodes p = some n → n.cells.length ≤ k) :
    (keys M).ncard ≤ L.pages.card * k := by
  let ranks : ℕ → Finset Rank := fun p =>
    (((nodes p).elim [] (·.cells)).map fun c => c.key.rank).toFinset
  have hsub : keys M ⊆ (L.pages.biUnion ranks : Finset Rank) := by
    intro r hr
    obtain ⟨v, hv⟩ := Option.isSome_iff_exists.mp hr
    obtain ⟨c, ⟨p, hp, n, hn, hc⟩, rfl, -⟩ := (hM r v).mp hv
    rw [Finset.mem_coe, Finset.mem_biUnion]
    refine ⟨p, hp, ?_⟩
    rw [List.mem_toFinset, hn]
    exact List.mem_map_of_mem hc
  apply (Set.ncard_le_ncard hsub (Finset.finite_toSet _)).trans
  rw [Set.ncard_coe_finset]
  apply Finset.card_biUnion_le_card_mul
  intro p hp
  apply (List.toFinset_card_le _).trans
  rw [List.length_map]
  cases hn : nodes p with
  | none => exact Nat.zero_le k
  | some n => exact hk p hp n hn

end Tree

def treeAt (m : Mem) (root : ℕ) : Heap Tuple := ⟨nodeAt m, root, remaining m⟩

/-- A row of a table: values of its types, the first of which is the key. -/
def IsRow (types : Tuple) (r : Rank) (v : Tuple) : Prop :=
  sameTypes v types = true ∧ ∃ key columns, v = key :: columns ∧ key.rank = r ∧ key.isNaN = false

/-- The table page of a table that stands for the map `M`. -/
noncomputable def pageOf (t : Table) (types : Tuple) (M : Rank → Option Tuple) : TablePage :=
  ⟨t.tablePageID, types, t.rootPageID, (keys M).ncard⟩

/-- The table `t` with columns `types` has the nodes of `L` and stands for the map `M`. -/
structure TableOk (m : Mem) (t : Table) (types : Tuple) (L : Layout) (M : Rank → Option Tuple) :
    Prop where
  page : TableAt m t.tablePageID (pageOf t types M)
  types_ne : types ≠ []
  degree : t.degree = tableDegree types
  balanced : Balanced True t.degree (effectiveDegree t.degree) (treeAt m t.rootPageID) L none
  represents : Represents (nodeAt m) L M
  rows : ∀ r v, M r = some v → IsRow types r v

theorem TableOk.tree (h : TableOk m t types L M) : Tree t.degree (nodeAt m) t.rootPageID L :=
  h.balanced.tree trivial

theorem TableOk.node (h : TableOk m t types L M) {x : ℕ} (hx : x ∈ L.pages) : ∃ n, nodeAt m x = some n := by
  obtain ⟨n, hn, -⟩ := h.tree.node x hx
  exact ⟨n, hn⟩

theorem TableOk.live (h : TableOk m t types L M) : L.pages ⊆ liveIds m := by
  intro x hx
  obtain ⟨n, hn⟩ := h.node hx
  exact (nodeAt_eq_some.mp hn).1

theorem TableOk.not_mem (h : TableOk m t types L M) {x : ℕ} {p : TablePage} (hx : TableAt m x p) :
    x ∉ L.pages := by
  intro hmem
  obtain ⟨n, hn⟩ := h.node hmem
  rw [hx.nodeAt_eq] at hn
  cases hn

theorem TableOk.congr (h : TableOk m t types L M) (hlive : liveIds m ⊆ liveIds m')
    (hview : ∀ x ∈ liveIds m, x ∈ L.pages ∨ x = t.tablePageID → m'.view x = m.view x) :
    TableOk m' t types L M := by
  have hat : ∀ x ∈ L.pages, nodeAt m' x = nodeAt m x := fun x hx =>
    nodeAt_congr (iff_of_true (hlive (h.live hx)) (h.live hx)) (hview x (h.live hx) (.inl hx))
  refine ⟨⟨hlive h.page.1, ?_⟩, h.types_ne, h.degree, ?_, ?_, h.rows⟩
  · rw [hview _ h.page.1 (.inr rfl), h.page.2]
  · obtain ⟨hlinked, hsized, htree⟩ := h.balanced
    exact ⟨hlinked.congr hat, hsized.congr hlinked.root_mem hat, fun ho => (htree ho).congr hat⟩
  · intro r v
    rw [h.represents r v]
    exact exists_congr fun c => and_congr_left fun _ => (CellIn.congr hat c).symm

theorem TableOk.ncard_lt (h : TableOk m t types L M) (hinv : Inv m N) : (keys M).ncard < 2 ^ 64 := by
  have hle := ncard_keys_le (k := 2 ^ 16) h.represents fun p hp n hn => by
    have hup := h.balanced.sized.upper p hp n hn
    have hdeg := effectiveDegree_le t.degree
    rw [if_neg (by simp)] at hup
    omega
  have hpages : L.pages.card ≤ 65342 := (Finset.card_le_card h.live).trans hinv.card_liveIds_le
  omega

theorem effectiveDegree_tableDegree_ge (h : 2 ≤ tableDegree types) :
    2 ≤ effectiveDegree (tableDegree types) := by
  have hle := tableDegree_le types
  obtain ⟨-, hu⟩ | ⟨heq, -⟩ := effectiveDegree_cases h (by omega)
  · exact hu
  · omega

theorem Created.tableOk (h : Created m m' types t) (hne : types ≠ []) :
    TableOk m' t types (.single t.rootPageID) fun _ => none where
  page := by simpa [pageOf, keys] using h.page
  types_ne := hne
  degree := h.degree
  balanced := balanced_single rfl h.root
  represents := represents_single h.root
  rows r v hv := by cases hv

namespace TupleOp

/-- What a call answers or throws, and the map after it. -/
def onRows (types : Tuple) (op : TupleOp) (M : Rank → Option Tuple) :
    Except Exn (Reply Tuple) × (Rank → Option Tuple) :=
  match op.error types with
  | some e => (.error e, M)
  | none => (.ok (op.treeOp.onMap M).1, (op.treeOp.onMap M).2)

variable {op : TupleOp}

theorem onRows_of_none (herr : op.error types = none) :
    op.onRows types M = (.ok (op.treeOp.onMap M).1, (op.treeOp.onMap M).2) := by
  rw [onRows, herr]

theorem key_treeOp : op.treeOp.key = op.key := by cases op <;> rfl

theorem isRow_values {values : Tuple} (herr : tupleError types values = none) (hne : types ≠ [])
    (hkey : (values.headD (.int 0)).isNaN = false) :
    IsRow types (values.headD (.int 0)).rank values := by
  obtain ⟨key, columns, rfl⟩ := exists_key herr hne
  refine ⟨?_, key, columns, rfl, rfl, hkey⟩
  rw [tupleError] at herr
  split_ifs at herr
  assumption

theorem rows_onMap (herr : op.error types = none) (hne : types ≠ []) (hkey : op.key.isNaN = false)
    (hM : ∀ r v, M r = some v → IsRow types r v) :
    ∀ r v, (op.treeOp.onMap M).2 r = some v → IsRow types r v := by
  have hupdate : ∀ values, tupleError types values = none → (values.headD (.int 0)).isNaN = false →
      ∀ r v, Function.update M (values.headD (.int 0)).rank (some values) r = some v → IsRow types r v := by
    intro values herr hkey r v hv
    by_cases hr : r = (values.headD (.int 0)).rank
    · subst hr
      rw [Function.update_self] at hv
      cases hv
      exact isRow_values herr hne hkey
    · rw [Function.update_of_ne hr] at hv
      exact hM r v hv
  cases op with
  | insert values =>
    rw [treeOp, TreeOp.onMap]
    split_ifs
    · exact hM
    · exact hupdate values herr hkey
  | update values =>
    rw [treeOp, TreeOp.onMap]
    split_ifs
    · exact hupdate values herr hkey
    · exact hM
  | read key => exact hM

theorem ncard_keys_onMap (op : TupleOp) (hfin : (keys M).Finite) :
    (keys (op.treeOp.onMap M).2).ncard =
      (keys M).ncard + if op.inserted (op.treeOp.onMap M).1 then 1 else 0 := by
  cases op with
  | insert values =>
    rw [treeOp, TreeOp.onMap]
    by_cases hmem : (M (values.headD (.int 0)).rank).isSome
    · rw [if_pos hmem]
      rfl
    · rw [if_neg hmem]
      exact (congrArg Set.ncard (keys_update ..)).trans (Set.ncard_insert_of_notMem hmem hfin)
  | update values =>
    rw [treeOp, TreeOp.onMap]
    by_cases hmem : (M (values.headD (.int 0)).rank).isSome
    · rw [if_pos hmem]
      exact congrArg Set.ncard ((keys_update ..).trans (Set.insert_eq_of_mem hmem))
    · rw [if_neg hmem]
      rfl
  | read key => rfl

end TupleOp

/-- What a call leaves behind that changes the map to `M'`: the pages of the tree and the table page
may be new ones, or changed, but no other page is. -/
structure Advance (m m' : Mem) (t t' : Table) (types : Tuple) (L L' : Layout) (M' : Rank → Option Tuple) :
    Prop where
  inv : ∃ N, Inv m' N
  table : TableOk m' t' types L' M'
  table_eq : t' = { t with rootPageID := t'.rootPageID }
  live : liveIds m ⊆ liveIds m'
  pages : L.pages ⊆ L'.pages
  fresh : ∀ x ∈ L'.pages, x ∉ L.pages → x ∉ liveIds m
  frame : ∀ x ∈ liveIds m, x ∉ L.pages → x ≠ t.tablePageID → m'.view x = m.view x
  height : L'.height t'.rootPageID ≤ L.height t.rootPageID + 1

theorem TableOk.advance_refl (h : TableOk m t types L M) (hinv : Inv m N) :
    Advance m m t t types L L M :=
  ⟨⟨N, hinv⟩, h, rfl, subset_rfl, subset_rfl, fun _ hx hnot => absurd hx hnot, fun _ _ _ _ => rfl,
    Nat.le_succ _⟩

theorem fresh_of_evolved {root root' : ℕ} (hev : Evolved (treeAt m root) L (treeAt m' root') L')
    (hf : Frame m m') (hnode : ∀ x ∈ L'.pages, ∃ n, nodeAt m' x = some n) {x : ℕ} (hx : x ∈ L'.pages)
    (hnot : x ∉ L.pages) : x ∉ liveIds m := by
  intro hlive
  obtain ⟨n, hn⟩ := hnode x hx
  rw [hf.nodeAt_eq_none hlive (hev.fresh x hx hnot)] at hn
  cases hn

/-- The pages of other trees stay, and so do the pages that are no nodes. -/
theorem view_of_evolved {root root' : ℕ} (hev : Evolved (treeAt m root) L (treeAt m' root') L')
    (hf : Frame m m') {x : ℕ} (hx : x ∈ liveIds m) (hnot : x ∉ L'.pages) : m'.view x = m.view x := by
  cases hn : nodeAt m x with
  | none => exact hf.other x hx hn
  | some n =>
    have hn' : nodeAt m' x = some n := (hev.frame x hnot).trans hn
    rw [(nodeAt_eq_some.mp hn).2, (nodeAt_eq_some.mp hn').2]

/-- The pages that have become live are nodes of the tree, and no other page has come into being. -/
structure Confined (m m' : Mem) (L' : Layout) : Prop where
  new : ∀ x ∈ liveIds m', x ∉ liveIds m → x ∈ L'.pages
  tidy : Tidy m → Tidy m'

theorem Confined.refl (m : Mem) (L : Layout) : Confined m m L := ⟨fun _ hx hnot => absurd hx hnot, fun ht => ht⟩

theorem confined_of_evolved {root root' : ℕ} (hev : Evolved (treeAt m root) L (treeAt m' root') L')
    (hf : Frame m m') (ht : Tidy m → Tidy m') : Confined m m' L' where
  new x hx hnot := by
    by_contra hout
    have hnew := hf.new x hx hnot
    rw [show nodeAt m' x = nodeAt m x from hev.frame x hout, nodeAt, if_neg hnot] at hnew
    cases hnew
  tidy := ht

theorem Confined.setTable {id : ℕ} {p : TablePage} (h : Confined m m' L') (hinv : Inv m' N) (hp : TableAt m' id p)
    (p' : TablePage) : Confined m (m'.set id (.table p')) L' where
  new x hx := h.new x ((hp.set hinv p').2.1 ▸ hx)
  tidy ht := (h.tidy ht).set hinv hp.1 _

theorem mem_eq_of_treeAt_eq {root root' N' : ℕ} (hinv : Inv m N) (hinv' : Inv m' N')
    (h : treeAt m' root' = treeAt m root) (hf : Frame m m') : m' = m ∧ root' = root := by
  rw [treeAt, treeAt, Heap.mk.injEq] at h
  obtain ⟨hnodes, hroot, hrem⟩ := h
  have hcard : (liveIds m').card = (liveIds m).card := by
    have h1 := hinv.card_liveIds_le
    have h2 := hinv'.card_liveIds_le
    have h3 : remaining m' = remaining m := by exact_mod_cast hrem
    rw [remaining, remaining] at h3
    omega
  have hlive : liveIds m' = liveIds m := (Finset.eq_of_subset_of_card_le hf.live hcard.le).symm
  obtain ⟨hblocks, hview⟩ := hf.same hlive
  refine ⟨Mem.ext ?_ hblocks, hroot⟩
  funext x
  cases hn : nodeAt m x with
  | none => exact hview x hn
  | some n =>
    have hn' : nodeAt m' x = some n := (congrFun hnodes x).trans hn
    rw [(nodeAt_eq_some.mp hn).2, (nodeAt_eq_some.mp hn').2]

end Kndb.Table
