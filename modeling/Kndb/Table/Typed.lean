import Kndb.BtreeNodePage.Bytes
import Kndb.Table.Run

namespace Kndb.Table

open Imp Imp.Prog Btree LawfulCache Pager BtreeNodePage Codec

variable {σ : Type} {C : LawfulCache σ} {m m' : Mem} {N p : ℕ} {st st' : TableState σ} {t : Table}
variable {types values : Tuple} {L L' : Layout} {M : Rank → Option Tuple} {n : BtreeNodePage Tuple}
variable {c : Cell Tuple} {key : Vari} {op : TupleOp} {fuel : ℕ}

def InTree (nodes : ℕ → Option (BtreeNodePage Tuple)) (root p : ℕ) : Prop :=
  Relation.ReflTransGen (fun a b => ∃ n, nodes a = some n ∧ b ∈ n.children) root p

theorem mem_of_inTree {deg root : ℕ} {nodes : ℕ → Option (BtreeNodePage Tuple)} (h : Linked deg nodes root L)
    (hp : InTree nodes root p) : p ∈ L.pages := by
  induction hp with
  | refl => exact h.root_mem
  | tail _ hstep ih =>
    obtain ⟨n, hn, hb⟩ := hstep
    exact ((h.link_of ih hn).kids _ hb).1

theorem lt_of_mem_liveIds (hinv : Inv m N) {id : ℕ} (hid : id ∈ liveIds m) : id < 2 ^ 32 :=
  calc id < N * FSMPage.getBlocksInPage := ((mem_liveIds hinv.blocks).mp hid).1
    _ ≤ MAX_FSMPAGES * FSMPage.getBlocksInPage := Nat.mul_le_mul_right _ hinv.le
    _ < 2 ^ 32 := by decide

/-- A row of the types of the table under a key of the type of its first column. -/
structure TypedCell (types : Tuple) (c : Cell Tuple) : Prop where
  key : variant_to_type_id c.key = variant_to_type_id (types.headD (.int 0))
  value : sameTypes c.value types = true

/-- The size of a cell, as it is before `calculateDegree` cuts it off to 16 bits. -/
def cellSizeOf (types : Tuple) : ℕ := db_sizeof (types.headD (.int 0)) + (types.map db_sizeof).sum

theorem TypedCell.bytes_eq (h : TypedCell types c) : cellBytes c = cellSizeOf types := by
  rw [cellBytes, cellSizeOf, db_sizeof_congr h.key, map_db_sizeof_congr h.value]

theorem TypedCell.length_eq (h : TypedCell types c) : c.value.length = types.length := by
  simpa using congrArg List.length (sameTypes_iff.mp h.value)

theorem typedCell_of_tupleError (herr : tupleError types values = none) (hne : types ≠ []) :
    TypedCell types ⟨values.headD (.int 0), values⟩ := by
  obtain ⟨key, columns, rfl⟩ := exists_key herr hne
  obtain ⟨type, types, rfl⟩ := List.exists_cons_of_ne_nil hne
  rw [tupleError] at herr
  split_ifs at herr with _ hsame
  refine ⟨?_, hsame⟩
  have hmap := sameTypes_iff.mp hsame
  rw [List.map_cons, List.map_cons, List.cons.injEq] at hmap
  exact hmap.1

theorem TupleOp.keeps_typedCell (herr : op.error types = none) (hne : types ≠ []) :
    op.treeOp.Keeps (TypedCell types) := by
  cases op with
  | insert values => exact typedCell_of_tupleError herr hne
  | update values => exact fun c hc => ⟨hc.key, (typedCell_of_tupleError herr hne).value⟩
  | read key => exact trivial

theorem length_le_cellSizeOf (types : Tuple) : types.length ≤ cellSizeOf types := by
  have hpos : ∀ l : Tuple, l.length ≤ (l.map db_sizeof).sum := by
    intro l
    induction l with
    | nil => exact le_rfl
    | cons type l ih =>
      have hone : 1 ≤ db_sizeof type := by cases type <;> simp [db_sizeof, MAX_STR_SZ]
      rw [List.length_cons, List.map_cons, List.sum_cons]
      omega
  exact (hpos types).trans (Nat.le_add_left _ _)

theorem tableDegree_mul_le (hsize : cellSizeOf types < 2 ^ 16) :
    tableDegree types * (2 * (cellSizeOf types + 4)) ≤ PG_SZ - 100 + cellSizeOf types := by
  cases types with
  | nil => exact (Nat.zero_mul _).le.trans (Nat.zero_le _)
  | cons key columns =>
    have hcell : cellSize key (key :: columns) = cellSizeOf (key :: columns) := Nat.mod_eq_of_lt hsize
    rw [tableDegree, calculateDegree, hcell]
    exact Nat.div_mul_le_self ..

/-- The table `t` with columns `types` has the nodes of `L`, whatever the order of the keys is. -/
structure TypedOk (m : Mem) (t : Table) (types : Tuple) (L : Layout) : Prop where
  page : ∃ k, TableAt m t.tablePageID ⟨t.tablePageID, types, t.rootPageID, k⟩
  types_ne : types ≠ []
  degree : t.degree = tableDegree types
  balanced : Balanced False t.degree (effectiveDegree t.degree) (treeAt m t.rootPageID) L none
  cells : ∀ c, CellIn (nodeAt m) L c → TypedCell types c

theorem type_id_eq_of_rank_eq {a b : Vari} (h : a.rank = b.rank) : variant_to_type_id a = variant_to_type_id b :=
  type_id_eq_iff.mpr (Vari.index_eq_of_rank_eq h)

/-- The key of a cell has the type of the first column. -/
theorem IsRow.type_id {r : Rank} {v : Tuple} (h : IsRow types r v) (hr : key.rank = r) :
    variant_to_type_id key = variant_to_type_id (types.headD (.int 0)) := by
  obtain ⟨htypes, k, columns, rfl, hk, -⟩ := h
  rw [type_id_eq_of_rank_eq (hr.trans hk.symm)]
  rw [sameTypes_iff] at htypes
  cases types with
  | nil => cases htypes
  | cons type types =>
    rw [List.map_cons, List.map_cons, List.cons.injEq] at htypes
    exact htypes.1

theorem TableOk.row (h : TableOk m t types L M) (hc : CellIn (nodeAt m) L c) : IsRow types c.key.rank c.value :=
  h.rows _ _ ((h.represents c.key.rank c.value).mpr ⟨c, hc, rfl, rfl⟩)

theorem TableOk.typed (h : TableOk m t types L M) : TypedOk m t types L where
  page := ⟨_, h.page⟩
  types_ne := h.types_ne
  degree := h.degree
  balanced := ⟨h.balanced.linked, h.balanced.sized, False.elim⟩
  cells _ hc := ⟨(h.row hc).type_id rfl, (h.row hc).1⟩

theorem encodable_of_balanced {deg root : ℕ} {ovf : Option ℕ} (hinv : Inv m N) (hdeg : 2 ≤ effectiveDegree deg)
    (hlt : deg < 2 ^ 16) (hb : Balanced False deg (effectiveDegree deg) (treeAt m root) L ovf)
    (hcells : ∀ c, CellIn (nodeAt m) L c → TypedCell types c) (hp : p ∈ L.pages) (hn : nodeAt m p = some n) :
    (n.setParent (n.parentID % 2 ^ 32)).Encodable := by
  have ok := hb.linked.link_of hp hn
  have hsized := hb.sized
  have hcell : ∀ d ∈ n.cells, TypedCell types d := fun d hd => hcells d ⟨p, hp, n, hn, hd⟩
  -- an inner page has a cell, and is written with the types of that cell
  have hsome : n.leaf = false → n.cells ≠ [] := by
    intro hleaf hnil
    by_cases hroot : p = root
    · have := hsized.root_nonempty n (hroot ▸ hn) hleaf
      rw [hnil] at this
      cases this
    · have := hsized.lower p hp hroot n hn
      rw [hnil, List.length_nil] at this
      omega
  constructor
  · exact ok.degree.trans_lt hlt
  · exact Nat.mod_lt _ (by decide)
  · have hup : n.cells.length ≤ 2 * effectiveDegree deg - 2 + 1 :=
      (hsized.upper p hp n hn).trans (Nat.add_le_add_left (ite_le_sup _ _ _) _)
    have hle := effectiveDegree_le deg
    change n.cells.length < 2 ^ 32
    omega
  · intro c hc
    obtain ⟨-, -, k, hk, -⟩ := ok.kids c hc
    exact lt_of_mem_liveIds hinv (nodeAt_eq_some.mp hk).1
  · exact ok.leaf_children
  · exact fun hleaf _ => hsized.arity p hp n hn hleaf
  · exact fun hleaf hnil => absurd hnil (hsome hleaf)
  · exact fun d hd d' hd' => (hcell d hd).key.trans (hcell d' hd').key.symm
  · intro d hd d' hd'
    rw [sameTypes_iff]
    exact (sameTypes_iff.mp (hcell d hd).value).trans (sameTypes_iff.mp (hcell d' hd').value).symm

namespace TypedOk

theorem encodable (h : TypedOk m t types L) (hinv : Inv m N) (hdeg : 2 ≤ effectiveDegree (tableDegree types))
    (hp : p ∈ L.pages) (hn : nodeAt m p = some n) : (n.setParent (n.parentID % 2 ^ 32)).Encodable := by
  have hlt := tableDegree_le types
  have hu : 2 ≤ effectiveDegree t.degree := by rwa [h.degree]
  exact encodable_of_balanced hinv hu (by rw [h.degree]; omega) h.balanced h.cells hp hn

end TypedOk

/-- A node of typed cells of at most `2 * t - 2` cells, where `t` is the degree of the table, has room in a
page: the 100 bytes that `calculateDegree` leaves for the rest are enough for the types of the columns, since
each column has made every cell at least a byte longer. -/
theorem bytes_le_of_typed (hsize : cellSizeOf types < 2 ^ 16) (hdeg : 2 ≤ tableDegree types)
    (hcells : ∀ c ∈ n.cells, TypedCell types c) (hlen : n.cells.length ≤ 2 * tableDegree types - 2) :
    n.bytes ≤ PG_SZ := by
  rw [BtreeNodePage.bytes]
  cases hn : n.cells with
  | nil => exact (show 13 ≤ PG_SZ by decide)
  | cons first rest =>
    have hfirst : first.value.length = types.length := (hcells first (by simp [hn])).length_eq
    have hsum : (n.cells.map cellBytes).sum = n.cells.length * cellSizeOf types := by
      rw [List.map_congr_left fun c hc => (hcells c hc).bytes_eq, List.map_const', List.sum_replicate_nat]
    have hchildren : (if n.leaf then 0 else 4 * (n.cells.length + 1)) ≤ 4 * (n.cells.length + 1) := by
      split_ifs
      · exact Nat.zero_le _
      · exact le_rfl
    have hcolumns := length_le_cellSizeOf types
    have hroom : (n.cells.length + 2) * (cellSizeOf types + 4) ≤ PG_SZ - 100 + cellSizeOf types :=
      calc (n.cells.length + 2) * (cellSizeOf types + 4)
          ≤ 2 * tableDegree types * (cellSizeOf types + 4) := Nat.mul_le_mul_right _ (by omega)
        _ = tableDegree types * (2 * (cellSizeOf types + 4)) := by ring
        _ ≤ PG_SZ - 100 + cellSizeOf types := tableDegree_mul_le hsize
    have hexpand : (n.cells.length + 2) * (cellSizeOf types + 4) =
        n.cells.length * cellSizeOf types + 4 * n.cells.length + 2 * cellSizeOf types + 8 := by ring
    change 13 + cellsBytes first n ≤ PG_SZ
    rw [cellsBytes, hsum, hfirst]
    rw [hexpand] at hroom
    simp only [PG_SZ] at hroom ⊢
    omega

end Kndb.Table
