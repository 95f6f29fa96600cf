import Kndb.StorageEngine.Fitting

namespace Kndb.StorageEngine

open Imp Imp.Prog Btree Pager Table PageCache

variable {d w fuel : ℕ} {e' e₁' : StorageEngine (PageCache Page Block)} {K : Catalog} {name : List Byte} {c : Content}
variable {v : Tuple} {rows : List Tuple}

def keyRank (values : Tuple) : Rank := (values.headD (.int 0)).rank

def Content.load (c : Content) (rows : List Tuple) : Content :=
  { c with rows := rows.foldl (fun M v => Function.update M (keyRank v) (some v)) c.rows }

theorem Content.keys_load (c : Content) (rows : List Tuple) :
    keys (c.load rows).rows = ((rows.map keyRank).toFinset : Set Rank) ∪ keys c.rows := by
  induction rows generalizing c with
  | nil => simp [Content.load]
  | cons v rows ih =>
    rw [show c.load (v :: rows) = (c.load [v]).load rows from rfl, ih, show (c.load [v]).rows =
      Function.update c.rows (keyRank v) (some v) from rfl, keys_update, List.map_cons, List.toFinset_cons,
      Finset.coe_insert, Set.union_insert, Set.insert_union]

theorem Content.ncard_load (hfin : (keys c.rows).Finite) (hnodup : (rows.map keyRank).Nodup)
    (hnew : ∀ v ∈ rows, c.rows (keyRank v) = none) :
    (keys (c.load rows).rows).ncard = (keys c.rows).ncard + rows.length := by
  have hdisjoint : Disjoint ((rows.map keyRank).toFinset : Set Rank) (keys c.rows) := by
    rw [Set.disjoint_left]
    intro r hr hmem
    obtain ⟨v, hv, rfl⟩ := List.mem_map.mp (List.mem_toFinset.mp hr)
    rw [keys, Set.mem_ofPred_eq, hnew v hv] at hmem
    cases hmem
  rw [c.keys_load, Set.ncard_union_eq hdisjoint (Finset.finite_toSet _) hfin, Set.ncard_coe_finset,
    List.toFinset_card_of_nodup hnodup, List.length_map, Nat.add_comm]

theorem Content.load_of_not_mem {r : Rank} (hr : r ∉ rows.map keyRank) : (c.load rows).rows r = c.rows r := by
  induction rows generalizing c with
  | nil => rfl
  | cons v rows ih =>
    rw [List.map_cons, List.mem_cons, not_or] at hr
    rw [show c.load (v :: rows) = (c.load [v]).load rows from rfl, ih hr.2]
    exact Function.update_of_ne hr.1 ..

theorem Content.load_of_mem (hnodup : (rows.map keyRank).Nodup) (hv : v ∈ rows) :
    (c.load rows).rows (keyRank v) = some v := by
  induction rows generalizing c with
  | nil => cases hv
  | cons u rows ih =>
    rw [List.map_cons, List.nodup_cons] at hnodup
    rw [show c.load (u :: rows) = (c.load [u]).load rows from rfl]
    rcases List.mem_cons.mp hv with rfl | hv
    · rw [Content.load_of_not_mem hnodup.1]
      exact Function.update_self ..
    · exact ih hnodup.2 hv

theorem Content.pages_load_le (hfin : (keys c.rows).Finite) (rows : List Tuple) : c.pages ≤ (c.load rows).pages := by
  have hle : (keys c.rows).ncard ≤ (keys (c.load rows).rows).ncard := by
    rw [c.keys_load]
    exact Set.ncard_le_ncard Set.subset_union_right ((Finset.finite_toSet _).union hfin)
  exact Nat.add_le_add_left (Nat.div_le_div_right hle) 2

/-- A row that a table with these columns takes. -/
structure Fits (types values : Tuple) : Prop where
  typed : tupleError types values = none
  number : (values.headD (.int 0)).isNaN = false
  storable : ∀ a ∈ values, a.Storable

theorem Housed.finite (h : Housed d e' K w) : {name | (K name).isSome}.Finite ∧
    ∀ name c, K name = some c → (keys c.rows).Finite := by
  obtain ⟨_, _, e, hprep, -, -⟩ := h
  obtain ⟨L, hholds⟩ := hprep.holds
  refine ⟨hprep.finite_names, fun name c hc => ?_⟩
  obtain ⟨t, ht, rfl⟩ := List.mem_map.mp ((hprep.catalog name).mp (Option.isSome_of_eq_some hc))
  obtain ⟨c', hc', -, ok⟩ := hholds.table t ht
  obtain rfl : c' = c := Option.some.inj (hc'.symm.trans hc)
  exact finite_keys ok.tree ok.represents

theorem Catalog.pages_update_mono (hfin : {name | (K name).isSome}.Finite) {c c' : Content} (h : c.pages ≤ c'.pages) :
    Catalog.pages (Function.update K name (some c)) ≤ Catalog.pages (Function.update K name (some c')) := by
  have h₁ := Catalog.pages_update hfin name (some c)
  have h₂ := Catalog.pages_update hfin name (some c')
  rw [Option.elim_some] at h₁ h₂
  omega

theorem Housed.insertTuple (h : Housed d e' K w) (hc : K name = some c) (hv : Fits c.types v)
    (hnew : c.rows (keyRank v) = none)
    (hroom : w + Catalog.pages (Function.update K name (some (c.load [v]))) ≤ Pager.capacity)
    (hfuel : maxDepth ≤ fuel) : ∃ e₁', Housed d e₁' (Function.update K name (some (c.load [v]))) w ∧
      insertTuple cacheOps fuel name v e' = .ok true e₁' := by
  have hmap : (TupleOp.insert v).treeOp.onMap c.rows = (.changed true, (c.load [v]).rows) := by
    rw [TupleOp.treeOp, TreeOp.onMap, if_neg (by rw [← keyRank, hnew]; exact Bool.false_ne_true)]
    rfl
  have hrows : (TupleOp.insert v).onRows c.types c.rows = (.ok (.changed true), (c.load [v]).rows) := by
    rw [TupleOp.onRows_of_none (show (TupleOp.insert v).error c.types = none from hv.typed), hmap]
  have hcat : K.onTable name (.insert v) (.changed false) =
      (.ok (.changed true), Function.update K name (some (c.load [v]))) := by
    rw [Catalog.onTable, hc]
    dsimp only
    rw [hrows]
    rfl
  have hafter : (EngineOp.insertTuple name v).onCatalog K = Function.update K name (some (c.load [v])) :=
    congrArg Prod.snd hcat
  have hadm : (EngineOp.insertTuple name v).Admissible K := hv.number
  obtain ⟨r₀, r, e₁', hrun, hans, halike, hhoused⟩ := h.step hadm hv.storable trivial (hafter.symm ▸ hroom) hfuel
  rw [hafter] at hhoused
  obtain rfl : r₀ = .ok (.changed true) := hans.trans (congrArg Prod.fst hcat)
  obtain ⟨_, rfl, rfl⟩ := halike.exists_ok
  obtain ⟨b, hb, heq⟩ := ok_of_map hrun
  cases heq
  exact ⟨e₁', hhoused, hb⟩

/-- The loop inserts all rows that fit the table. -/
theorem Housed.insertAll (h : Housed d e' K w) (hc : K name = some c) (hrows : ∀ v ∈ rows, Fits c.types v)
    (hnodup : (rows.map keyRank).Nodup) (hnew : ∀ v ∈ rows, c.rows (keyRank v) = none)
    (hroom : w + Catalog.pages (Function.update K name (some (c.load rows))) ≤ Pager.capacity)
    (hfuel : maxDepth ≤ fuel) : ∃ e₁', Housed d e₁' (Function.update K name (some (c.load rows))) w ∧
      insertAll cacheOps fuel name rows e' = .ok () e₁' := by
  induction rows generalizing c K e' with
  | nil =>
    rw [show c.load [] = c from rfl, ← hc, Function.update_eq_self]
    exact ⟨e', h, rfl⟩
  | cons v rows ih =>
    obtain ⟨hfin, hkeys⟩ := h.finite
    have hload : c.load (v :: rows) = (c.load [v]).load rows := rfl
    have hfin' : (keys (c.load [v]).rows).Finite := by
      rw [c.keys_load]
      exact (Finset.finite_toSet _).union (hkeys name c hc)
    have hroom₁ : w + Catalog.pages (Function.update K name (some (c.load [v]))) ≤ Pager.capacity :=
      (Nat.add_le_add_left (Catalog.pages_update_mono hfin (Content.pages_load_le hfin' rows)) w).trans hroom
    rw [List.map_cons, List.nodup_cons] at hnodup
    obtain ⟨e₁, h₁, hrun₁⟩ := h.insertTuple hc (hrows v (List.mem_cons_self ..))
      (hnew v (List.mem_cons_self ..)) hroom₁ hfuel
    have hnew' : ∀ u ∈ rows, (c.load [v]).rows (keyRank u) = none := by
      intro u hu
      have hne : keyRank u ≠ keyRank v := fun heq => hnodup.1 (heq ▸ List.mem_map_of_mem hu)
      rw [show (c.load [v]).rows = Function.update c.rows (keyRank v) (some v) from rfl, Function.update_of_ne hne]
      exact hnew u (List.mem_cons_of_mem _ hu)
    obtain ⟨e₂, h₂, hrun₂⟩ := ih h₁ (Function.update_self ..) (fun u hu => hrows u (List.mem_cons_of_mem _ hu))
      hnodup.2 hnew' (by rwa [Function.update_idem, ← hload])
    rw [Function.update_idem, ← hload] at h₂
    refine ⟨e₂, h₂, ?_⟩
    rw [StorageEngine.insertAll, bind_ok hrun₁]
    exact hrun₂

theorem fits_student (third : ℕ → BitVec 64) (i : ℕ) : Fits studentTypes (student third i) where
  typed := rfl
  number := rfl
  storable := by simp [student, Vari.Storable]

theorem nodup_students (third : ℕ → BitVec 64) {n : ℕ} (hn : n ≤ 2 ^ 32) :
    (((List.range n).map (student third)).map keyRank).Nodup := by
  rw [List.map_map]
  refine List.nodup_range.map_on fun i hi j hj heq => ?_
  rw [List.mem_range] at hi hj
  have hint : (BitVec.ofNat 32 i).toInt = (BitVec.ofNat 32 j).toInt := by
    simpa [keyRank, student, Vari.rank] using heq
  have hmod := congrArg BitVec.toNat (BitVec.toInt_inj.mp hint)
  rw [BitVec.toNat_ofNat, BitVec.toNat_ofNat, Nat.mod_eq_of_lt (by omega), Nat.mod_eq_of_lt (by omega)] at hmod
  exact hmod

theorem Housed.createStudents (h : Housed (tableDegree studentTypes) e' (fun _ => none) 1) : ∃ e₁',
    Housed (tableDegree studentTypes) e₁'
        (Function.update (fun _ => none) students (some ⟨studentTypes, fun _ => none⟩)) 1 ∧
      createTable cacheOps students studentTypes e' = .ok () e₁' := by
  obtain ⟨r₀, r, e₁', hrun, hans, halike, hhoused⟩ := h.step admissible_students ⟨by decide, by decide⟩ le_rfl
    pages_students (le_refl maxDepth)
  obtain rfl : r₀ = .ok .done := hans
  obtain ⟨_, rfl, rfl⟩ := halike.exists_ok
  obtain ⟨_, hcreate, -⟩ := ok_of_map hrun
  exact ⟨e₁', hhoused, hcreate⟩

theorem Housed.getNumTuples (h : Housed d e' K w) (hc : K name = some c) (hroom : w + K.pages ≤ Pager.capacity) :
    ∃ e₁', Housed d e₁' K w ∧ getNumTuples cacheOps name e' = .ok (some (keys c.rows).ncard) e₁' := by
  have hadm : (EngineOp.getNumTuples name).Admissible K := trivial
  obtain ⟨r₀, r, e₁', hrun, hans, halike, hhoused⟩ := h.step hadm trivial trivial hroom (le_refl maxDepth)
  obtain rfl : r₀ = .ok (.count (some (keys c.rows).ncard)) := hans.trans (by rw [hc]; rfl)
  obtain ⟨_, rfl, rfl⟩ := halike.exists_ok
  obtain ⟨b, hb, heq⟩ := ok_of_map hrun
  cases heq
  exact ⟨e₁', hhoused, hb⟩

theorem Housed.getTuple (h : Housed d e' K w) (key : Vari) (hc : K name = some c)
    (herr : keyError c.types key = none) (hkey : key.isNaN = false) (hroom : w + K.pages ≤ Pager.capacity)
    (hfuel : maxDepth ≤ fuel) : ∃ e₁', getTuple cacheOps fuel name key e' = .ok (c.rows key.rank) e₁' := by
  have hcat : (K.onTable name (.read key) (.row none)).1 = .ok (.row (c.rows key.rank)) := by
    rw [Catalog.onTable, hc]
    dsimp only
    rw [TupleOp.onRows_of_none (show (TupleOp.read key).error c.types = none from herr)]
    rfl
  have hadm : (EngineOp.getTuple name key).Admissible K := hkey
  obtain ⟨r₀, r, e₁', hrun, hans, halike, -⟩ := h.step hadm trivial trivial hroom hfuel
  obtain rfl : r₀ = .ok (.row (c.rows key.rank)) := Eq.trans hans hcat
  obtain ⟨_, rfl, rfl⟩ := halike.exists_ok
  obtain ⟨b, hb, heq⟩ := ok_of_map hrun
  cases heq
  exact ⟨e₁', hb⟩

def studentTable (third : ℕ → BitVec 64) (n : ℕ) : Content :=
  Content.load ⟨studentTypes, fun _ => none⟩ ((List.range n).map (student third))

def studentCatalog (third : ℕ → BitVec 64) (n : ℕ) : Catalog :=
  Function.update (fun _ => none) students (some (studentTable third n))

theorem ncard_studentTable {third : ℕ → BitVec 64} {n : ℕ} (hn : n ≤ 2 ^ 32) :
    (keys (studentTable third n).rows).ncard = n := by
  rw [studentTable, Content.ncard_load (by simp [keys]) (nodup_students third hn) fun _ _ => rfl]
  simp [keys]

theorem rows_studentTable {third : ℕ → BitVec 64} {n i : ℕ} (hn : n ≤ 2 ^ 32) (hi : i < n) :
    (studentTable third n).rows (keyRank (student third i)) = some (student third i) :=
  Content.load_of_mem (nodup_students third hn) (List.mem_map_of_mem (List.mem_range.mpr hi))

theorem pages_studentCatalog (third : ℕ → BitVec 64) {n : ℕ}
    (hn : 3 + n / (tableDegree studentTypes - 1) ≤ Pager.capacity) :
    n ≤ 2 ^ 32 ∧ 1 + Catalog.pages (studentCatalog third n) ≤ Pager.capacity := by
  have hdeg : tableDegree studentTypes = 83 := by decide
  have hcapacity : Pager.capacity = 65342 := rfl
  rw [hdeg] at hn
  have hle : n ≤ 2 ^ 32 := by omega
  rw [studentCatalog, Catalog.pages_single, Content.pages, ncard_studentTable hle,
    show (studentTable third n).types = studentTypes from rfl, hdeg]
  exact ⟨hle, by omega⟩

/-- The queries of `main` leave the table of the students. -/
theorem Housed.queries (h : Housed (tableDegree studentTypes) e' (fun _ => none) 1) (third : ℕ → BitVec 64) {n : ℕ}
    (hn : 3 + n / (tableDegree studentTypes - 1) ≤ Pager.capacity) (hfuel : maxDepth ≤ fuel) :
    ∃ e₁', Housed (tableDegree studentTypes) e₁' (studentCatalog third n) 1 ∧
      StorageEngine.queries cacheOps fuel third n e' = .ok () e₁' := by
  obtain ⟨hle, hpages⟩ := pages_studentCatalog third hn
  have hfits : ∀ v ∈ (List.range n).map (student third), Fits studentTypes v := by
    intro v hv
    obtain ⟨i, -, rfl⟩ := List.mem_map.mp hv
    exact fits_student third i
  obtain ⟨e₁, h₁, hcreate⟩ := h.createStudents
  obtain ⟨e₂, h₂, hinsert⟩ := h₁.insertAll (Function.update_self ..) hfits (nodup_students third hle)
    (fun _ _ => rfl) (by rwa [Function.update_idem]) hfuel
  rw [Function.update_idem] at h₂
  obtain ⟨e₃, h₃, hcount⟩ := h₂.getNumTuples (Function.update_self ..) hpages
  rw [← studentTable, ncard_studentTable hle] at hcount
  refine ⟨e₃, h₃, ?_⟩
  rw [StorageEngine.queries, bind_ok hcreate, bind_ok hinsert, bind_ok hcount, decide_eq_true rfl]
  rfl

end Kndb.StorageEngine
