import Kndb.StorageEngine
import Kndb.Table.Rooted

namespace Kndb.StorageEngine

open Imp Imp.Prog LawfulCache Pager Table

variable {σ α : Type} {C : LawfulCache σ} {m m' : Mem} {N id : ℕ} {p : SchemaPage} {e e' : StorageEngine σ}
variable {Q : α → StorageEngine σ → Prop} {R : Exn → StorageEngine σ → Prop} {A : Stop → Prop}

inductive EngineOp where
  | createTable (tableName : List Byte) (types : Tuple)
  | dropTable (tableName : List Byte)
  | getTableNames
  | getTableTypes (tableName : List Byte)
  | getNumTuples (tableName : List Byte)
  | insertTuple (tableName : List Byte) (values : Tuple)
  | updateTuple (tableName : List Byte) (values : Tuple)
  | removeTuple (tableName : List Byte) (key : Vari)
  | getTuple (tableName : List Byte) (key : Vari)

inductive EngineReply where
  | done
  | names (tableNames : List (List Byte))
  | types (types : Option Tuple)
  | count (n : Option ℕ)
  | changed (b : Bool)
  | row (values : Option Tuple)
deriving DecidableEq

def EngineOp.run {Ref σ : Type} (C : CacheOps Ref σ) (fuel : ℕ) : EngineOp → EngineM σ EngineReply
  | createTable name types => do
    StorageEngine.createTable C name types
    return .done
  | dropTable name => do
    StorageEngine.dropTable C name
    return .done
  | getTableNames => do return .names (← StorageEngine.getTableNames C)
  | getTableTypes name => do return .types (← StorageEngine.getTableTypes C name)
  | getNumTuples name => do return .count (← StorageEngine.getNumTuples C name)
  | insertTuple name values => do return .changed (← StorageEngine.insertTuple C fuel name values)
  | updateTuple name values => do return .changed (← StorageEngine.updateTuple C fuel name values)
  | removeTuple name key => do return .changed (← StorageEngine.removeTuple C name key)
  | getTuple name key => do return .row (← StorageEngine.getTuple C fuel name key)

theorem onTable_approx {p q : TableM σ α} (h : Approx p q) (name : List Byte) :
    Approx (onTable name p) (onTable name q) := by
  refine (Approx.refl _).bind fun tables => ?_
  cases tables.findIdx? fun t => t.name == name with
  | none => exact .refl _
  | some i => exact (Approx.refl _).bind fun _ => (Approx.zoom h).bind fun _ => .refl _

theorem EngineOp.run_approx {Ref : Type} (D : CacheOps Ref σ) {k n : ℕ} (h : k ≤ n) (op : EngineOp) :
    Approx (op.run D k) (op.run D n) := by
  cases op with
  | insertTuple name values =>
    exact ((onTable_approx (insertTuple_approx D h values) name).bind fun _ => .refl _).bind fun _ => .refl _
  | updateTuple name values =>
    exact ((onTable_approx (updateTuple_approx D h values) name).bind fun _ => .refl _).bind fun _ => .refl _
  | getTuple name key =>
    exact ((onTable_approx (readTuple_approx D h key) name).bind fun _ => .refl _).bind fun _ => .refl _
  | _ => exact .refl _

theorem EngineOp.answer_unique {Ref : Type} {D : CacheOps Ref σ} {op : EngineOp} {k n : ℕ} {e e₁ e₂ : StorageEngine σ}
    {r r' : Except Exn EngineReply} (h : op.run D k e = .answer r e₁) (h' : op.run D n e = .answer r' e₂) :
    r' = r ∧ e₂ = e₁ := by
  have heq := eq_of_approx (fun _ _ hle => op.run_approx D hle) (h ▸ Outcome.answer_ne_timeout)
    (h' ▸ Outcome.answer_ne_timeout)
  exact Outcome.answer_inj (h'.symm.trans (heq.symm.trans h))

/-- The live page `id` is the schema page `p`. -/
def SchemaAt (m : Mem) (id : ℕ) (p : SchemaPage) : Prop := id ∈ liveIds m ∧ m.view id = some (.schema p)

theorem SchemaAt.nodeAt_eq (h : SchemaAt m id p) : nodeAt m id = none := by
  rw [nodeAt, if_pos h.1, h.2]
  rfl

theorem SchemaAt.not_table (h : SchemaAt m id p) (q : TablePage) : ¬TableAt m id q := by
  rintro ⟨-, hview⟩
  cases h.2.symm.trans hview

theorem SchemaAt.kept {S S' : Set ℕ} (h : SchemaAt m id p) (hkept : Kept m m' S S') : SchemaAt m' id p :=
  hkept.view_eq h.1 h.2 h.nodeAt_eq nofun

theorem SchemaAt.set (h : SchemaAt m id p) (hinv : Inv m N) (p' : SchemaPage) :
    Inv (m.set id (.schema p')) N ∧ liveIds (m.set id (.schema p')) = liveIds m ∧
      nodeAt (m.set id (.schema p')) = nodeAt m ∧ SchemaAt (m.set id (.schema p')) id p' := by
  obtain ⟨hinv', hlive, hat⟩ := frame_set_other hinv h.1 h.nodeAt_eq (p := .schema p') rfl
  exact ⟨hinv', hlive, hat, hlive ▸ h.1, Mem.set_self ..⟩

theorem wp_onSchemaPage {q : Code SchemaPage α} (ok : C.Ok e.pager) (hinv : Inv (C.mem e.pager) N)
    (h : SchemaAt (C.mem e.pager) e.schemaPageID p)
    (hq : q.wp p (fun a p' => p'.pageID = p.pageID ∧ ∀ s', C.Ok s' →
      C.mem s' = (C.mem e.pager).set e.schemaPageID (.schema p') → Q a { e with pager := s' })
      (fun _ _ => False) A) : (onSchemaPage C.toCacheOps q).wp e Q R A := by
  obtain ⟨s₁, hs₁, ok₁, hm₁⟩ := (returns_getPage hinv h.1 h.2).start ok
  have hview : C.view s₁ e.schemaPageID = some (PageClass.wrap p) :=
    (congrFun (congrArg Mem.view hm₁) _).trans h.2
  rw [onSchemaPage, wp_bind, wp_gets, onPager, wp_zoom, wp_bind]
  refine (wp_of_ok hs₁).mpr ((wp_call ok₁ hview).mpr (wp_mono hq ?_ (fun _ _ hf => hf.elim) fun _ hA => hA))
  rintro a p' ⟨hid, hQ⟩
  obtain ⟨ok', hm'⟩ := store_wrap ok₁ hview (show (PageClass.wrap p').pageID = _ from hid)
  exact hQ _ ok' (hm'.trans (by rw [hm₁]; rfl))

theorem returns_readSchemaPage (hinv : Inv m N) (h : SchemaAt m id p) :
    C.Returns (do C.deref SchemaPage (← getPage C.toCacheOps .schema id)) m p m :=
  (returns_getPage hinv h.1 h.2).bind (returns_deref (T := SchemaPage) h.2)

theorem wp_addTable {tableName : List Byte} {pageID : ℕ} {Q : Unit → SchemaPage → Prop}
    {R : Exn → SchemaPage → Prop} (hnew : tableName ∉ p.tables.map Prod.fst)
    (hQ : SchemaPage.entrySize ≤ p.freeSpace → Q () { p with tables := p.tables ++ [(tableName, pageID)] })
    (hA : A .abort) : (SchemaPage.addTable tableName pageID).wp p Q R A := by
  rw [SchemaPage.addTable, wp_bind, wp_require]
  refine ⟨fun _ => ?_, fun _ => hA⟩
  rw [wp_bind, wp_require]
  refine ⟨fun _ => ?_, fun _ => hA⟩
  rw [wp_bind, wp_gets, wp_bind, wp_require]
  refine ⟨fun hroom => ?_, fun _ => hA⟩
  rw [wp_change, emplace, if_neg hnew]
  exact hQ (of_decide_eq_true hroom)

def entry (t : Table) : List Byte × ℕ := (t.name, t.tablePageID)

theorem lastIndex_eq_none {tableName : List Byte} {l : List Table} :
    lastIndex tableName l = none ↔ tableName ∉ l.map Table.name := by
  induction l with
  | nil => simp [lastIndex]
  | cons t l ih =>
    rw [lastIndex, List.map_cons, List.mem_cons, not_or]
    cases hl : lastIndex tableName l with
    | none =>
      rw [hl] at ih
      by_cases ht : t.name = tableName
      · simp [ht]
      · simp [ht, ih.mp rfl, Ne.symm ht]
    | some i =>
      rw [hl] at ih
      simp only [reduceCtorEq, false_iff, not_and] at ih ⊢
      exact fun _ => ih

theorem name_of_lastIndex {tableName : List Byte} {l : List Table} {i : ℕ}
    (h : lastIndex tableName l = some i) : ∃ t, l[i]? = some t ∧ t.name = tableName := by
  induction l generalizing i with
  | nil => cases h
  | cons t l ih =>
    rw [lastIndex] at h
    cases hl : lastIndex tableName l with
    | some j =>
      rw [hl] at h
      cases h
      exact ih hl
    | none =>
      rw [hl] at h
      by_cases ht : t.name = tableName
      · rw [if_pos ht] at h
        cases h
        exact ⟨t, rfl, ht⟩
      · rw [if_neg ht] at h
        cases h

theorem filter_entries {tableName : List Byte} {l : List Table} {i : ℕ} {t : Table}
    (hl : (l.map Table.name).Nodup) (hi : l[i]? = some t) (ht : t.name = tableName) :
    (l.map entry).filter (fun x => x.1 ≠ tableName) = (l.eraseIdx i).map entry := by
  induction l generalizing i with
  | nil => cases hi
  | cons t' l ih =>
    rw [List.map_cons, List.nodup_cons] at hl
    cases i with
    | zero =>
      cases hi
      rw [List.map_cons, List.filter_cons_of_neg (by simp [entry, ht]), List.eraseIdx_cons_zero, List.filter_eq_self]
      intro x hx
      obtain ⟨t', ht', rfl⟩ := List.mem_map.mp hx
      rw [decide_eq_true_iff, ← ht]
      exact fun heq => hl.1 (List.mem_map.mpr ⟨t', ht', heq⟩)
    | succ i =>
      have hne : t'.name ≠ tableName := by
        rintro rfl
        exact hl.1 (List.mem_map.mpr ⟨t, List.mem_of_getElem? hi, ht⟩)
      rw [List.map_cons, List.filter_cons_of_pos (by simp [entry, hne]), ih hl.2 hi, List.eraseIdx_cons_succ,
        List.map_cons]

/-- What `createTable` finds wrong with a name, if anything is. -/
def nameError (tables : List Table) (tableName : List Byte) : Option Exn :=
  if MAX_STR_SZ < tableName.length + 1 then some nameTooLong
  else if tableName.isEmpty then some nameEmpty
  else if tables.any fun t => t.name == tableName then some nameInUse
  else none

theorem checkName_eq (tableName : List Byte) (e : StorageEngine σ) :
    checkName tableName e = verdict e (nameError e.tables tableName) := by
  rw [checkName, nameError]
  by_cases hlong : MAX_STR_SZ < tableName.length + 1
  · rw [if_pos hlong, if_pos hlong]
    rfl
  by_cases hempty : tableName.isEmpty = true
  · rw [if_neg hlong, if_neg hlong, if_pos hempty, if_pos hempty]
    rfl
  rw [if_neg hlong, if_neg hlong, if_neg hempty, if_neg hempty]
  change (if _ then raise nameInUse else pure () : EngineM σ Unit) e = _
  split_ifs
  · rfl
  · rfl

theorem nameError_eq_none {tables : List Table} {tableName : List Byte} :
    nameError tables tableName = none ↔ SchemaPage.NameOk tableName ∧ tableName ∉ tables.map Table.name := by
  have hmem : (tables.any fun t => t.name == tableName) = true ↔ tableName ∈ tables.map Table.name := by
    simp
  rw [nameError, SchemaPage.NameOk, ← hmem]
  by_cases hlong : MAX_STR_SZ < tableName.length + 1
  · rw [if_pos hlong]
    exact iff_of_false (by simp) fun h => by have := h.1.2; simp only [MAX_STR_LEN, MAX_STR_SZ] at *; omega
  rw [if_neg hlong]
  by_cases hempty : tableName.isEmpty = true
  · rw [if_pos hempty]
    exact iff_of_false (by simp) fun h => h.1.1 (List.isEmpty_iff.mp hempty)
  rw [if_neg hempty]
  have hname : tableName ≠ [] ∧ tableName.length ≤ MAX_STR_LEN := by
    refine ⟨fun h => hempty (List.isEmpty_iff.mpr h), ?_⟩
    simp only [MAX_STR_LEN, MAX_STR_SZ] at *
    omega
  rw [and_iff_right hname]
  split_ifs with hany
  · exact iff_of_false (by simp) fun h => h hany
  · exact iff_of_true rfl hany

theorem map_name (l : List Table) : l.map Table.name = (l.map entry).map Prod.fst := by
  rw [List.map_map]
  rfl

theorem mem_set_iff {l : List Table} {i : ℕ} {t t' t₁ : Table} (hl : (l.map Table.name).Nodup)
    (hi : l[i]? = some t) : t₁ ∈ l.set i t' ↔ t₁ = t' ∨ t₁ ∈ l ∧ t₁.name ≠ t.name := by
  have hlt : i < l.length := (List.getElem?_eq_some_iff.mp hi).1
  rw [List.mem_iff_getElem?]
  constructor
  · rintro ⟨j, hj⟩
    rw [List.getElem?_set] at hj
    split_ifs at hj with hij
    · exact .inl (Option.some.inj hj).symm
    · refine .inr ⟨List.mem_of_getElem? hj, fun heq => hij ?_⟩
      apply (List.getElem?_inj (by rwa [List.length_map]) hl).mp
      rw [List.getElem?_map, List.getElem?_map, hi, hj, Option.map_some, Option.map_some, heq]
  · rintro (rfl | ⟨ht₁, hne⟩)
    · exact ⟨i, List.getElem?_set_self hlt⟩
    · obtain ⟨j, hj⟩ := List.mem_iff_getElem?.mp ht₁
      refine ⟨j, (List.getElem?_set_ne ?_).trans hj⟩
      rintro rfl
      rw [hi, Option.some.injEq] at hj
      exact hne (congrArg Table.name hj.symm)

theorem map_name_set {l : List Table} {i : ℕ} {t t' : Table} (hi : l[i]? = some t) (hname : t'.name = t.name) :
    (l.set i t').map Table.name = l.map Table.name := by
  obtain ⟨hlt, rfl⟩ := List.getElem?_eq_some_iff.mp hi
  rw [List.map_set, hname, ← List.getElem_map Table.name (h := by rwa [List.length_map]), List.set_getElem_self]

theorem mem_eraseIdx_iff {l : List Table} {i : ℕ} {t t₁ : Table} (hl : (l.map Table.name).Nodup)
    (hi : l[i]? = some t) : t₁ ∈ l.eraseIdx i ↔ t₁ ∈ l ∧ t₁.name ≠ t.name := by
  rw [List.mem_eraseIdx_iff_getElem?]
  constructor
  · rintro ⟨j, hne, hj⟩
    refine ⟨List.mem_of_getElem? hj, fun heq => hne ?_⟩
    have hlt : j < l.length := (List.getElem?_eq_some_iff.mp hj).1
    apply (List.getElem?_inj (by rwa [List.length_map]) hl).mp
    rw [List.getElem?_map, List.getElem?_map, hi, hj, Option.map_some, Option.map_some, heq]
  · rintro ⟨ht₁, hne⟩
    obtain ⟨j, hj⟩ := List.mem_iff_getElem?.mp ht₁
    refine ⟨j, ?_, hj⟩
    rintro rfl
    rw [hi, Option.some.injEq] at hj
    exact hne (congrArg Table.name hj.symm)

theorem createTable_of_error {tableName : List Byte} {types : Tuple} {x : Exn}
    (h : nameError e.tables tableName = some x) :
    createTable C.toCacheOps tableName types e = .throw x e := by
  rw [createTable, bind_apply, seq, checkName_eq, h]
  rfl

theorem createTable_of_throw {tableName : List Byte} {types : Tuple} {x : Exn} {s' : σ}
    (h : nameError e.tables tableName = none)
    (hs : create C.toCacheOps tableName types e.pager = .throw x s') :
    createTable C.toCacheOps tableName types e = .throw x { e with pager := s' } := by
  have hcheck := checkName_eq tableName e
  rw [h] at hcheck
  have hon : onPager (create C.toCacheOps tableName types) e = .throw x { e with pager := s' } := zoom_throw hs
  rw [createTable, bind_ok hcheck, bind_apply, seq, hon]

theorem createTable_of_ok {tableName : List Byte} {types : Tuple} {s₁ : σ} {t : Table}
    (h : nameError e.tables tableName = none) (hs : create C.toCacheOps tableName types e.pager = .ok t s₁)
    (ok₁ : C.Ok s₁) (hinv₁ : Inv (C.mem s₁) N) (hp : SchemaAt (C.mem s₁) e.schemaPageID p)
    (hperm : p.tables.Perm (e.tables.map entry)) (hlen : e.tables.length < 31) (hname : t.name = tableName) :
    ∃ s', createTable C.toCacheOps tableName types e =
        .ok () { e with pager := s', tables := e.tables ++ [t] } ∧ C.Ok s' ∧
      C.mem s' = (C.mem s₁).set e.schemaPageID (.schema { p with tables := p.tables ++ [entry t] }) := by
  have hcheck := checkName_eq tableName e
  rw [h] at hcheck
  obtain ⟨hnameOk, hnew⟩ := nameError_eq_none.mp h
  have hon : onPager (create C.toCacheOps tableName types) e = .ok t { e with pager := s₁ } := zoom_ok hs
  have hfst : t.name ∉ p.tables.map Prod.fst := by
    rw [(hperm.map Prod.fst).mem_iff, ← map_name, hname]
    exact hnew
  have hadd : SchemaPage.addTable t.name t.tablePageID p =
      .ok () { p with tables := p.tables ++ [(t.name, t.tablePageID)] } :=
    SchemaPage.addTable_eq (hname ▸ hnameOk) hfst (by rw [hperm.length_eq, List.length_map]; exact hlen)
  have hwp := wp_onSchemaPage (e := { e with pager := s₁, tables := e.tables ++ [t] }) (A := fun _ => False)
    (R := fun _ _ => False) (Q := fun _ e' => ∃ s', e' = { e with pager := s', tables := e.tables ++ [t] } ∧ C.Ok s' ∧
      C.mem s' = (C.mem s₁).set e.schemaPageID (.schema { p with tables := p.tables ++ [entry t] }))
    ok₁ hinv₁ hp ((wp_of_ok hadd).mpr ⟨rfl, fun s' ok' hm' => ⟨s', rfl, ok', hm'⟩⟩)
  obtain ⟨u, e', hrun, s', rfl, ok', hm'⟩ := ok_of_wp hwp
  refine ⟨s', ?_, ok', hm'⟩
  rw [createTable, bind_ok hcheck, bind_ok hon, bind_ok (show change _ _ = _ from rfl)]
  exact hrun

/-- Once the table is there nothing throws any more. -/
theorem createTable_ne_throw {tableName : List Byte} {types : Tuple} {s₁ : σ} {t : Table}
    (h : nameError e.tables tableName = none) (hs : create C.toCacheOps tableName types e.pager = .ok t s₁)
    (ok₁ : C.Ok s₁) (hinv₁ : Inv (C.mem s₁) N) (hp : SchemaAt (C.mem s₁) e.schemaPageID p)
    (hperm : p.tables.Perm (e.tables.map entry)) (hname : t.name = tableName) (x : Exn) (e' : StorageEngine σ) :
    createTable C.toCacheOps tableName types e ≠ .throw x e' := by
  intro hthrow
  have hcheck := checkName_eq tableName e
  rw [h] at hcheck
  have hon : onPager (create C.toCacheOps tableName types) e = .ok t { e with pager := s₁ } := zoom_ok hs
  have hfst : t.name ∉ p.tables.map Prod.fst := by
    rw [(hperm.map Prod.fst).mem_iff, ← map_name, hname]
    exact (nameError_eq_none.mp h).2
  have hwp : (createTable C.toCacheOps tableName types).wp e (fun _ _ => True) (fun _ _ => False) fun _ => True := by
    rw [createTable, wp_bind, wp_of_ok hcheck, wp_bind, wp_of_ok hon, wp_bind, wp_change]
    exact wp_onSchemaPage ok₁ hinv₁ hp (wp_addTable hfst (fun _ => ⟨rfl, fun _ _ _ => trivial⟩) trivial)
  exact (wp_of_throw hthrow).mp hwp

theorem dropTable_of_mem {tableName : List Byte} (ok : C.Ok e.pager) (hinv : Inv (C.mem e.pager) N)
    (hp : SchemaAt (C.mem e.pager) e.schemaPageID p) (hperm : p.tables.Perm (e.tables.map entry))
    (hnameOk : SchemaPage.NameOk tableName) (hmem : tableName ∈ e.tables.map Table.name) :
    ∃ i t s', e.tables[i]? = some t ∧ t.name = tableName ∧ dropTable C.toCacheOps tableName e =
        .ok () { e with pager := s', tables := e.tables.eraseIdx i } ∧ C.Ok s' ∧
      C.mem s' = (C.mem e.pager).set e.schemaPageID
        (.schema { p with tables := p.tables.filter fun x => x.1 ≠ tableName }) := by
  cases hidx : lastIndex tableName e.tables with
  | none => exact absurd hmem (lastIndex_eq_none.mp hidx)
  | some i =>
    obtain ⟨t, ht, hname⟩ := name_of_lastIndex hidx
    have hfst : tableName ∈ p.tables.map Prod.fst := by
      rwa [(hperm.map Prod.fst).mem_iff, ← map_name]
    have hwp := wp_onSchemaPage (A := fun _ => False) (R := fun _ _ => False) (Q := fun _ e' => ∃ s',
        e' = { e with pager := s' } ∧ C.Ok s' ∧ C.mem s' = (C.mem e.pager).set e.schemaPageID
          (.schema { p with tables := p.tables.filter fun x => x.1 ≠ tableName }))
      ok hinv hp ((wp_of_ok (SchemaPage.removeTable_eq hnameOk hfst)).mpr
        ⟨rfl, fun s' ok' hm' => ⟨s', rfl, ok', hm'⟩⟩)
    obtain ⟨u, e', hrun, s', rfl, ok', hm'⟩ := ok_of_wp hwp
    refine ⟨i, t, s', ht, hname, ?_, ok', hm'⟩
    rw [dropTable, bind_ok (show gets StorageEngine.tables e = _ from rfl), hidx]
    exact bind_ok hrun

theorem dropTable_of_not_mem {tableName : List Byte} (hmem : tableName ∉ e.tables.map Table.name) :
    dropTable C.toCacheOps tableName e = .throw nameUnknown e := by
  rw [dropTable, bind_ok (show gets StorageEngine.tables e = _ from rfl), lastIndex_eq_none.mpr hmem]
  rfl

theorem onTable_of_not_mem {tableName : List Byte} (h : tableName ∉ e.tables.map Table.name) (q : TableM σ α) :
    onTable tableName q e = .ok none e := by
  have hidx : (e.tables.findIdx? fun t => t.name == tableName) = none := by
    rw [List.findIdx?_eq_none_iff]
    intro t ht
    rw [beq_eq_false_iff_ne]
    rintro rfl
    exact h (List.mem_map_of_mem ht)
  rw [onTable, bind_ok (show gets StorageEngine.tables e = _ from rfl), hidx]
  rfl

theorem onTable_of_mem {tableName : List Byte} (h : tableName ∈ e.tables.map Table.name) (q : TableM σ α) :
    ∃ i t, e.tables[i]? = some t ∧ t.name = tableName ∧ onTable tableName q e =
      match q ⟨e.pager, t⟩ with
      | .ok a st => .ok (some a) { e with pager := st.pager, tables := e.tables.set i st.table }
      | .throw x st => .throw x { e with pager := st.pager, tables := e.tables.set i st.table }
      | .abort m => .abort m
      | .timeout => .timeout := by
  cases hidx : e.tables.findIdx? fun t => t.name == tableName with
  | none =>
    obtain ⟨t, ht, hname⟩ := List.mem_map.mp h
    have hne := List.findIdx?_eq_none_iff.mp hidx t ht
    exact absurd hname (beq_eq_false_iff_ne.mp hne)
  | some i =>
    obtain ⟨hi, hname, -⟩ := List.findIdx?_eq_some_iff_getElem.mp hidx
    have hget : e.tables[i]? = some e.tables[i] := List.getElem?_eq_getElem hi
    have hat : at? e.tables i e = (.ok e.tables[i] e : Outcome Exn _ _) := by
      rw [at?, hget]
    refine ⟨i, e.tables[i], hget, beq_iff_eq.mp hname, ?_⟩
    rw [onTable, bind_ok (show gets StorageEngine.tables e = _ from rfl), hidx]
    change (at? e.tables i >>= fun table => _) e = _
    rw [bind_ok hat, bind_apply, seq, zoom]
    cases q ⟨e.pager, e.tables[i]⟩ <;> rfl

end Kndb.StorageEngine
