import Kndb.Btree.Pages
import Kndb.StorageEngine.Separation
import Kndb.Table.Run

namespace Kndb.StorageEngine

open Imp Imp.Prog Btree LawfulCache Pager Table

variable {σ : Type} {C : LawfulCache σ} {e : StorageEngine σ} {K : Catalog} {t : Table} {name : List Byte}
variable {types : Tuple} {fuel : ℕ} {op : EngineOp}

/-- The call needs more pages than there are: two for a table, and for a row those of the splits. -/
def EngineOp.Lacks (m : Mem) (tables : List Table) (K : Catalog) : EngineOp → Prop
  | createTable name _ => K.nameError name = none ∧ remaining m < 2
  | insertTuple name values => ∃ c, K name = some c ∧ tupleError c.types values = none ∧
    c.rows (values.headD (.int 0)).rank = none ∧
    ∃ t ∈ tables, t.name = name ∧ ¬PagesSuffice m t.rootPageID (.insert values)
  | _ => False

/-- A call answers as the catalog does, unless it lacks pages. -/
def StepOk (C : LawfulCache σ) (e : StorageEngine σ) (K : Catalog) (op : EngineOp) (fuel : ℕ) : Prop :=
  ∃ r e', op.run C.toCacheOps fuel e = .answer r e' ∧
    (r = .error sizeLimit ∧ op.Lacks (C.mem e.pager) e.tables K ∨ op.Answers K r ∧
      (∀ name, (op.onCatalog K name).isSome ↔ name ∈ e'.tables.map Table.name) ∧
      ∃ L, Holds (C.mem e'.pager) e'.tables (op.onCatalog K) L)

theorem EngineOk.same (h : EngineOk C e K) {e' : StorageEngine σ} (hm : C.mem e'.pager = C.mem e.pager)
    (htables : e'.tables = e.tables) : (∀ name, (K name).isSome ↔ name ∈ e'.tables.map Table.name) ∧
      ∃ L, Holds (C.mem e'.pager) e'.tables K L := by
  rw [hm, htables]
  exact ⟨h.catalog, h.holds⟩

theorem EngineOk.nameError_eq (h : EngineOk C e K) (name : List Byte) :
    K.nameError name = nameError e.tables name := by
  have hany : (K name).isSome = e.tables.any fun t => t.name == name := by
    rw [Bool.eq_iff_iff, h.catalog]
    simp
  rw [Catalog.nameError, nameError, hany]

theorem EngineOk.ncard_eq (h : EngineOk C e K) : {name | (K name).isSome}.ncard = e.tables.length := by
  have hset : {name | (K name).isSome} = ((e.tables.map Table.name).toFinset : Set (List Byte)) := by
    ext name
    rw [List.coe_toFinset]
    exact h.catalog name
  rw [hset, Set.ncard_coe_finset, List.toFinset_card_of_nodup h.names, List.length_map]

theorem EngineOk.createTable (h : EngineOk C e K) (hadm : (EngineOp.createTable name types).Admissible K)
    (fuel : ℕ) : StepOk C e K (.createTable name types) fuel := by
  obtain ⟨hacc, hdeg, hlen⟩ := hadm
  obtain ⟨N, hinv⟩ := h.inv
  obtain ⟨p, hp, hperm⟩ := h.schema
  rw [h.nameError_eq, h.ncard_eq] at hlen
  cases herr : nameError e.tables name with
  | some x =>
    have hrun : EngineOp.run C.toCacheOps fuel (.createTable name types) e = .throw x e := by
      rw [EngineOp.run, bind_apply, seq, createTable_of_error herr]
    refine ⟨.error x, e, hrun, .inr ⟨?_, ?_⟩⟩
    · rw [EngineOp.Answers, h.nameError_eq, herr]
    · rw [EngineOp.onCatalog, h.nameError_eq, herr, if_neg (Option.some_ne_none x)]
      exact h.same rfl rfl
  | none =>
    -- out of pages, the engine keeps the pages it took but has no table of the name
    have hthrow : ∀ s', create C.toCacheOps name types e.pager = .throw sizeLimit s' →
        remaining (C.mem e.pager) < 2 → StepOk C e K (.createTable name types) fuel := by
      intro s' hs' hlt
      refine ⟨.error sizeLimit, { e with pager := s' }, ?_, .inl ⟨rfl, (h.nameError_eq name).trans herr, hlt⟩⟩
      rw [EngineOp.run, bind_apply, seq, createTable_of_throw herr hs']
      rfl
    rcases create_cases name h.ok hinv hacc with ⟨h0, s', hs', -⟩ | ⟨h1, -, s', hs', -⟩ |
      ⟨-, t, s₁, hs₁, ok₁, rfl, -, hcreated⟩
    · exact hthrow s' hs' (by omega)
    · exact hthrow s' hs' (by omega)
    -- the new table takes pages that no other table has, and stands for no rows
    obtain ⟨S, hn, -⟩ := h.rooted
    obtain ⟨N₁, hinv₁⟩ := hcreated.inv
    obtain ⟨L, hholds⟩ := h.holds
    have hp₁ := hp.kept (kept_of_created hcreated hn)
    have hnew := (nameError_eq_none.mp herr).2
    obtain ⟨s₂, hrun, ok₂, hm₂⟩ := createTable_of_ok herr hs₁ ok₁ hinv₁ hp₁ hperm (hlen herr) rfl
    refine ⟨.ok .done, _, bind_ok hrun, .inr ⟨?_, fun name => ?_, Function.update L t.name (.single t.rootPageID), ?_⟩⟩
    · rw [EngineOp.Answers, h.nameError_eq, herr]
    · rw [EngineOp.onCatalog, h.nameError_eq, if_pos herr, List.map_append, List.mem_append]
      by_cases hname : name = t.name
      · subst hname
        simp
      · rw [Function.update_of_ne hname, h.catalog]
        simp [hname]
    · rw [EngineOp.onCatalog, h.nameError_eq, if_pos herr]
      change Holds (C.mem s₂) _ _ _
      rw [hm₂]
      exact (hholds.create hcreated hacc.1 hdeg hnew).setSchema hinv₁ hp₁

theorem EngineOk.dropTable (h : EngineOk C e K) (name : List Byte) (fuel : ℕ) :
    StepOk C e K (.dropTable name) fuel := by
  obtain ⟨N, hinv⟩ := h.inv
  obtain ⟨p, hp, hperm⟩ := h.schema
  by_cases hmem : name ∈ e.tables.map Table.name
  · obtain ⟨t', ht', hname'⟩ := List.mem_map.mp hmem
    obtain ⟨i, t, s', ht, rfl, hrun, ok', hm'⟩ :=
      dropTable_of_mem h.ok hinv hp hperm (hname' ▸ h.nameOk t' ht') hmem
    obtain ⟨L, hholds⟩ := h.holds
    refine ⟨.ok .done, _, bind_ok hrun, .inr ⟨?_, fun name => ?_, L, ?_⟩⟩
    · rw [EngineOp.Answers, if_pos ((h.catalog _).mpr hmem)]
    · rw [EngineOp.onCatalog, List.mem_map]
      by_cases hname : name = t.name
      · subst hname
        rw [Function.update_self]
        refine iff_of_false (by simp) ?_
        rintro ⟨t₁, ht₁, heq⟩
        exact ((mem_eraseIdx_iff h.names ht).mp ht₁).2 heq
      · rw [Function.update_of_ne hname, h.catalog, List.mem_map]
        refine exists_congr fun t₁ => and_congr_left fun heq => ?_
        rw [mem_eraseIdx_iff h.names ht, and_iff_left (heq ▸ hname)]
    · change Holds (C.mem s') _ _ _
      rw [hm']
      exact (hholds.drop h.names ht).setSchema hinv hp
  · have hnone : K name = none := by
      rwa [← Option.not_isSome_iff_eq_none, h.catalog]
    have hrun : EngineOp.run C.toCacheOps fuel (.dropTable name) e = .throw nameUnknown e := by
      rw [EngineOp.run, bind_apply, seq, dropTable_of_not_mem hmem]
    refine ⟨.error nameUnknown, e, hrun, .inr ⟨?_, ?_⟩⟩
    · rw [EngineOp.Answers, hnone]
      rfl
    · have hsame : (EngineOp.dropTable name).onCatalog K = K := by
        rw [EngineOp.onCatalog, ← hnone]
        exact Function.update_eq_self ..
      rw [hsame]
      exact h.same rfl rfl

theorem EngineOk.getTableNames_eq (h : EngineOk C e K) (fuel : ℕ) : ∃ (p : SchemaPage) (s' : σ),
    p.tables.Perm (e.tables.map entry) ∧
    EngineOp.getTableNames.run C.toCacheOps fuel e = .ok (.names (p.tables.map Prod.fst)) { e with pager := s' } ∧
      C.mem s' = C.mem e.pager := by
  obtain ⟨N, hinv⟩ := h.inv
  obtain ⟨p, hp, hperm⟩ := h.schema
  have hwp := wp_onSchemaPage (A := fun _ => False) (R := fun _ _ => False) (Q := fun l e' => l = p.tables ∧
      ∃ s', e' = { e with pager := s' } ∧ C.mem s' = C.mem e.pager) h.ok hinv hp
    ((wp_gets SchemaPage.tables).mpr ⟨rfl, fun s' _ hm' => ⟨rfl, s', rfl, hm'.trans (Mem.set_eq_self hp.2)⟩⟩)
  obtain ⟨l, e', hrun, rfl, s', rfl, hm'⟩ := ok_of_wp hwp
  exact ⟨p, s', hperm, bind_ok (bind_ok hrun), hm'⟩

theorem EngineOk.getTableNames (h : EngineOk C e K) (fuel : ℕ) : StepOk C e K .getTableNames fuel := by
  obtain ⟨p, s', hperm, hrun, hm'⟩ := h.getTableNames_eq fuel
  have hnames : (p.tables.map Prod.fst).Perm (e.tables.map Table.name) := by
    rw [map_name]
    exact hperm.map _
  refine ⟨.ok (.names (p.tables.map Prod.fst)), _, hrun, .inr ⟨⟨_, rfl, ?_, fun name => ?_⟩, ?_⟩⟩
  · exact hnames.nodup_iff.mpr h.names
  · rw [hnames.mem_iff, h.catalog]
  · exact h.same hm' rfl

theorem EngineOk.query_page {β : Type} (h : EngineOk C e K) (f : TablePage → β) {p : TablePage}
    (hp : TableAt (C.mem e.pager) t.tablePageID p) : ∃ s', C.Ok s' ∧ C.mem s' = C.mem e.pager ∧
      (do return f (← tablePage C.toCacheOps) : TableM σ β) ⟨e.pager, t⟩ = .answer (.ok (f p)) ⟨s', t⟩ := by
  obtain ⟨N, hinv⟩ := h.inv
  obtain ⟨s', ok', hm', hs'⟩ := tablePage_eq ⟨e.pager, t⟩ h.ok hinv hp
  exact ⟨s', ok', hm', bind_ok hs'⟩

/-- Since rows are never removed, a removal only looks at the key. -/
theorem EngineOk.query_key (h : EngineOk C e K) {p : TablePage} (hp : TableAt (C.mem e.pager) t.tablePageID p)
    (hne : p.types ≠ []) (key : Vari) : ∃ s', C.Ok s' ∧ C.mem s' = C.mem e.pager ∧
      deleteTuple C.toCacheOps key ⟨e.pager, t⟩ = .answer ((keyError p.types key).elim (.ok false) .error) ⟨s', t⟩ := by
  obtain ⟨N, hinv⟩ := h.inv
  obtain ⟨s', ok', hm', hs'⟩ := checkKey_eq ⟨e.pager, t⟩ h.ok hinv hp hne key
  refine ⟨s', ok', hm', ?_⟩
  rw [deleteTuple, bind_apply, seq, hs']
  cases keyError p.types key <;> rfl

theorem EngineOk.table (h : EngineOk C e K) {i : ℕ} (ht : e.tables[i]? = some t) : ∃ c L, K t.name = some c ∧
    2 ≤ tableDegree c.types ∧ TableOk (C.mem e.pager) t c.types (L t.name) c.rows ∧
    Holds (C.mem e.pager) e.tables K L := by
  obtain ⟨L, hholds⟩ := h.holds
  obtain ⟨c, hc, hdeg, ok⟩ := hholds.table t (List.mem_of_getElem? ht)
  exact ⟨c, L, hc, hdeg, ok, hholds⟩

theorem EngineOk.query {β : Type} (h : EngineOk C e K) (name : List Byte) {q : TableM σ β}
    {g : Option β → EngineReply} {f : Content → Except Exn β}
    (hop : op.run C.toCacheOps fuel = do return g (← onTable name q))
    (hq : ∀ t c, TableAt (C.mem e.pager) t.tablePageID (pageOf t c.types c.rows) → c.types ≠ [] → ∃ s',
      C.Ok s' ∧ C.mem s' = C.mem e.pager ∧ q ⟨e.pager, t⟩ = .answer (f c) ⟨s', t⟩)
    (hsame : op.onCatalog K = K) (hans : ∀ r, op.Answers K r ↔ r = match K name with
      | none => .ok (g none)
      | some c => (f c).map fun b => g (some b)) : StepOk C e K op fuel := by
  rw [StepOk, hop, hsame]
  by_cases hmem : name ∈ e.tables.map Table.name
  · obtain ⟨i, t, ht, rfl, hrun⟩ := onTable_of_mem hmem q
    obtain ⟨c, L, hc, -, ok, -⟩ := h.table ht
    obtain ⟨s', ok', hm', hs'⟩ := hq t c ok.page ok.types_ne
    have htables : e.tables.set i t = e.tables := by
      obtain ⟨hi, rfl⟩ := List.getElem?_eq_some_iff.mp ht
      exact List.set_getElem_self hi
    rw [hs'] at hrun
    refine ⟨(f c).map fun b => g (some b), { e with pager := s', tables := e.tables.set i t }, ?_, .inr ⟨?_, ?_⟩⟩
    · cases hf : f c with
      | error x =>
        rw [hf] at hrun
        rw [bind_apply, seq, hrun]
        rfl
      | ok b =>
        rw [hf] at hrun
        rw [bind_apply, seq, hrun]
        rfl
    · rw [hans, hc]
    · exact h.same hm' htables
  · have hnone : K name = none := by
      rwa [← Option.not_isSome_iff_eq_none, h.catalog]
    refine ⟨.ok (g none), e, bind_ok (onTable_of_not_mem hmem q), .inr ⟨?_, h.same rfl rfl⟩⟩
    rw [hans, hnone]

theorem EngineOk.rows {β : Type} (h : EngineOk C e K) (name : List Byte) (op' : TupleOp) {q : TableM σ β}
    {g : Option β → EngineReply} {f : β → Reply Tuple} (hop : op.run C.toCacheOps fuel = do return g (← onTable name q))
    (hq : op'.run C.toCacheOps fuel = do return f (← q)) (hf : ∀ b, ofReply (.ok (f b)) = .ok (g (some b)))
    (hkey : op'.key.isNaN = false)
    (hended : ∀ t ∈ e.tables, t.name = name → op'.run C.toCacheOps fuel ⟨e.pager, t⟩ ≠ .timeout)
    (hlacks : ∀ c, K name = some c → op'.error c.types = none → c.rows op'.key.rank = none →
      ∀ t ∈ e.tables, t.name = name → ¬PagesSuffice (C.mem e.pager) t.rootPageID op' →
        op.Lacks (C.mem e.pager) e.tables K)
    (hcat : op.onCatalog K = (K.onTable name op' (g none)).2)
    (hans : ∀ r, op.Answers K r ↔ r = (K.onTable name op' (g none)).1) : StepOk C e K op fuel := by
  rw [StepOk, hop, hcat]
  by_cases hmem : name ∈ e.tables.map Table.name
  · obtain ⟨i, t, ht, rfl, hrun⟩ := onTable_of_mem hmem q
    obtain ⟨c, L, hc, hdeg, ok, hholds⟩ := h.table ht
    obtain ⟨N, hinv⟩ := h.inv
    have hne := hended t (List.mem_of_getElem? ht) rfl
    have hcat' : K.onTable t.name op' (g none) = (ofReply (op'.onRows c.types c.rows).1,
        Function.update K t.name (some { c with rows := (op'.onRows c.types c.rows).2 })) := by
      rw [Catalog.onTable, hc]
    have ok₀ : C.Ok (⟨e.pager, t⟩ : TableState σ).pager := h.ok
    -- the call ran on the tree of the table, or ran out of pages
    rcases ok.run_of_ended ok₀ hinv (effectiveDegree_tableDegree_ge hdeg) hkey hne with
      ⟨st', L', hs', ok', hadv, -⟩ | ⟨⟨herr, hpages, hnone⟩, st', hs'⟩
    · rw [hq] at hs'
      have hname : st'.table.name = t.name := by rw [hadv.table_eq]
      have hrun' : (do return g (← onTable t.name q)) e = .answer (ofReply (op'.onRows c.types c.rows).1)
          { e with pager := st'.pager, tables := e.tables.set i st'.table } := by
        cases hx : (op'.onRows c.types c.rows).1 with
        | error x =>
          rw [hx] at hs'
          rw [throw_of_map hs'] at hrun
          rw [bind_apply, seq, hrun]
          rfl
        | ok reply =>
          rw [hx] at hs'
          obtain ⟨b, hb, rfl⟩ := ok_of_map hs'
          rw [hb] at hrun
          rw [bind_ok hrun, hf]
          rfl
      refine ⟨_, _, hrun', .inr ⟨?_, fun name => ?_, ?_⟩⟩
      · rw [hans, hcat']
      · rw [hcat', map_name_set ht hname]
        dsimp only
        by_cases heq : name = t.name
        · subst heq
          rw [Function.update_self]
          exact iff_of_true rfl hmem
        · rw [Function.update_of_ne heq, h.catalog]
      · rw [hcat']
        exact ⟨_, hholds.advance h.names ht hc hadv⟩
    · rw [hq] at hs'
      rw [throw_of_map hs'] at hrun
      refine ⟨.error sizeLimit, { e with pager := st'.pager, tables := e.tables.set i st'.table }, ?_,
        .inl ⟨rfl, hlacks c hc herr hnone t (List.mem_of_getElem? ht) rfl hpages⟩⟩
      rw [bind_apply, seq, hrun]
      rfl
  · have hnone : K name = none := by
      rwa [← Option.not_isSome_iff_eq_none, h.catalog]
    have hcat' : K.onTable name op' (g none) = (.ok (g none), K) := by
      rw [Catalog.onTable, hnone]
    refine ⟨.ok (g none), e, bind_ok (onTable_of_not_mem hmem q), .inr ⟨?_, ?_⟩⟩
    · rw [hans, hcat']
    · rw [hcat']
      exact h.same rfl rfl

theorem EngineOk.ended {β : Type} (h : EngineOk C e K) {name : List Byte} {q : TableM σ β}
    {g : Option β → EngineReply} {f : β → Reply Tuple} {op' : TupleOp}
    (hop : op.run C.toCacheOps fuel = do return g (← onTable name q))
    (hq : op'.run C.toCacheOps fuel = do return f (← q)) (hne : op.run C.toCacheOps fuel e ≠ .timeout) :
    ∀ t ∈ e.tables, t.name = name → op'.run C.toCacheOps fuel ⟨e.pager, t⟩ ≠ .timeout := by
  rintro t ht rfl htimeout
  apply hne
  obtain ⟨i, t', ht', hname', hrun⟩ := onTable_of_mem (List.mem_map_of_mem ht) q
  obtain rfl : t' = t := List.inj_on_of_nodup_map h.names (List.mem_of_getElem? ht') ht hname'
  rw [hq] at htimeout
  rw [timeout_of_map htimeout] at hrun
  rw [hop, bind_apply, seq, hrun]

def EngineOp.tupleOp : EngineOp → Option (List Byte × TupleOp)
  | .insertTuple name values => some (name, .insert values)
  | .updateTuple name values => some (name, .update values)
  | .getTuple name key => some (name, .read key)
  | _ => none

theorem Catalog.onTable_read (K : Catalog) (name : List Byte) (key : Vari) (missing : EngineReply) :
    (K.onTable name (.read key) missing).2 = K := by
  rw [Catalog.onTable]
  cases hc : K name with
  | none => rfl
  | some c =>
    have hrows : (TupleOp.onRows c.types (.read key) c.rows).2 = c.rows := by
      rw [TupleOp.onRows]
      cases TupleOp.error c.types (.read key) <;> rfl
    dsimp only
    rw [hrows, ← hc]
    exact Function.update_eq_self ..

/-- Every call answers as the catalog does, if the calls on rows have the fuel to end. -/
theorem EngineOk.step (h : EngineOk C e K) (hadm : op.Admissible K)
    (hended : ∀ x, op.tupleOp = some x → ∀ t ∈ e.tables, t.name = x.1 →
      x.2.run C.toCacheOps fuel ⟨e.pager, t⟩ ≠ .timeout) : StepOk C e K op fuel := by
  cases op with
  | createTable name types => exact h.createTable hadm fuel
  | dropTable name => exact h.dropTable name fuel
  | getTableNames => exact h.getTableNames fuel
  | getTableTypes name =>
    refine h.query name (q := getTypes C.toCacheOps) (g := .types) (f := fun c => .ok c.types) rfl
      (fun t c hp _ => h.query_page TablePage.types hp) rfl fun r => ?_
    rw [EngineOp.Answers]
    cases K name <;> rfl
  | getNumTuples name =>
    refine h.query name (q := Table.getNumTuples C.toCacheOps) (g := .count) (f := fun c => .ok (keys c.rows).ncard) rfl
      (fun t c hp _ => h.query_page TablePage.numTuples hp) rfl fun r => ?_
    rw [EngineOp.Answers]
    cases K name <;> rfl
  | insertTuple name values =>
    exact h.rows name (.insert values) (g := fun o => .changed (o.getD false)) (f := .changed) (map_map _ _) rfl
      (fun _ => rfl) hadm (hended _ rfl)
      (fun c hc herr hnone t ht hname hpages => ⟨c, hc, herr, hnone, t, ht, hname, hpages⟩) rfl fun _ => Iff.rfl
  | updateTuple name values =>
    exact h.rows name (.update values) (g := fun o => .changed (o.getD false)) (f := .changed) (map_map _ _) rfl
      (fun _ => rfl) hadm (hended _ rfl)
      (fun _ _ _ _ _ _ _ hpages => absurd (pagesSuffice_of_ne fun _ => by simp) hpages) rfl fun _ => Iff.rfl
  | removeTuple name key =>
    refine h.query name (q := deleteTuple C.toCacheOps key) (g := fun o => .changed (o.getD false))
      (f := fun c => (keyError c.types key).elim (.ok false) .error) (map_map _ _)
      (fun t c hp hne => h.query_key hp hne key) rfl fun r => ?_
    rw [EngineOp.Answers]
    cases K name with
    | none => rfl
    | some c =>
      dsimp only [Option.bind]
      cases keyError c.types key <;> rfl
  | getTuple name key =>
    exact h.rows name (.read key) (g := fun o => .row o.join) (f := .found) (map_map _ _) rfl
      (fun _ => rfl) hadm (hended _ rfl)
      (fun _ _ _ _ _ _ _ hpages => absurd (pagesSuffice_of_ne fun _ => by simp) hpages)
      (Catalog.onTable_read ..).symm fun _ => Iff.rfl

theorem EngineOk.step_of_ended (h : EngineOk C e K) (hadm : op.Admissible K)
    (hne : op.run C.toCacheOps fuel e ≠ .timeout) : StepOk C e K op fuel := by
  refine h.step hadm fun x hx => ?_
  cases op with
  | insertTuple name values =>
    cases hx
    exact h.ended (g := fun o => .changed (o.getD false)) (map_map _ _) rfl hne
  | updateTuple name values =>
    cases hx
    exact h.ended (g := fun o => .changed (o.getD false)) (map_map _ _) rfl hne
  | getTuple name key =>
    cases hx
    exact h.ended (g := fun o => .row o.join) (map_map _ _) rfl hne
  | _ => cases hx

theorem EngineOk.throws_of_lacks (h : EngineOk C e K) (hadm : op.Admissible K)
    (hlacks : op.Lacks (C.mem e.pager) e.tables K) (hne : op.run C.toCacheOps fuel e ≠ .timeout) :
    ∃ e', op.run C.toCacheOps fuel e = .throw sizeLimit e' := by
  obtain ⟨N, hinv⟩ := h.inv
  cases op with
  | createTable name types =>
    obtain ⟨herr, hlt⟩ := hlacks
    rw [h.nameError_eq] at herr
    have hthrow : ∃ s', create C.toCacheOps name types e.pager = .throw sizeLimit s' := by
      rcases create_cases name h.ok hinv hadm.1 with ⟨-, s', hs', -⟩ | ⟨-, -, s', hs', -⟩ | ⟨hle, -⟩
      · exact ⟨s', hs'⟩
      · exact ⟨s', hs'⟩
      · omega
    obtain ⟨s', hs'⟩ := hthrow
    refine ⟨{ e with pager := s' }, ?_⟩
    rw [EngineOp.run, bind_apply, seq, createTable_of_throw herr hs']
  | insertTuple name values =>
    obtain ⟨c, hc, herr, -, t, ht, rfl, hpages⟩ := hlacks
    obtain ⟨L, hholds⟩ := h.holds
    obtain ⟨c', hc', hdeg, ok⟩ := hholds.table t ht
    obtain rfl := Option.some.inj (hc.symm.trans hc')
    obtain ⟨i, t', ht', hname, hrun⟩ := onTable_of_mem (List.mem_map_of_mem ht)
      (Table.insertTuple C.toCacheOps fuel values)
    obtain rfl : t' = t := List.inj_on_of_nodup_map h.names (List.mem_of_getElem? ht') ht hname
    have hended : (TupleOp.insert values).run C.toCacheOps fuel ⟨e.pager, t'⟩ ≠ .timeout :=
      h.ended (g := fun o => .changed (o.getD false)) (f := .changed) (map_map _ _) rfl hne t' ht rfl
    have ok₀ : C.Ok (⟨e.pager, t'⟩ : TableState σ).pager := h.ok
    have hkey : (TupleOp.insert values).key.isNaN = false := hadm
    have herr' : TupleOp.error c.types (.insert values) = none := herr
    obtain ⟨st', hs'⟩ := ok.throws_of_not_pagesSuffice ok₀ hinv (effectiveDegree_tableDegree_ge hdeg) hkey herr' hpages
      hended
    rw [throw_of_map hs'] at hrun
    refine ⟨{ e with pager := st'.pager, tables := e.tables.set i st'.table }, ?_⟩
    rw [EngineOp.run, bind_apply, seq, StorageEngine.insertTuple, bind_apply, seq, hrun]
  | _ => exact hlacks.elim

/-- A call is refused exactly if it lacks pages, and answers as the catalog does otherwise. -/
theorem EngineOk.answer_cases {r : Except Exn EngineReply} {e' : StorageEngine σ} (h : EngineOk C e K)
    (hadm : op.Admissible K) (hrun : op.run C.toCacheOps fuel e = .answer r e') :
    r = .error sizeLimit ∧ op.Lacks (C.mem e.pager) e.tables K ∨
      ¬op.Lacks (C.mem e.pager) e.tables K ∧ op.Answers K r := by
  have hne : op.run C.toCacheOps fuel e ≠ .timeout := hrun ▸ Outcome.answer_ne_timeout
  obtain ⟨r', e₁, hrun', hstep⟩ := h.step_of_ended hadm hne
  obtain ⟨rfl, -⟩ := Outcome.answer_inj (hrun.symm.trans hrun')
  refine hstep.imp_right fun hans => ⟨fun hlacks => ?_, hans.1⟩
  obtain ⟨e₂, hthrow⟩ := h.throws_of_lacks hadm hlacks hne
  exact hans.1.ne_sizeLimit (Outcome.answer_inj (hrun.symm.trans (show _ = Outcome.answer (.error sizeLimit) e₂ from
    hthrow))).1

theorem EngineOk.sizeLimit_iff {r : Except Exn EngineReply} {e' : StorageEngine σ} (h : EngineOk C e K)
    (hadm : op.Admissible K) (hrun : op.run C.toCacheOps fuel e = .answer r e') :
    r = .error sizeLimit ↔ op.Lacks (C.mem e.pager) e.tables K := by
  rcases h.answer_cases hadm hrun with ⟨heq, hlacks⟩ | ⟨hnot, hans⟩
  · exact iff_of_true heq hlacks
  · exact iff_of_false hans.ne_sizeLimit hnot

/-- The recursive calls that are enough for every tree that fits a file. -/
def maxDepth : ℕ := 16

/-- The pages of a tree double from level to level, and the file has less than 2 ^ 16 of them. -/
theorem height_lt_maxDepth {m : Mem} {N : ℕ} {t : Table} {types : Tuple} {L : Layout} {M : Rank → Option Tuple}
    (h : TableOk m t types L M) (hinv : Inv m N) (hdeg : 2 ≤ tableDegree types) :
    L.height t.rootPageID + 2 ≤ maxDepth := by
  have hu : 2 ≤ effectiveDegree t.degree := by
    rw [h.degree]
    exact effectiveDegree_tableDegree_ge hdeg
  have hpow := h.balanced.linked.two_pow_le_card h.balanced.sized hu
  have hcard : L.pages.card ≤ Pager.capacity := (Finset.card_le_card h.live).trans hinv.card_liveIds_le
  have hlt : 2 ^ (L.height t.rootPageID + 1) < 2 ^ 16 :=
    hpow.trans_lt ((Nat.succ_le_succ hcard).trans_lt (by decide))
  have hexp := (Nat.pow_lt_pow_iff_right Nat.one_lt_two).mp hlt
  rw [maxDepth]
  omega

theorem EngineOk.remaining_le_of_lacks (h : EngineOk C e K) (hlacks : op.Lacks (C.mem e.pager) e.tables K) :
    remaining (C.mem e.pager) ≤ maxDepth := by
  obtain ⟨N, hinv⟩ := h.inv
  cases op with
  | createTable name types =>
    have hlt : remaining (C.mem e.pager) < 2 := hlacks.2
    rw [maxDepth]
    omega
  | insertTuple name values =>
    obtain ⟨c, hc, -, -, t, ht, rfl, hpages⟩ := hlacks
    obtain ⟨L, hholds⟩ := h.holds
    obtain ⟨c', -, hdeg, ok⟩ := hholds.table t ht
    have hu : 2 ≤ effectiveDegree t.degree := by
      rw [ok.degree]
      exact effectiveDegree_tableDegree_ge hdeg
    rw [PagesSuffice] at hpages
    push Not at hpages
    obtain ⟨values', -, f, hlt⟩ := hpages
    have hneeds := hlt.trans_le (ok.balanced.linked.insertNeeds_le hu (values'.headD (.int 0)) f)
    exact (Nat.cast_lt.mp hneeds).le.trans (height_lt_maxDepth ok hinv hdeg)
  | _ => exact hlacks.elim

/-- Every call answers as the catalog does, with a depth of recursion that no call exceeds. -/
theorem EngineOk.step_of_depth (h : EngineOk C e K) (hadm : op.Admissible K) (hfuel : maxDepth ≤ fuel) :
    StepOk C e K op fuel := by
  obtain ⟨N, hinv⟩ := h.inv
  obtain ⟨L, hholds⟩ := h.holds
  refine h.step hadm fun x hx t ht hname => ?_
  have hkey : x.2.key.isNaN = false := by
    cases op with
    | insertTuple name values =>
      cases hx
      exact hadm
    | updateTuple name values =>
      cases hx
      exact hadm
    | getTuple name key =>
      cases hx
      exact hadm
    | _ => cases hx
  obtain ⟨c, hc, hdeg, ok⟩ := hholds.table t ht
  have hle : (L t.name).height t.rootPageID + 2 ≤ fuel := (height_lt_maxDepth ok hinv hdeg).trans hfuel
  have ok₀ : C.Ok (⟨e.pager, t⟩ : TableState σ).pager := h.ok
  rcases ok.run ok₀ hinv (effectiveDegree_tableDegree_ge hdeg) hkey hle with ⟨st', L', hs', -⟩ | ⟨-, st', hs'⟩
  · rw [hs']
    exact Outcome.answer_ne_timeout
  · rw [hs']
    exact nofun

theorem EngineOk.step_of_fuel (h : EngineOk C e K) (hadm : op.Admissible K) :
    ∃ n, ∀ fuel, n ≤ fuel → StepOk C e K op fuel := ⟨maxDepth, fun _ hfuel => h.step_of_depth hadm hfuel⟩

end Kndb.StorageEngine
