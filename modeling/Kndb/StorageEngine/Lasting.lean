import Kndb.PageCache.Reopened
import Kndb.SchemaPage.Run
import Kndb.StorageEngine.Refines
import Kndb.Table.NodeSize
import Kndb.Table.Reread

namespace Kndb

open Imp Imp.Prog Btree LawfulCache Pager FreeSpaceMap

variable {σ : Type} {C : LawfulCache σ} {m m' : Mem} {N x : ℕ} {p : Page}

/-- All live pages last, and there are no others but bitmaps. -/
structure Lasting (m : Mem) : Prop where
  tidy : Tidy m
  live : ∀ x ∈ liveIds m, ∀ p, m.view x = some p → p.Lasts

theorem Tidy.lasts (h : Tidy m) (hinv : Inv m N) (hp : m.view x = some p) (hlt : x < m.blocks)
    (hlive : x ∈ liveIds m → p.Lasts) : p.Lasts := by
  by_cases hmod : x % FSMPage.getBlocksInPage = 0
  · have hfsm : IsFSM N x := ⟨hmod, hinv.blocks ▸ hlt⟩
    obtain ⟨chain, hchain⟩ := hinv.fsm_of_lt hfsm.2
    obtain rfl : p = .fsm (fsmAt m.view x) := Option.some.inj (hp.symm.trans (hchain.page x hfsm))
    exact hchain.sound x hfsm
  · apply hlive
    by_contra hnot
    cases hp.symm.trans (h x hmod hnot)

theorem Lasting.lasts (h : Lasting m) (hinv : Inv m N) (hp : m.view x = some p) (hlt : x < m.blocks) : p.Lasts :=
  Tidy.lasts h.tidy hinv hp hlt fun hlive => h.live x hlive p hp

theorem Lasting.step (h : Lasting m) (ht : Tidy m') (hview : ∀ x ∈ liveIds m', (x ∈ liveIds m ∧ m'.view x = m.view x) ∨
    ∀ p, m'.view x = some p → p.Lasts) : Lasting m' where
  tidy := ht
  live x hx p hp := by
    rcases hview x hx with ⟨hlive, heq⟩ | hlasts
    · exact h.live x hlive p (heq ▸ hp)
    · exact hlasts p hp

theorem Lasting.set (h : Lasting m) (hinv : Inv m N) (hx : x ∈ liveIds m) (hp : p.Lasts) : Lasting (m.set x p) := by
  have hlive := (hinv.set (Finset.mem_filter.mp hx).2.1 p).2
  refine h.step (h.tidy.set hinv hx p) fun y hy => ?_
  by_cases hyx : y = x
  · subst hyx
    refine .inr fun q hq => ?_
    obtain rfl : p = q := Option.some.inj ((Mem.set_self ..).symm.trans hq)
    exact hp
  · exact .inl ⟨hlive ▸ hy, Mem.set_of_ne hyx ..⟩

namespace Table

variable {t : Table} {types : Tuple} {L : Layout} {M : Rank → Option Tuple} {n : BtreeNodePage Tuple}

theorem cellSizeOf_lt (hlen : types.length ≤ 255) : cellSizeOf types < 2 ^ 16 := by
  have hle : ∀ v : Vari, db_sizeof v ≤ 128 := fun v => by cases v <;> simp [db_sizeof, MAX_STR_SZ]
  have hsum : ∀ l : Tuple, (l.map db_sizeof).sum ≤ l.length * 128 := by
    intro l
    induction l with
    | nil => exact le_rfl
    | cons v l ih =>
      have := hle v
      rw [List.map_cons, List.sum_cons, List.length_cons]
      omega
  have := hle (types.headD (.int 0))
  have := hsum types
  rw [cellSizeOf]
  omega

theorem TableOk.lasts_node (h : TableOk m t types L M) (hinv : Inv m N) (hdeg : 2 ≤ tableDegree types)
    (hlen : types.length ≤ 255) (hrows : ∀ r v, M r = some v → ∀ a ∈ v, a.Storable) (hx : x ∈ L.pages)
    (hn : nodeAt m x = some n) : (Page.node n).Lasts where
  encodable := h.encodable hinv (effectiveDegree_tableDegree_ge hdeg) hx hn
  columns c hc := (h.typed.cells c ⟨x, hx, n, hn, hc⟩).length_eq.trans_le hlen
  storable c hc := by
    have hcell : CellIn (nodeAt m) L c := ⟨x, hx, n, hn, hc⟩
    have hvalue := hrows _ _ ((h.represents c.key.rank c.value).mpr ⟨c, hcell, rfl, rfl⟩)
    obtain ⟨-, key, columns, hcons, hrank, -⟩ := h.row hcell
    exact ⟨storable_of_rank_eq hrank.symm (hvalue key (hcons ▸ List.mem_cons_self ..)), hvalue⟩
  fits := h.typed.bytes_le (n := n) (cellSizeOf_lt hlen) hdeg hx hn

theorem TableOk.lasts_page (h : TableOk m t types L M) (hinv : Inv m N) (hlen : types.length ≤ 255) :
    (Page.table (pageOf t types M)).Lasts :=
  ⟨⟨h.types_ne, hlen.trans (by decide)⟩, lt_of_mem_liveIds hinv (h.live h.tree.root_mem), h.ncard_lt hinv⟩

/-- The row that a call writes, if it writes one. -/
def TupleOp.row? : TupleOp → Option Tuple
  | insert values => some values
  | update values => some values
  | read _ => none

theorem TupleOp.mem_onRows {op : TupleOp} {r : Rank} {v : Tuple} (h : (op.onRows types M).2 r = some v) :
    M r = some v ∨ op.row? = some v := by
  have hupdate : ∀ {key : Vari} {values : Tuple}, Function.update M key.rank (some values) r = some v →
      M r = some v ∨ some values = some v := by
    intro key values h
    by_cases hr : r = key.rank
    · rw [hr, Function.update_self] at h
      exact .inr h
    · rw [Function.update_of_ne hr] at h
      exact .inl h
  cases herr : op.error types with
  | some e =>
    rw [onRows, herr] at h
    exact .inl h
  | none =>
    rw [onRows_of_none herr] at h
    cases op with
    | insert values =>
      rw [treeOp, TreeOp.onMap] at h
      split_ifs at h
      · exact .inl h
      · exact hupdate h
    | update values =>
      rw [treeOp, TreeOp.onMap] at h
      split_ifs at h
      · exact hupdate h
      · exact .inl h
    | read key => exact .inl h

end Table

namespace StorageEngine

open Table

variable {e e' : StorageEngine σ} {K : Catalog} {name : List Byte} {types : Tuple} {fuel : ℕ} {op : EngineOp}
variable {r : Except Exn EngineReply}

/-- The name and the values of the call come back from a file. -/
def EngineOp.Storable : EngineOp → Prop
  | createTable name types => 0 ∉ name ∧ types.length ≤ 255
  | insertTuple _ values => ∀ v ∈ values, v.Storable
  | updateTuple _ values => ∀ v ∈ values, v.Storable
  | _ => True

/-- The columns and the rows of all tables come back from a file. -/
def Catalog.Storable (K : Catalog) : Prop :=
  ∀ name c, K name = some c → c.types.length ≤ 255 ∧ ∀ r v, c.rows r = some v → ∀ a ∈ v, a.Storable

theorem Catalog.Storable.update (h : K.Storable) {c : Content}
    (hc : c.types.length ≤ 255 ∧ ∀ r v, c.rows r = some v → ∀ a ∈ v, a.Storable) :
    Catalog.Storable (Function.update K name (some c)) := by
  intro name' c' hc'
  by_cases hname : name' = name
  · subst hname
    rw [Function.update_self] at hc'
    cases hc'
    exact hc
  · rw [Function.update_of_ne hname] at hc'
    exact h name' c' hc'

theorem Catalog.Storable.onTable (h : K.Storable) {op : TupleOp} (hop : ∀ v, op.row? = some v → ∀ a ∈ v, a.Storable)
    (missing : EngineReply) : (K.onTable name op missing).2.Storable := by
  rw [Catalog.onTable]
  cases hc : K name with
  | none => exact h
  | some c =>
    obtain ⟨hlen, hrows⟩ := h name c hc
    refine h.update ⟨hlen, fun r v hv => ?_⟩
    exact (TupleOp.mem_onRows hv).elim (hrows r v) (hop v)

theorem EngineOp.Storable.onCatalog (hop : op.Storable) (h : K.Storable) : (op.onCatalog K).Storable := by
  cases op with
  | createTable name types =>
    rw [EngineOp.onCatalog]
    split_ifs
    · refine h.update ⟨hop.2, fun r v hv => ?_⟩
      cases hv
    · exact h
  | dropTable name =>
    intro name' c hc
    by_cases hname : name' = name
    · subst hname
      rw [EngineOp.onCatalog, Function.update_self] at hc
      cases hc
    · rw [EngineOp.onCatalog, Function.update_of_ne hname] at hc
      exact h name' c hc
  | insertTuple name values =>
    refine h.onTable (fun v hv => ?_) _
    cases hv
    exact hop
  | updateTuple name values =>
    refine h.onTable (fun v hv => ?_) _
    cases hv
    exact hop
  | _ => exact h

theorem onTable_answer {β : Type} {q : TableM σ β} {g : Option β → EngineReply}
    (hrun : (do return g (← onTable name q) : EngineM σ EngineReply) e = .answer r e') :
    (name ∉ e.tables.map Table.name ∧ e' = e ∧ r = .ok (g none)) ∨
      ∃ (i : ℕ) (t : Table) (y : Except Exn β) (st : TableState σ), e.tables[i]? = some t ∧ t.name = name ∧
        q ⟨e.pager, t⟩ = .answer y st ∧
        e' = { e with pager := st.pager, tables := e.tables.set i st.table } ∧ r = y.map fun b => g (some b) := by
  by_cases hmem : name ∈ e.tables.map Table.name
  · obtain ⟨i, t, ht, rfl, htable⟩ := onTable_of_mem hmem q
    right
    cases hq : q ⟨e.pager, t⟩ with
    | ok a st =>
      rw [hq] at htable
      rw [bind_ok htable] at hrun
      obtain ⟨rfl, rfl⟩ := Outcome.answer_of_ok hrun
      exact ⟨i, t, .ok a, st, ht, rfl, hq, rfl, rfl⟩
    | throw x st =>
      rw [hq] at htable
      rw [bind_apply, seq, htable] at hrun
      obtain ⟨rfl, rfl⟩ := Outcome.answer_of_throw hrun
      exact ⟨i, t, .error x, st, ht, rfl, hq, rfl, rfl⟩
    | abort msg =>
      rw [hq] at htable
      rw [bind_apply, seq, htable] at hrun
      exact absurd hrun.symm Outcome.answer_ne_abort
    | timeout =>
      rw [hq] at htable
      rw [bind_apply, seq, htable] at hrun
      exact absurd hrun.symm Outcome.answer_ne_timeout
  · rw [bind_ok (onTable_of_not_mem hmem q)] at hrun
    obtain ⟨rfl, rfl⟩ := Outcome.answer_of_ok hrun
    exact .inl ⟨hmem, rfl, rfl⟩

theorem EngineOk.answer_query {β : Type} (h : EngineOk C e K) {q : TableM σ β}
    {g : Option β → EngineReply} {f : Content → Except Exn β}
    (hq : ∀ t c, TableAt (C.mem e.pager) t.tablePageID (pageOf t c.types c.rows) → c.types ≠ [] → ∃ s',
      C.Ok s' ∧ C.mem s' = C.mem e.pager ∧ q ⟨e.pager, t⟩ = .answer (f c) ⟨s', t⟩)
    (hrun : (do return g (← onTable name q) : EngineM σ EngineReply) e = .answer r e') :
    (C.mem e'.pager = C.mem e.pager ∧ e'.tables = e.tables ∧ e'.schemaPageID = e.schemaPageID) ∧
      ∀ x, r = .error x → ∃ c, f c = .error x := by
  rcases onTable_answer hrun with ⟨-, rfl, rfl⟩ | ⟨i, t, y, st, ht, rfl, hy, rfl, rfl⟩
  · exact ⟨⟨rfl, rfl, rfl⟩, nofun⟩
  · obtain ⟨c, L, hc, -, ok, -⟩ := h.table ht
    obtain ⟨s', -, hm', hs'⟩ := hq t c ok.page ok.types_ne
    obtain ⟨rfl, rfl⟩ := Outcome.answer_inj (hy.symm.trans hs')
    obtain ⟨hi, rfl⟩ := List.getElem?_eq_some_iff.mp ht
    refine ⟨⟨hm', List.set_getElem_self hi, rfl⟩, fun x hx => ⟨c, ?_⟩⟩
    cases hf : f c with
    | ok b =>
      rw [hf] at hx
      cases hx
    | error x' =>
      rw [hf] at hx
      cases hx
      rfl

theorem EngineOk.lasting_query {β : Type} (h : EngineOk C e K) (hl : Lasting (C.mem e.pager)) {q : TableM σ β}
    {g : Option β → EngineReply} {f : Content → Except Exn β}
    (hq : ∀ t c, TableAt (C.mem e.pager) t.tablePageID (pageOf t c.types c.rows) → c.types ≠ [] → ∃ s',
      C.Ok s' ∧ C.mem s' = C.mem e.pager ∧ q ⟨e.pager, t⟩ = .answer (f c) ⟨s', t⟩)
    (hrun : (do return g (← onTable name q) : EngineM σ EngineReply) e = .answer r e') :
    Lasting (C.mem e'.pager) := by
  rwa [(h.answer_query hq hrun).1.1]

theorem EngineOk.lasting_rows {β : Type} (h : EngineOk C e K) (hl : Lasting (C.mem e.pager)) (hK : K.Storable)
    (op' : TupleOp) (hop : ∀ v, op'.row? = some v → ∀ a ∈ v, a.Storable) {q : TableM σ β}
    {g : Option β → EngineReply} {f : β → Reply Tuple} (hq : op'.run C.toCacheOps fuel = do return f (← q))
    (hkey : op'.key.isNaN = false)
    (hrun : (do return g (← onTable name q) : EngineM σ EngineReply) e = .answer r e') (hne : r ≠ .error sizeLimit) :
    Lasting (C.mem e'.pager) := by
  rcases onTable_answer hrun with ⟨-, rfl, -⟩ | ⟨i, t, y, st, ht, rfl, hy, rfl, rfl⟩
  · exact hl
  obtain ⟨c, L, hc, hdeg, ok, -⟩ := h.table ht
  obtain ⟨hlen, hrows⟩ := hK t.name c hc
  obtain ⟨N, hinv⟩ := h.inv
  have hanswer : op'.run C.toCacheOps fuel ⟨e.pager, t⟩ = .answer (y.map f) st := by
    rw [hq, bind_apply, seq, hy]
    cases y <;> rfl
  have ok₀ : C.Ok (⟨e.pager, t⟩ : TableState σ).pager := h.ok
  change Lasting (C.mem st.pager)
  rcases ok.run_within_of_ended ok₀ hinv (effectiveDegree_tableDegree_ge hdeg) hkey
      (hanswer ▸ Outcome.answer_ne_timeout) with ⟨st', L', hs', -, hadv, hconf, -⟩ | ⟨-, st', hs'⟩
  · obtain ⟨-, rfl⟩ := Outcome.answer_inj (hanswer.symm.trans hs')
    obtain ⟨N', hinv'⟩ := hadv.inv
    have hpage : st.table.tablePageID = t.tablePageID := by rw [hadv.table_eq]
    have hrows' : ∀ r v, (op'.onRows c.types c.rows).2 r = some v → ∀ a ∈ v, a.Storable := fun r v hv =>
      (TupleOp.mem_onRows hv).elim (hrows r v) (hop v)
    refine hl.step (hconf.tidy hl.tidy) fun x hx => ?_
    by_cases hxL : x ∈ L'.pages
    · obtain ⟨n, hn⟩ := hadv.table.node hxL
      refine .inr fun p hp => ?_
      obtain rfl : .node n = p := Option.some.inj ((nodeAt_eq_some.mp hn).2.symm.trans hp)
      exact hadv.table.lasts_node hinv' hdeg hlen hrows' hxL hn
    have hold : x ∈ liveIds (C.mem e.pager) := by
      by_contra hnot
      exact hxL (hconf.new x hx hnot)
    by_cases hxt : x = t.tablePageID
    · refine .inr fun p hp => ?_
      rw [hxt, ← hpage] at hp
      obtain rfl : .table _ = p := Option.some.inj (hadv.table.page.2.symm.trans hp)
      exact hadv.table.lasts_page hinv' hlen
    · exact .inl ⟨hold, hadv.frame x hold (fun hmem => hxL (hadv.pages hmem)) hxt⟩
  · obtain ⟨heq, -⟩ := Outcome.answer_inj (hanswer.symm.trans (show _ = Outcome.answer (.error sizeLimit) st' from hs'))
    cases y with
    | ok b => cases heq
    | error x =>
      cases heq
      exact absurd rfl hne

theorem EngineOk.lasting_createTable (h : EngineOk C e K) (hl : Lasting (C.mem e.pager))
    (hadm : (EngineOp.createTable name types).Admissible K) (hname : 0 ∉ name)
    (hrun : (EngineOp.createTable name types).run C.toCacheOps fuel e = .answer r e') (hne : r ≠ .error sizeLimit) :
    Lasting (C.mem e'.pager) := by
  obtain ⟨hacc, -, hlen⟩ := hadm
  obtain ⟨N, hinv⟩ := h.inv
  obtain ⟨p, hp, hperm⟩ := h.schema
  rw [h.nameError_eq, h.ncard_eq] at hlen
  cases herr : nameError e.tables name with
  | some x =>
    rw [EngineOp.run, bind_apply, seq, createTable_of_error herr] at hrun
    obtain ⟨-, rfl⟩ := Outcome.answer_of_throw hrun
    exact hl
  | none =>
    have hthrow : ∀ s', create C.toCacheOps name types e.pager ≠ .throw sizeLimit s' := by
      intro s' hs'
      rw [EngineOp.run, bind_apply, seq, createTable_of_throw herr hs'] at hrun
      exact hne (Outcome.answer_of_throw hrun).1
    rcases create_cases name h.ok hinv hacc with ⟨-, s', hs', -⟩ | ⟨-, -, s', hs', -⟩ |
      ⟨-, t, s₁, hs₁, ok₁, rfl, htidy, hcreated⟩
    · exact absurd hs' (hthrow s')
    · exact absurd hs' (hthrow s')
    obtain ⟨S, hn, -⟩ := h.rooted
    obtain ⟨N₁, hinv₁⟩ := hcreated.inv
    have hp₁ := hp.kept (kept_of_created hcreated hn)
    have hnameOk := (nameError_eq_none.mp herr).1
    have hfst : t.name ∉ p.tables.map Prod.fst := by
      rw [(hperm.map Prod.fst).mem_iff, ← map_name]
      exact (nameError_eq_none.mp herr).2
    have hroot := lt_of_mem_liveIds hinv₁ (nodeAt_eq_some.mp hcreated.root).1
    have hl₁ : Lasting (C.mem s₁) := by
      refine hl.step (htidy hl.tidy) fun x hx => ?_
      rw [hcreated.live, Finset.mem_insert, Finset.mem_insert] at hx
      rcases hx with rfl | rfl | hx
      · refine .inr fun q hq => ?_
        obtain rfl := Option.some.inj ((nodeAt_eq_some.mp hcreated.root).2.symm.trans hq)
        have := tableDegree_le types
        have hdeg : t.degree < 2 ^ 16 := by rw [hcreated.degree]; omega
        exact Page.nodeSound_new hdeg (Nat.mod_lt _ (by decide)) (.inl rfl)
      · refine .inr fun q hq => ?_
        obtain rfl := Option.some.inj (hcreated.page.2.symm.trans hq)
        exact ⟨hacc, hroot, Nat.two_pow_pos 64⟩
      · exact .inl ⟨hx, hcreated.other x hx⟩
    obtain ⟨s₂, hrun₂, -, hm₂⟩ := createTable_of_ok herr hs₁ ok₁ hinv₁ hp₁ hperm (hlen herr) rfl
    rw [EngineOp.run, bind_ok hrun₂] at hrun
    obtain ⟨-, rfl⟩ := Outcome.answer_of_ok hrun
    have hsound : p.Sound := hl.live _ hp.1 _ hp.2
    have hroom : p.tables.length < 31 := by
      rw [hperm.length_eq, List.length_map]
      exact hlen herr
    have hadd : SchemaPage.addTable t.name t.tablePageID p = .ok () _ := SchemaPage.addTable_eq hnameOk hfst hroom
    change Lasting (C.mem s₂)
    rw [hm₂]
    exact hl₁.set hinv₁ hp₁.1 (hsound.addTable hname (lt_of_mem_liveIds hinv₁ hcreated.page.1) hadd)

theorem EngineOk.lasting_dropTable (h : EngineOk C e K) (hl : Lasting (C.mem e.pager))
    (hrun : (EngineOp.dropTable name).run C.toCacheOps fuel e = .answer r e') : Lasting (C.mem e'.pager) := by
  obtain ⟨N, hinv⟩ := h.inv
  obtain ⟨p, hp, hperm⟩ := h.schema
  by_cases hmem : name ∈ e.tables.map Table.name
  · obtain ⟨t', ht', rfl⟩ := List.mem_map.mp hmem
    obtain ⟨i, t, s', -, -, hdrop, -, hm'⟩ := dropTable_of_mem h.ok hinv hp hperm (h.nameOk t' ht') hmem
    rw [EngineOp.run, bind_ok hdrop] at hrun
    obtain ⟨-, rfl⟩ := Outcome.answer_of_ok hrun
    have hfst : t'.name ∈ p.tables.map Prod.fst := by
      rwa [(hperm.map Prod.fst).mem_iff, ← map_name]
    have hsound : p.Sound := hl.live _ hp.1 _ hp.2
    change Lasting (C.mem s')
    rw [hm']
    exact hl.set hinv hp.1 (hsound.removeTable (SchemaPage.removeTable_eq (h.nameOk t' ht') hfst))
  · rw [EngineOp.run, bind_apply, seq, dropTable_of_not_mem hmem] at hrun
    obtain ⟨-, rfl⟩ := Outcome.answer_of_throw hrun
    exact hl

theorem EngineOk.lasting_getTableNames (h : EngineOk C e K) (hl : Lasting (C.mem e.pager))
    (hrun : EngineOp.getTableNames.run C.toCacheOps fuel e = .answer r e') : Lasting (C.mem e'.pager) := by
  obtain ⟨p, s', -, hok, hm'⟩ := h.getTableNames_eq fuel
  rw [hok] at hrun
  obtain ⟨-, rfl⟩ := Outcome.answer_of_ok hrun
  change Lasting (C.mem s')
  rwa [hm']

/-- As long as pages are left, every call leaves only pages behind that last. -/
theorem EngineOk.lasting (h : EngineOk C e K) (hl : Lasting (C.mem e.pager)) (hK : K.Storable)
    (hadm : op.Admissible K) (hop : op.Storable) (hrun : op.run C.toCacheOps fuel e = .answer r e')
    (hne : r ≠ .error sizeLimit) : Lasting (C.mem e'.pager) := by
  cases op with
  | createTable name types => exact h.lasting_createTable hl hadm hop.1 hrun hne
  | dropTable name => exact h.lasting_dropTable hl hrun
  | getTableNames => exact h.lasting_getTableNames hl hrun
  | getTableTypes name =>
    exact h.lasting_query hl (f := fun c => .ok c.types) (fun t c hp _ => h.query_page TablePage.types hp) hrun
  | getNumTuples name =>
    exact h.lasting_query hl (f := fun c => .ok (keys c.rows).ncard)
      (fun t c hp _ => h.query_page TablePage.numTuples hp) hrun
  | insertTuple name values =>
    refine h.lasting_rows hl hK (.insert values) (q := Table.insertTuple C.toCacheOps fuel values)
      (g := fun o => .changed (o.getD false)) (f := .changed) (fun v hv => ?_) rfl hadm
      ((congrFun (map_map _ _) e).symm.trans hrun) hne
    cases hv
    exact hop
  | updateTuple name values =>
    refine h.lasting_rows hl hK (.update values) (q := Table.updateTuple C.toCacheOps fuel values)
      (g := fun o => .changed (o.getD false)) (f := .changed) (fun v hv => ?_) rfl hadm
      ((congrFun (map_map _ _) e).symm.trans hrun) hne
    cases hv
    exact hop
  | removeTuple name key =>
    exact h.lasting_query hl (q := deleteTuple C.toCacheOps key) (g := fun o => .changed (o.getD false))
      (f := fun c => (keyError c.types key).elim (.ok false) .error) (fun t c hp hne => h.query_key hp hne key)
      ((congrFun (map_map _ _) e).symm.trans hrun)
  | getTuple name key =>
    refine h.lasting_rows hl hK (.read key) (q := Table.readTuple C.toCacheOps fuel key)
      (g := fun o => .row o.join) (f := .found) (fun v hv => ?_) rfl hadm
      ((congrFun (map_map _ _) e).symm.trans hrun) hne
    cases hv

end StorageEngine
end Kndb
