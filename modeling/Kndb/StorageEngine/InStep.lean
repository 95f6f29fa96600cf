import Kndb.StorageEngine.Durable
import Kndb.Table.InStep

namespace Kndb

open Imp Imp.Prog Btree Pager Table PageCache

variable {E : Exn → Prop} {c d fuel : ℕ} {V : Finset ℕ} {m : Mem} {N : ℕ} {types : Tuple} {α β : Type}

attribute [local irreducible] Sim

namespace Table

variable {root : ℕ} {L : Layout} {t : Table} {M : Rank → Option Tuple}

/-- A cell of the types of the columns, whose values come back from a file. -/
structure StorableCell (types : Tuple) (d : Cell Tuple) : Prop extends TypedCell types d where
  storable : d.key.Storable ∧ ∀ v ∈ d.value, v.Storable

theorem TupleOp.keeps_storableCell (op : TupleOp) (herr : op.error types = none) (hne : types ≠ [])
    (hop : ∀ v, op.row? = some v → ∀ a ∈ v, a.Storable) : op.treeOp.Keeps (StorableCell types) := by
  have htyped := TupleOp.keeps_typedCell herr hne
  cases op with
  | insert values =>
    obtain ⟨key, columns, rfl⟩ := exists_key herr hne
    have hvalues := hop _ rfl
    exact ⟨htyped, hvalues key (List.mem_cons_self ..), hvalues⟩
  | update values => exact fun c hc => ⟨htyped c hc.toTypedCell, hc.storable.1, hop _ rfl⟩
  | read key => trivial

/-- In a tree of storable cells the nodes that are not too large last, and the other pages have lasted before. -/
theorem clean_of_lasting (hl : Lasting m) (hdeg : 2 ≤ tableDegree types) (hlen : types.length ≤ 255) :
    Clean (tableDegree types) (effectiveDegree (tableDegree types)) (StorableCell types) ⟨m, root⟩
      (treeAt m root) L := by
  intro st' L' ovf ok' hframe hev hcells hb x p hx hlt hp
  obtain ⟨-, N', hinv'⟩ := ok'
  obtain ⟨hf, htidy⟩ := hframe
  have hev : Evolved (treeAt m root) L (treeAt st'.pager st'.rootPageID) L' := hev
  have hb : Balanced False _ _ (treeAt st'.pager st'.rootPageID) L' ovf := hb
  have hle := tableDegree_le types
  have hsame : effectiveDegree (tableDegree types) = tableDegree types :=
    effectiveDegree_of_le (Nat.one_le_of_lt hdeg) (by omega)
  by_cases hxL : x ∈ L'.pages
  · obtain ⟨n, hn, -⟩ := hb.linked.link x hxL
    obtain rfl : .node n = p := Option.some.inj ((nodeAt_eq_some.mp hn).2.symm.trans hp)
    have hcell : ∀ d ∈ n.cells, StorableCell types d := fun d hd => hcells d ⟨x, hxL, n, hn, hd⟩
    have hup := hb.sized.upper x hxL n hn
    rw [if_neg (show ¬ovf = some x from hx), hsame, Nat.add_zero] at hup
    refine ⟨?_, fun d hd => (hcell d hd).length_eq.trans_le hlen, fun d hd => (hcell d hd).storable, ?_⟩
    · exact encodable_of_balanced hinv' (hsame.symm ▸ hdeg) (by omega) hb
        (fun d hd => (hcells d hd).toTypedCell) hxL hn
    · exact bytes_le_of_typed (n := n.setParent (n.parentID % 2 ^ 32)) (cellSizeOf_lt hlen) hdeg
        (fun d hd => (hcell d hd).toTypedCell) hup
  · refine Tidy.lasts (htidy hl.tidy) hinv' hp hlt fun hlive => ?_
    have hold : x ∈ liveIds m := by
      by_contra hnot
      exact hxL ((confined_of_evolved hev hf htidy).new x hlive hnot)
    exact hl.live x hold p ((view_of_evolved hev hf hold hxL).symm.trans hp)

end Table

namespace StorageEngine

variable {e e₁ : StorageEngine Mem} {e' : StorageEngine (PageCache Page Block)} {K : Catalog} {name : List Byte}
variable {R : StorageEngine Mem → StorageEngine (PageCache Page Block) → Prop} {op : EngineOp}

def Catalog.Within (d : ℕ) (K : Catalog) : Prop := ∀ name c, K name = some c → tableDegree c.types ≤ d

structure InStep (c : ℕ) (V : Finset ℕ) (e : StorageEngine Mem) (e' : StorageEngine (PageCache Page Block)) : Prop where
  tables_eq : e'.tables = e.tables
  schema_eq : e'.schemaPageID = e.schemaPageID
  works : Works c V [] e.pager e'.pager

/-- An engine over the memory whose pages all last, and a cache with room for its trees. -/
structure Prepared (c d : ℕ) (e : StorageEngine Mem) (K : Catalog) : Prop extends EngineOk Mem.cache e K where
  lasting : Lasting e.pager
  storable : K.Storable
  within : K.Within d
  room : d + 5 ≤ c

namespace Prepared

theorem cleanBut (h : Prepared c d e K) {s : PageCache Page Block} {H : List (ℕ × ℕ)} (hw : Works c V H e.pager s) :
    e.pager.CleanBut ∅ := by
  obtain ⟨N, hinv⟩ := h.inv
  exact hw.cleanBut fun x p _ hlt hp => h.lasting.lasts hinv hp hlt

theorem ready (h : Prepared c d e K) {fuel : ℕ} (hfuel : maxDepth ≤ fuel) {t : Table} (ht : t ∈ e.tables) : ∃ types L,
    Ready c fuel (StorableCell types) types L ⟨e.pager, t⟩ := by
  obtain ⟨N, hinv⟩ := h.inv
  obtain ⟨L, hholds⟩ := h.holds
  obtain ⟨c', hc, hdeg, hok⟩ := hholds.table t ht
  obtain ⟨hlen, hrows⟩ := h.storable t.name c' hc
  have hle := tableDegree_le c'.types
  have hsame : effectiveDegree (tableDegree c'.types) = tableDegree c'.types :=
    effectiveDegree_of_le (Nat.one_le_of_lt hdeg) (by omega)
  have hcells : ∀ d, CellIn (nodeAt e.pager) (L t.name) d → StorableCell c'.types d := by
    intro d hd
    have hvalue := hrows _ _ ((hok.represents d.key.rank d.value).mpr ⟨d, hd, rfl, rfl⟩)
    obtain ⟨-, key, columns, hcons, hrank, -⟩ := hok.row hd
    exact ⟨hok.typed.cells d hd, storable_of_rank_eq hrank.symm (hvalue key (hcons ▸ List.mem_cons_self ..)), hvalue⟩
  refine ⟨c'.types, L t.name,
    ⟨⟨h.ok, N, hinv⟩, ⟨_, hok.page⟩, hok.types_ne, ?_, hok.typed.balanced, hcells, ?_, ?_, ?_⟩⟩
  · rw [hok.degree]
    exact effectiveDegree_tableDegree_ge hdeg
  · rw [hok.degree]
    exact clean_of_lasting h.lasting hdeg hlen
  · exact (height_lt_maxDepth hok hinv hdeg).trans hfuel
  · have := h.within t.name c' hc
    have := h.room
    rw [hok.degree, hsame]
    omega

end Prepared

theorem sim_loadTables {s : PageCache Page Block} {R : Mem → PageCache Page Block → Prop} (h : Works c V [] m s)
    (hE : Outer E) (hclean : m.CleanBut ∅) (hc : 3 ≤ c) (entries : List (List Byte × ℕ)) :
    Sim E (loadTables Mem.cache.toCacheOps entries) (loadTables cacheOps entries) m s
      (fun l l' m' s' => l' = l ∧ m' = m ∧ ∃ V, Works c V [] m s') R := by
  induction entries generalizing V s with
  | nil => exact sim_pure ⟨rfl, rfl, V, h⟩
  | cons entry entries ih =>
    obtain ⟨name, id⟩ := entry
    have hw : Works c (Insert.insert id bitmaps) [] m s :=
      (h.rest hclean).extend (Finset.empty_subset _) (card_insert_bitmaps_le hc _)
    apply (hw.sim_load hE (Finset.subset_insert ..) (Finset.mem_insert_self ..) name).bind
    rintro t t' m₁ s₁ - ⟨rfl, rfl, h₁⟩
    apply (ih h₁).bind
    rintro l l' m₂ s₂ - ⟨rfl, rfl, h₂⟩
    exact sim_pure ⟨rfl, rfl, h₂⟩

theorem sim_readTables {s : PageCache Page Block} {R : Mem → PageCache Page Block → Prop} (h : Works c V [] m s)
    (hE : Outer E) (hclean : m.CleanBut ∅) (hc : 3 ≤ c) (id : ℕ) :
    Sim E (readTables Mem.cache.toCacheOps id) (readTables cacheOps id) m s
      (fun l l' m' s' => l' = l ∧ m' = m ∧ ∃ V, Works c V [] m s') R := by
  have hw : Works c (Insert.insert id bitmaps) [] m s :=
    (h.rest hclean).extend (Finset.empty_subset _) (card_insert_bitmaps_le hc _)
  apply (hw.sim_getPage hE (Finset.subset_insert ..) .schema (Finset.mem_insert_self ..)).bind
  rintro r page m₁ s₁ - ⟨rfl, rfl, h₁, -⟩
  apply (h₁.sim_deref (T := SchemaPage) (List.mem_cons_self ..)).bind
  rintro p q m₂ s₂ - ⟨rfl, rfl, -, hs⟩
  obtain rfl := Page.schema.inj hs.eq_schema
  exact sim_loadTables (h₁.forget (List.nil_subset _)) hE hclean hc _

theorem InStep.sim_onSchemaPage (h : InStep c V e e') (hE : Outer E) (hV : bitmaps ⊆ V) (hid : e.schemaPageID ∈ V)
    {f : Code SchemaPage α} (hf : ∀ p, f.wp p (fun _ p' => p'.pageID = p.pageID) (fun _ _ => False) fun _ => True) :
    Sim E (onSchemaPage Mem.cache.toCacheOps f) (onSchemaPage cacheOps f) e e'
      (fun a b e₁ e₁' => b = a ∧ InStep c V e₁ e₁') R := by
  apply sim_gets
  rw [h.schema_eq]
  apply sim_zoom
  apply (h.works.sim_getPage hE hV .schema hid).bind
  rintro r page m s - ⟨rfl, rfl, h₁, -⟩
  refine (h₁.sim_call (T := SchemaPage) (Q := fun a b _ => b = a) (S := fun _ => False) (List.mem_cons_self ..)
    fun p q _ hs => ?_).mono ?_ ?_
  · obtain rfl := Page.schema.inj hs.eq_schema
    refine (sim_self (R := fun _ _ => False) (hf q) fun _ _ hfalse => hfalse).mono ?_ fun _ _ hfalse => hfalse.elim
    rintro a b p' q' ⟨rfl, rfl, hpid⟩
    exact ⟨rfl, Page.again_refl _, trivial, hpid.trans hs.pageID⟩
  · rintro a b m' s' ⟨p, rfl, rfl, h₂⟩
    exact ⟨rfl, h.tables_eq, h.schema_eq, h₂.forget (List.nil_subset _)⟩
  · rintro m' s' ⟨-, hfalse, -⟩
    exact hfalse.elim

theorem keepsID_addTable (name : List Byte) (pageID : ℕ) (p : SchemaPage) : (SchemaPage.addTable name pageID).wp p
    (fun _ p' => p'.pageID = p.pageID) (fun _ _ => False) fun _ => True := by
  rw [SchemaPage.addTable, wp_bind, wp_require]
  refine ⟨fun _ => ?_, fun _ => trivial⟩
  rw [wp_bind, wp_require]
  refine ⟨fun _ => ?_, fun _ => trivial⟩
  rw [wp_bind, wp_gets, wp_bind, wp_require]
  exact ⟨fun _ => by rw [wp_change], fun _ => trivial⟩

theorem keepsID_removeTable (name : List Byte) (p : SchemaPage) : (SchemaPage.removeTable name).wp p
    (fun _ p' => p'.pageID = p.pageID) (fun _ _ => False) fun _ => True := by
  rw [SchemaPage.removeTable, wp_bind, wp_require]
  refine ⟨fun _ => ?_, fun _ => trivial⟩
  rw [wp_bind, wp_require]
  refine ⟨fun _ => ?_, fun _ => trivial⟩
  rw [wp_bind, wp_gets, wp_bind, wp_require]
  exact ⟨fun _ => by rw [wp_change], fun _ => trivial⟩

/-- The pages that are in the way of no other one. -/
def InStep.base (e : StorageEngine Mem) : Finset ℕ := Insert.insert e.schemaPageID bitmaps

namespace Prepared

theorem inStep (h : Prepared c d e K) (hst : InStep c V e e') : InStep c (InStep.base e) e e' := by
  refine ⟨hst.tables_eq, hst.schema_eq, (hst.works.rest (h.cleanBut hst.works)).extend (Finset.empty_subset _) ?_⟩
  have := h.room
  exact card_insert_bitmaps_le (by omega) _

theorem sim_createTable (h : Prepared c d e K) (hst : InStep c V e e') (hE : Outer E)
    (hR : E sizeLimit → ∀ e e', R e e') (hrel : ∀ V e e', InStep c V e e' → R e e') (hacc : TablePage.Accepts types) :
    Sim E (createTable Mem.cache.toCacheOps name types) (createTable cacheOps name types) e e'
      (fun _ _ e₁ e₁' => ∃ V, InStep c V e₁ e₁') R := by
  have hst := h.inStep hst
  obtain ⟨N, hinv⟩ := h.inv
  have hcheck : Sim E (checkName name) (checkName name) e e' (fun _ _ e₁ e₁' => e₁ = e ∧ e₁' = e') R := by
    have hraise : ∀ x : Exn, E x → R e e' := fun _ _ => hrel _ _ _ hst
    dsimp only [checkName]
    refine sim_ite Iff.rfl (fun _ => sim_raise_bind (hraise _)) fun _ => ?_
    refine sim_ite Iff.rfl (fun _ => sim_raise_bind (hraise _)) fun _ => ?_
    apply sim_gets
    rw [hst.tables_eq]
    exact sim_ite Iff.rfl (fun _ => sim_raise (hrel _ _ _ hst)) fun _ => sim_pure ⟨rfl, rfl⟩
  apply hcheck.bind
  rintro - - e₁ e₁' - ⟨rfl, rfl⟩
  have hcard : (InStep.base e₁).card + 1 < c := by
    have hthree : (InStep.base e₁).card ≤ 3 := card_insert_bitmaps_le le_rfl _
    have := h.room
    omega
  have hcreate : Sim E (onPager (create Mem.cache.toCacheOps name types)) (onPager (create cacheOps name types)) e₁ e₁'
      (fun t t' e₂ e₂' => t' = t ∧ e₂.tables = e₁.tables ∧ e₂.schemaPageID = e₁.schemaPageID ∧
        ∃ W, InStep.base e₁ ⊆ W ∧ InStep c W e₂ e₂') R := by
    apply sim_zoom
    refine (hst.works.sim_create hE (fun he _ _ => hR he _ _) (Finset.subset_insert ..) hcard h.ok hinv name
      hacc).mono ?_ fun _ _ hR => hR
    rintro t t' m s ⟨rfl, W, hW, hw⟩
    exact ⟨rfl, rfl, rfl, W, hW, hst.tables_eq, hst.schema_eq, hw⟩
  apply hcreate.bind
  rintro t t' e₂ e₂' - ⟨rfl, -, hschema, W, hW, h₂⟩
  have hchange : Sim E (change fun e => { e with tables := e.tables ++ [t'] })
      (change fun e => { e with tables := e.tables ++ [t'] }) e₂ e₂'
      (fun _ _ e₃ e₃' => e₃.schemaPageID = e₂.schemaPageID ∧ InStep c W e₃ e₃') R :=
    sim_change ⟨rfl, congrArg (· ++ [t']) h₂.tables_eq, h₂.schema_eq, h₂.works⟩
  apply hchange.bind
  rintro - - e₃ e₃' - ⟨hschema', h₃⟩
  have hid : e₃.schemaPageID ∈ W := by
    rw [hschema', hschema]
    exact hW (Finset.mem_insert_self ..)
  refine (h₃.sim_onSchemaPage hE ((Finset.subset_insert ..).trans hW) hid
    (keepsID_addTable t'.name t'.tablePageID)).mono ?_ fun _ _ hR => hR
  exact fun _ _ e₄ e₄' hpost => ⟨W, hpost.2⟩

theorem sim_dropTable (h : Prepared c d e K) (hst : InStep c V e e') (hE : Outer E)
    (hrel : ∀ V e e', InStep c V e e' → R e e') (name : List Byte) :
    Sim E (dropTable Mem.cache.toCacheOps name) (dropTable cacheOps name) e e'
      (fun _ _ e₁ e₁' => ∃ V, InStep c V e₁ e₁') R := by
  have hst := h.inStep hst
  apply sim_gets
  rw [hst.tables_eq]
  cases lastIndex name e.tables with
  | none => exact sim_raise (hrel _ _ _ hst)
  | some idx =>
    apply (hst.sim_onSchemaPage hE (Finset.subset_insert ..) (Finset.mem_insert_self ..)
      (keepsID_removeTable name)).bind
    rintro - - e₁ e₁' - ⟨-, h₁⟩
    exact sim_change ⟨_, congrArg (·.eraseIdx idx) h₁.tables_eq, h₁.schema_eq, h₁.works⟩

theorem sim_getTableNames (h : Prepared c d e K) (hst : InStep c V e e') (hE : Outer E) :
    Sim E (getTableNames Mem.cache.toCacheOps) (getTableNames cacheOps) e e'
      (fun l l' e₁ e₁' => l' = l ∧ ∃ V, InStep c V e₁ e₁') R := by
  apply ((h.inStep hst).sim_onSchemaPage hE (Finset.subset_insert ..) (Finset.mem_insert_self ..) (fun p => ?_)).bind
  swap
  · rw [wp_gets]
  rintro l l' e₁ e₁' - ⟨rfl, h₁⟩
  exact sim_pure ⟨rfl, _, h₁⟩

end Prepared

theorem InStep.sim_onTable {p : TableM Mem α} {q : TableM (PageCache Page Block) β} {Q : α → β → Prop}
    (hst : InStep c V e e')
    (hpq : ∀ t ∈ e.tables, ∀ s, Table.InStep c V ⟨e.pager, t⟩ ⟨s, t⟩ →
      Sim E p q ⟨e.pager, t⟩ ⟨s, t⟩ (fun a b st' t' => Q a b ∧ ∃ V, Table.InStep c V st' t') fun st' t' =>
        ∀ i, R { e with pager := st'.pager, tables := e.tables.set i st'.table }
          { e' with pager := t'.pager, tables := e'.tables.set i t'.table }) :
    Sim E (onTable name p) (onTable name q) e e'
      (fun a b e₁ e₁' => Option.Rel Q a b ∧ ∃ V, InStep c V e₁ e₁') R := by
  apply sim_gets
  rw [hst.tables_eq]
  cases e.tables.findIdx? fun t => t.name == name with
  | none => exact sim_pure ⟨.none, V, hst⟩
  | some i =>
    refine sim_index fun t ht => ?_
    have hmem : t ∈ e.tables := List.mem_of_getElem? ht
    have hzoom : Sim E (zoom (fun e : StorageEngine Mem => ⟨e.pager, t⟩)
        (fun st e => { e with pager := st.pager, tables := e.tables.set i st.table }) p)
        (zoom (fun e : StorageEngine (PageCache Page Block) => ⟨e.pager, t⟩)
        (fun st e => { e with pager := st.pager, tables := e.tables.set i st.table }) q) e e'
        (fun a b e₁ e₁' => Q a b ∧ ∃ V, InStep c V e₁ e₁') R := by
      apply sim_zoom
      refine (hpq t hmem e'.pager ⟨rfl, hst.works⟩).mono ?_ fun _ _ hR => hR i
      rintro a b st' t' ⟨hab, W, h₁⟩
      refine ⟨hab, W, ?_, hst.schema_eq, h₁.works⟩
      change e'.tables.set i t'.table = e.tables.set i st'.table
      rw [hst.tables_eq, h₁.table_eq]
    apply hzoom.bind
    rintro a b e₁ e₁' - ⟨hab, h₁⟩
    exact sim_pure ⟨.some hab, h₁⟩

theorem InStep.of_table (hst : InStep c V e e') (hrel : ∀ V e e', InStep c V e e' → R e e') {W : Finset ℕ}
    {st : TableState Mem} {t : TableState (PageCache Page Block)} (h : Table.InStep c W st t) (i : ℕ) :
    R { e with pager := st.pager, tables := e.tables.set i st.table }
      { e' with pager := t.pager, tables := e'.tables.set i t.table } := by
  refine hrel W _ _ ⟨?_, hst.schema_eq, h.works⟩
  change e'.tables.set i t.table = e.tables.set i st.table
  rw [hst.tables_eq, h.table_eq]

theorem rel_eq {a b : Option α} (h : Option.Rel (fun x y => y = x) a b) : b = a := by
  cases h with
  | none => rfl
  | some h => rw [h]

theorem InStep.sim_reply {p : TableM Mem α} {q : TableM (PageCache Page Block) α} {f : Option α → EngineReply}
    {Q : α → α → Prop} (hst : InStep c V e e') (hrel : ∀ V e e', InStep c V e e' → R e e')
    (hf : ∀ a b, Option.Rel Q a b → (f a).Alike (f b))
    (hpq : ∀ t ∈ e.tables, ∀ s (R' : TableState Mem → TableState (PageCache Page Block) → Prop),
      (∀ W st t, Table.InStep c W st t → R' st t) → (E sizeLimit → (∀ e e', R e e') → ∀ st t, R' st t) →
      Table.InStep c V ⟨e.pager, t⟩ ⟨s, t⟩ →
      Sim E p q ⟨e.pager, t⟩ ⟨s, t⟩ (fun a b st' t' => Q a b ∧ ∃ V, Table.InStep c V st' t') R') :
    Sim E (do return f (← onTable name p)) (do return f (← onTable name q)) e e'
      (fun r r' e₁ e₁' => r.Alike r' ∧ ∃ V, InStep c V e₁ e₁') R := by
  have htable : Sim E (onTable name p) (onTable name q) e e'
      (fun a b e₁ e₁' => Option.Rel Q a b ∧ ∃ V, InStep c V e₁ e₁') R :=
    hst.sim_onTable fun t ht s hs =>
      hpq t ht s _ (fun W st t h i => hst.of_table hrel h i) (fun _ hR st t i => hR _ _) hs
  apply htable.bind
  rintro a b e₁ e₁' - ⟨hab, h₁⟩
  exact sim_pure ⟨hf a b hab, h₁⟩

/-- Every call does over the cache what it does over the memory. -/
theorem Prepared.sim_run (h : Prepared c d e K) (hst : InStep c V e e') (hE : Outer E)
    (hR : E sizeLimit → ∀ e e', R e e') (hrel : ∀ V e e', InStep c V e e' → R e e') (hadm : op.Admissible K)
    (hop : op.Storable) {fuel : ℕ} (hfuel : maxDepth ≤ fuel) :
    Sim E (op.run Mem.cache.toCacheOps fuel) (op.run cacheOps fuel) e e'
      (fun r r' e₁ e₁' => r.Alike r' ∧ ∃ V, InStep c V e₁ e₁') R := by
  have hst := h.inStep hst
  cases op with
  | createTable name types =>
    apply (h.sim_createTable hst hE hR hrel hadm.1).bind
    exact fun _ _ e₁ e₁' _ h₁ => sim_pure ⟨rfl, h₁⟩
  | dropTable name =>
    apply (h.sim_dropTable hst hE hrel name).bind
    exact fun _ _ e₁ e₁' _ h₁ => sim_pure ⟨rfl, h₁⟩
  | getTableNames =>
    apply (h.sim_getTableNames hst hE).bind
    rintro l l' e₁ e₁' - ⟨rfl, h₁⟩
    exact sim_pure ⟨List.Perm.refl _, h₁⟩
  | getTableTypes name =>
    refine hst.sim_reply (Q := SameTags) hrel (fun _ _ hab => hab) fun t ht s R' _ _ hs => ?_
    obtain ⟨types, L, hr⟩ := h.ready hfuel ht
    exact (hr.inStep hs).sim_getTypes hE
  | getNumTuples name =>
    refine hst.sim_reply hrel (fun _ _ hab => congrArg EngineReply.count (rel_eq hab)) fun t ht s R' _ _ hs => ?_
    obtain ⟨types, L, hr⟩ := h.ready hfuel ht
    exact (hr.inStep hs).sim_getNumTuples hE
  | insertTuple name values =>
    rw [EngineOp.run, EngineOp.run, insertTuple, insertTuple, map_map, map_map]
    refine hst.sim_reply hrel (fun _ _ hab => by rw [rel_eq hab]; rfl) fun t ht s R' hrel' hR' hs => ?_
    obtain ⟨types, L, hr⟩ := h.ready hfuel ht
    refine hr.sim_insertTuple hs hE (fun he => hR' he (hR he)) hrel' fun herr => ?_
    refine TupleOp.keeps_storableCell (.insert values) herr hr.types_ne fun v hv => ?_
    cases hv
    exact hop
  | updateTuple name values =>
    rw [EngineOp.run, EngineOp.run, updateTuple, updateTuple, map_map, map_map]
    refine hst.sim_reply hrel (fun _ _ hab => by rw [rel_eq hab]; rfl) fun t ht s R' hrel' hR' hs => ?_
    obtain ⟨types, L, hr⟩ := h.ready hfuel ht
    refine hr.sim_updateTuple hs hE hrel' fun herr => ?_
    refine TupleOp.keeps_storableCell (.update values) herr hr.types_ne fun v hv => ?_
    cases hv
    exact hop
  | removeTuple name key =>
    rw [EngineOp.run, EngineOp.run, removeTuple, removeTuple, map_map, map_map]
    refine hst.sim_reply hrel (fun _ _ hab => by rw [rel_eq hab]; rfl) fun t ht s R' hrel' _ hs => ?_
    obtain ⟨types, L, hr⟩ := h.ready hfuel ht
    exact (hr.inStep hs).sim_deleteTuple hE hrel' key
  | getTuple name key =>
    rw [EngineOp.run, EngineOp.run, getTuple, getTuple, map_map, map_map]
    refine hst.sim_reply hrel (fun _ _ hab => by rw [rel_eq hab]; rfl) fun t ht s R' hrel' _ hs => ?_
    obtain ⟨types, L, hr⟩ := h.ready hfuel ht
    exact hr.sim_readTuple hs hE hrel' key

end StorageEngine
end Kndb
