import Kndb.MemCache
import Kndb.Pager.Run
import Kndb.StorageEngine.Operations

namespace Kndb.StorageEngine

open Imp Imp.Prog LawfulCache Pager Table

variable {σ α : Type} {C : LawfulCache σ} {m m' : Mem} {N : ℕ} {e e' : StorageEngine σ} {S S' : Set ℕ}
variable {t : Table} {name : List Byte} {types : Tuple} {fuel : ℕ}

/-- At most one page has been allocated, and it is no node. -/
def Lost (m m' : Mem) : Prop :=
  m' = m ∨ ∃ id, id ∉ liveIds m ∧ Pager.Step m m' (Insert.insert id (liveIds m)) ∧ nodeAt m' id = none

theorem wp_create {s : σ} (ok : C.Ok s) (hinv : Inv (C.mem s) N) (name : List Byte) (types : Tuple) :
    (create C.toCacheOps name types).wp s
      (fun t s' => C.Ok s' ∧ t.name = name ∧ types ≠ [] ∧ Created (C.mem s) (C.mem s') types t)
      (fun _ s' => C.Ok s' ∧ Lost (C.mem s) (C.mem s')) fun _ => True := by
  by_cases hacc : TablePage.Accepts types
  · rcases create_cases name ok hinv hacc with ⟨-, s', hs', ok', hm⟩ | ⟨-, id, s', hs', ok', hid, hstep, hnone⟩ |
      ⟨-, t, s', hs', ok', hname, -, hnew⟩
    · exact (wp_of_throw hs').mpr ⟨ok', .inl hm⟩
    · exact (wp_of_throw hs').mpr ⟨ok', .inr ⟨id, hid, hstep, hnone⟩⟩
    · exact (wp_of_ok hs').mpr ⟨ok', hname, hacc.1, hnew⟩
  · by_cases hfull : (liveIds (C.mem s)).card = capacity
    · obtain ⟨s', hs', ok', hm⟩ := throws_createNewPage (C := C) hinv hfull s ok rfl
      exact wp_bind.mpr ((wp_of_throw hs').mpr ⟨ok', .inl hm⟩)
    · have hargs : ¬PageArgs.Accepts (.table types PGID_INVALID) := hacc
      obtain ⟨msg, hmsg⟩ := aborts_createNewPage (C := C) hinv hargs hfull ok rfl
      exact wp_bind.mpr ((wp_of_abort hmsg).mpr trivial)

theorem kept_of_views (hinv' : Inv m' N) (hlive : liveIds m ⊆ liveIds m')
    (hview : ∀ x ∈ liveIds m, m'.view x = m.view x) (hn : Nodes m S) : Kept m m' S S := by
  have hat : ∀ x ∈ liveIds m, nodeAt m' x = nodeAt m x := fun x hx =>
    nodeAt_congr (iff_of_true (hlive hx) hx) (hview x hx)
  refine ⟨⟨N, hinv'⟩, subset_rfl, hn.congr fun x hx => ?_, fun x p hp hmem => ?_, fun x hx _ _ => ?_⟩
  · obtain ⟨n, hnode⟩ := hn.node x hx
    exact hat x (nodeAt_eq_some.mp hnode).1
  · exact ⟨p, ⟨hlive hp.1, (hview x hp.1).trans hp.2⟩, rfl, hmem⟩
  · exact ⟨hlive hx, hview x hx⟩

theorem Lost.kept (h : Lost m m') (hinv : Inv m N) (hn : Nodes m S) : Kept m m' S S := by
  rcases h with hm | ⟨id, hid, hstep, -⟩
  · exact .of_eq hm hinv hn
  · obtain ⟨N', hinv'⟩ := hstep.inv
    refine kept_of_views hinv' ?_ hstep.frame hn
    rw [hstep.live]
    exact Finset.subset_insert ..

theorem kept_of_created (h : Created m m' types t) (hn : Nodes m S) :
    Kept m m' S (Insert.insert t.rootPageID S) := by
  obtain ⟨N', hinv'⟩ := h.inv
  have hsub : S ⊆ Insert.insert t.rootPageID S := Set.subset_insert ..
  have hlive : liveIds m ⊆ liveIds m' := by
    rw [h.live]
    exact (Finset.subset_insert ..).trans (Finset.subset_insert ..)
  have hkept := kept_of_views hinv' hlive h.other hn
  refine ⟨hkept.inv, hsub, ⟨fun x hx => ?_, fun x hx n hnode => ?_⟩, fun x p hp hmem => ?_, hkept.other⟩
  · rcases hx with rfl | hx
    · exact ⟨_, h.root⟩
    · exact hkept.nodes.node x hx
  · rcases hx with rfl | hx
    · rw [h.root, Option.some.injEq] at hnode
      subst hnode
      exact ⟨nofun, nofun⟩
    · exact (hkept.nodes.links x hx n hnode).mono hsub
  · obtain ⟨p', hp', htypes, hmem'⟩ := hkept.tables x p hp hmem
    exact ⟨p', hp', htypes, hsub hmem'⟩

theorem rooted_of_created (h : Created m m' types t) (hne : types ≠ []) :
    Rooted m' (Insert.insert t.rootPageID S) t :=
  ⟨Set.mem_insert .., _, h.page, hne, Set.mem_insert ..⟩

/-- The tables of the engine are those of the schema page. -/
structure Sound (C : LawfulCache σ) (e : StorageEngine σ) : Prop where
  ok : C.Ok e.pager
  inv : ∃ N, Inv (C.mem e.pager) N
  schema : ∃ p, SchemaAt (C.mem e.pager) e.schemaPageID p ∧ p.tables.Perm (e.tables.map entry)
  names : (e.tables.map Table.name).Nodup
  nameOk : ∀ t ∈ e.tables, SchemaPage.NameOk t.name
  rooted : ∃ S, Nodes (C.mem e.pager) S ∧ ∀ t ∈ e.tables, Rooted (C.mem e.pager) S t

theorem sound_empty {s : σ} {id : ℕ} (ok : C.Ok s) (hinv : Inv (C.mem s) N) (hp : SchemaAt (C.mem s) id (.new id)) :
    Sound C ⟨s, [], id⟩ where
  ok := ok
  inv := ⟨N, hinv⟩
  schema := ⟨.new id, hp, .refl _⟩
  names := List.nodup_nil
  nameOk := nofun
  rooted := ⟨∅, ⟨nofun, nofun⟩, nofun⟩

theorem Sound.of_kept (h : Sound C e) (hkept : Kept (C.mem e.pager) (C.mem e'.pager) S S') (ok : C.Ok e'.pager)
    (hid : e'.schemaPageID = e.schemaPageID) (hentry : e'.tables.map entry = e.tables.map entry)
    (hroot : ∀ t ∈ e'.tables, Rooted (C.mem e'.pager) S' t) : Sound C e' where
  ok := ok
  inv := hkept.inv
  schema := by
    obtain ⟨p, hp, hperm⟩ := h.schema
    refine ⟨p, ?_, hentry ▸ hperm⟩
    rw [hid]
    exact hp.kept hkept
  names := by
    rw [map_name, hentry, ← map_name]
    exact h.names
  nameOk t ht := by
    have hmem : entry t ∈ e.tables.map entry := hentry ▸ List.mem_map_of_mem ht
    obtain ⟨t', ht', heq⟩ := List.mem_map.mp hmem
    have hname : t'.name = t.name := congrArg Prod.fst heq
    exact hname ▸ h.nameOk t' ht'
  rooted := ⟨S', hkept.nodes, hroot⟩

theorem Sound.of_pager (h : Sound C e) {s' : σ} (ok : C.Ok s')
    (hkept : ∀ S, Nodes (C.mem e.pager) S → Kept (C.mem e.pager) (C.mem s') S S) :
    Sound C { e with pager := s' } := by
  obtain ⟨S, hn, hroot⟩ := h.rooted
  have hkept' : Kept (C.mem e.pager) (C.mem ({ e with pager := s' } : StorageEngine σ).pager) S S := hkept S hn
  exact h.of_kept hkept' ok rfl rfl fun t ht => hkept'.rooted (hroot t ht) (hroot t ht).root

theorem Sound.of_schema (h : Sound C e) (hn : Nodes (C.mem e.pager) S) {s' : σ} {tables : List Table}
    {p p' : SchemaPage} (hp : SchemaAt (C.mem e.pager) e.schemaPageID p) (ok : C.Ok s')
    (hm : C.mem s' = (C.mem e.pager).set e.schemaPageID (.schema p'))
    (hperm : p'.tables.Perm (tables.map entry)) (hnames : (tables.map Table.name).Nodup)
    (hnameOk : ∀ t ∈ tables, SchemaPage.NameOk t.name) (hroot : ∀ t ∈ tables, Rooted (C.mem e.pager) S t) :
    Sound C { e with pager := s', tables := tables } := by
  obtain ⟨N, hinv⟩ := h.inv
  obtain ⟨hinv', hlive, hat, hp'⟩ := hp.set hinv p'
  rw [← hm] at hinv' hlive hat hp'
  refine ⟨ok, ⟨N, hinv'⟩, ⟨p', hp', hperm⟩, hnames, hnameOk, S, hn.congr fun x _ => congrFun hat x,
    fun t ht => ?_⟩
  obtain ⟨hr, q, hq, hne, hmem⟩ := hroot t ht
  refine ⟨hr, q, ⟨hlive ▸ hq.1, ?_⟩, hne, hmem⟩
  have hid : t.tablePageID ≠ e.schemaPageID := by
    rintro heq
    exact hp.not_table q (heq ▸ hq)
  change (C.mem s').view _ = _
  rw [hm, Mem.set_of_ne hid, hq.2]

/-- The program keeps the invariant, however it ends. -/
def KeepsSound (C : LawfulCache σ) (q : EngineM σ α) (e : StorageEngine σ) : Prop :=
  q.wp e (fun _ => Sound C) (fun _ => Sound C) fun _ => True

theorem KeepsSound.map {β : Type} {q : EngineM σ α} (h : KeepsSound C q e) (f : α → β) :
    KeepsSound C (do return f (← q)) e := wp_bind.mpr h

theorem Sound.keeps_createTable (h : Sound C e) (name : List Byte) (types : Tuple) :
    KeepsSound C (createTable C.toCacheOps name types) e := by
  obtain ⟨N, hinv⟩ := h.inv
  obtain ⟨S, hn, hroot⟩ := h.rooted
  obtain ⟨p, hp, hperm⟩ := h.schema
  cases herr : nameError e.tables name with
  | some x =>
    have hcheck := checkName_eq name e
    rw [herr] at hcheck
    exact wp_bind.mpr ((wp_of_throw hcheck).mpr h)
  | none =>
    have hcheck := checkName_eq name e
    rw [herr] at hcheck
    obtain ⟨hname, hnew⟩ := nameError_eq_none.mp herr
    refine wp_bind.mpr ((wp_of_ok hcheck).mpr (wp_bind.mpr (wp_zoom.mpr ?_)))
    refine wp_mono (wp_create h.ok hinv name types) ?_ ?_ fun _ hA => hA
    · rintro t s' ⟨ok', rfl, hne, hcreated⟩
      -- the pages of the new table are new, so that every old table keeps its own
      have hkept := kept_of_created hcreated hn
      have hroot' : ∀ t' ∈ e.tables, Rooted (C.mem s') (Insert.insert t.rootPageID S) t' := fun t' ht' =>
        hkept.rooted (hroot t' ht') (hkept.sub (hroot t' ht').root)
      have h₁ : Sound C { e with pager := s' } := h.of_kept hkept ok' rfl rfl hroot'
      obtain ⟨N', hinv'⟩ := hkept.inv
      have hp' : SchemaAt (C.mem s') e.schemaPageID p := hp.kept hkept
      have hfst : t.name ∉ p.tables.map Prod.fst := by
        rw [(hperm.map Prod.fst).mem_iff, ← map_name]
        exact hnew
      refine wp_bind.mpr ((wp_change _).mpr ?_)
      refine wp_onSchemaPage ok' hinv' hp' (wp_addTable hfst (fun _ => ⟨rfl, ?_⟩) trivial)
      intro s'' ok'' hm''
      refine h₁.of_schema hkept.nodes hp' ok'' hm'' ?_ ?_ ?_ ?_
      · rw [List.map_append]
        exact hperm.append_right _
      · rw [List.map_append, List.nodup_append]
        refine ⟨h.names, List.nodup_singleton _, fun a ha b hb => ?_⟩
        rintro rfl
        exact hnew (List.mem_singleton.mp hb ▸ ha)
      · intro t' ht'
        rcases List.mem_append.mp ht' with ht' | ht'
        · exact h.nameOk t' ht'
        · exact List.mem_singleton.mp ht' ▸ hname
      · intro t' ht'
        rcases List.mem_append.mp ht' with ht' | ht'
        · exact hroot' t' ht'
        · obtain rfl := List.mem_singleton.mp ht'
          exact rooted_of_created hcreated hne
    · rintro x s' ⟨ok', hlost⟩
      exact h.of_pager ok' fun S hn => hlost.kept hinv hn

theorem Sound.keeps_dropTable (h : Sound C e) (name : List Byte) :
    KeepsSound C (dropTable C.toCacheOps name) e := by
  obtain ⟨N, hinv⟩ := h.inv
  obtain ⟨S, hn, hroot⟩ := h.rooted
  obtain ⟨p, hp, hperm⟩ := h.schema
  by_cases hmem : name ∈ e.tables.map Table.name
  · obtain ⟨t', ht', hname'⟩ := List.mem_map.mp hmem
    obtain ⟨i, t, s', ht, hname, hrun, ok', hm'⟩ :=
      dropTable_of_mem h.ok hinv hp hperm (hname' ▸ h.nameOk t' ht') hmem
    have hsub : (e.tables.eraseIdx i).Sublist e.tables := List.eraseIdx_sublist ..
    refine (wp_of_ok hrun).mpr (h.of_schema hn hp ok' hm' ?_ (h.names.sublist (hsub.map _))
      (fun t' ht' => h.nameOk t' (hsub.mem ht')) fun t' ht' => hroot t' (hsub.mem ht'))
    rw [← filter_entries h.names ht hname]
    exact hperm.filter _
  · exact (wp_of_throw (dropTable_of_not_mem hmem)).mpr h

theorem Sound.keeps_getTableNames (h : Sound C e) : KeepsSound C (getTableNames C.toCacheOps) e := by
  obtain ⟨N, hinv⟩ := h.inv
  obtain ⟨p, hp, hperm⟩ := h.schema
  refine KeepsSound.map (wp_onSchemaPage h.ok hinv hp ((wp_gets _).mpr ⟨rfl, fun s' ok' hm' => ?_⟩)) _
  rw [Mem.set_eq_self hp.2] at hm'
  exact h.of_pager ok' fun S hn => .of_eq hm' hinv hn

theorem Sound.keeps_onTable (h : Sound C e) (name : List Byte) {q : TableM σ α}
    (hq : ∀ st S, st.pager = e.pager → Nodes (C.mem st.pager) S → Rooted (C.mem st.pager) S st.table →
      Keeps C S q st) : KeepsSound C (onTable name q) e := by
  obtain ⟨S, hn, hroot⟩ := h.rooted
  refine wp_bind.mpr ((wp_gets _).mpr ?_)
  cases hidx : e.tables.findIdx? fun t => t.name == name with
  | none => exact h
  | some i =>
    obtain ⟨hi, -⟩ := List.findIdx?_eq_some_iff_getElem.mp hidx
    have ht : e.tables[i]? = some e.tables[i] := List.getElem?_eq_getElem hi
    have hmem : e.tables[i] ∈ e.tables := List.getElem_mem hi
    have hpost : ∀ st' : TableState σ, C.Ok st'.pager → (∃ S', Kept (C.mem e.pager) (C.mem st'.pager) S S' ∧
        st'.table.rootPageID ∈ S' ∧
        st'.table = { e.tables[i] with rootPageID := st'.table.rootPageID }) →
        Sound C { e with pager := st'.pager, tables := e.tables.set i st'.table } := by
      rintro ⟨s', t'⟩ ok' ⟨S', hkept, hr, ht'⟩
      refine h.of_kept hkept ok' rfl ?_ fun t₁ ht₁ => ?_
      · have hentry : entry t' = entry e.tables[i] := by rw [show t' = _ from ht']; rfl
        rw [List.map_set, hentry, ← List.getElem_map entry (h := by simpa using hi), List.set_getElem_self]
      · rcases List.mem_or_eq_of_mem_set ht₁ with ht₁ | rfl
        · exact hkept.rooted (hroot t₁ ht₁) (hkept.sub (hroot t₁ ht₁).root)
        · rw [show t₁ = _ from ht']
          exact hkept.rooted (hroot _ hmem) hr
    refine wp_bind.mpr (wp_at?.mpr ⟨fun t₁ ht₁ => ?_, fun _ => trivial⟩)
    obtain rfl : e.tables[i] = t₁ := Option.some.inj (ht.symm.trans ht₁)
    refine wp_bind.mpr (wp_zoom.mpr ?_)
    refine wp_mono (hq ⟨e.pager, e.tables[i]⟩ S rfl hn (hroot _ hmem)) ?_ ?_ fun _ hA => hA
    · exact fun a st' hst' => hpost st' hst'.1 hst'.2
    · exact fun x st' hst' => hpost st' hst'.1 hst'.2

/-- Every call keeps the invariant. -/
theorem Sound.keeps (h : Sound C e) (op : EngineOp) (fuel : ℕ) :
    KeepsSound C (op.run C.toCacheOps fuel) e := by
  obtain ⟨N, hinv⟩ := h.inv
  have hrow : ∀ (op : TupleOp) (st : TableState σ) (S : Set ℕ), st.pager = e.pager →
      Nodes (C.mem st.pager) S → Rooted (C.mem st.pager) S st.table → Keeps C S (op.run C.toCacheOps fuel) st :=
    fun op st S hpager hn hr => op.keeps st (hpager ▸ h.ok) (hpager ▸ hinv) hn hr fuel
  have hpage : ∀ {β : Type} (f : TablePage → β) (st : TableState σ) (S : Set ℕ), st.pager = e.pager →
      Nodes (C.mem st.pager) S → Rooted (C.mem st.pager) S st.table →
      Keeps C S (do return f (← tablePage C.toCacheOps)) st :=
    fun f st S hpager hn hr => keeps_tablePage st (hpager ▸ h.ok) (hpager ▸ hinv) hn hr f
  cases op with
  | createTable name types => exact (h.keeps_createTable name types).map _
  | dropTable name => exact (h.keeps_dropTable name).map _
  | getTableNames => exact h.keeps_getTableNames.map _
  | getTableTypes name => exact (h.keeps_onTable name (hpage TablePage.types)).map _
  | getNumTuples name => exact (h.keeps_onTable name (hpage TablePage.numTuples)).map _
  | insertTuple name values =>
    refine KeepsSound.map (KeepsSound.map (h.keeps_onTable name fun st S hpager hn hr => ?_) _) _
    exact wp_bind.mp (hrow (.insert values) st S hpager hn hr)
  | updateTuple name values =>
    refine KeepsSound.map (KeepsSound.map (h.keeps_onTable name fun st S hpager hn hr => ?_) _) _
    exact wp_bind.mp (hrow (.update values) st S hpager hn hr)
  | removeTuple name key =>
    refine KeepsSound.map (KeepsSound.map (h.keeps_onTable name fun st S hpager hn hr => ?_) _) _
    exact keeps_deleteTuple st (hpager ▸ h.ok) (hpager ▸ hinv) hn hr key
  | getTuple name key =>
    refine KeepsSound.map (KeepsSound.map (h.keeps_onTable name fun st S hpager hn hr => ?_) _) _
    exact wp_bind.mp (hrow (.read key) st S hpager hn hr)

def Loaded (m : Mem) (t : Table) : Prop :=
  ∃ p, TableAt m t.tablePageID p ∧ t.degree = tableDegree p.types ∧ t.rootPageID = p.btreePageID

theorem loadTables_eq {s : σ} (ok : C.Ok s) (hinv : Inv (C.mem s) N) {l : List (List Byte × ℕ)}
    (hl : ∀ x ∈ l, ∃ p, TableAt (C.mem s) x.2 p ∧ p.types ≠ [] ∧ p.btreePageID ∈ S) :
    ∃ tables s', loadTables C.toCacheOps l s = .ok tables s' ∧ C.Ok s' ∧ C.mem s' = C.mem s ∧
      tables.map entry = l ∧ ∀ t ∈ tables, Rooted (C.mem s) S t ∧ Loaded (C.mem s) t := by
  induction l generalizing s with
  | nil => exact ⟨[], s, rfl, ok, rfl, rfl, nofun⟩
  | cons x l ih =>
    obtain ⟨p, hp, hne, hmem⟩ := hl x List.mem_cons_self
    have hload : C.Returns (load C.toCacheOps x.1 x.2) (C.mem s)
        ⟨x.1, x.2, tableDegree p.types, p.btreePageID⟩ (C.mem s) :=
      (returns_readDegree hinv hp hne).bind ((returns_readTablePage hinv hp).bind (returns_pure _ _))
    obtain ⟨s₁, hs₁, ok₁, hm₁⟩ := hload.start ok
    obtain ⟨tables, s', hs', ok', hm', hentry, hroot⟩ := ih ok₁ (hm₁ ▸ hinv) fun x hx => by
      rw [hm₁]
      exact hl x (List.mem_cons_of_mem _ hx)
    refine ⟨⟨x.1, x.2, tableDegree p.types, p.btreePageID⟩ :: tables, s', ?_, ok', hm'.trans hm₁, ?_, ?_⟩
    · rw [loadTables, bind_ok hs₁, bind_ok hs']
      rfl
    · rw [List.map_cons, hentry]
      rfl
    · rw [hm₁] at hroot
      intro t ht
      rcases List.mem_cons.mp ht with rfl | ht
      · exact ⟨⟨hmem, p, hp, hne, hmem⟩, p, hp, rfl, rfl⟩
      · exact hroot t ht

/-- The states of an engine that is opened on an empty schema page, used and opened again. -/
inductive Run (C : LawfulCache σ) : StorageEngine σ → Prop
  | start {s s' : σ} {live : Finset ℕ} {id : ℕ} {tables : List Table} : Pager.Run C s live → id ∈ live →
      C.view s id = some (.schema (.new id)) → readTables C.toCacheOps id s = .ok tables s' → Run C ⟨s', tables, id⟩
  | reopen {e : StorageEngine σ} {s' : σ} {tables : List Table} : Run C e →
      readTables C.toCacheOps e.schemaPageID e.pager = .ok tables s' → Run C ⟨s', tables, e.schemaPageID⟩
  | returns {e e' : StorageEngine σ} {r : EngineReply} (op : EngineOp) (fuel : ℕ) : Run C e →
      op.run C.toCacheOps fuel e = .ok r e' → Run C e'
  | throws {e e' : StorageEngine σ} {x : Exn} (op : EngineOp) (fuel : ℕ) : Run C e →
      op.run C.toCacheOps fuel e = .throw x e' → Run C e'

theorem readTables_eq {s : σ} (ok : C.Ok s) (hinv : Inv (C.mem s) N) {id : ℕ} {p : SchemaPage}
    (hp : SchemaAt (C.mem s) id p)
    (hl : ∀ x ∈ p.tables, ∃ q, TableAt (C.mem s) x.2 q ∧ q.types ≠ [] ∧ q.btreePageID ∈ S) :
    ∃ tables s', readTables C.toCacheOps id s = .ok tables s' ∧ C.Ok s' ∧ C.mem s' = C.mem s ∧
      tables.map entry = p.tables ∧ ∀ t ∈ tables, Rooted (C.mem s) S t ∧ Loaded (C.mem s) t := by
  obtain ⟨s₁, hs₁, ok₁, hm₁⟩ := (returns_readSchemaPage hinv hp).start ok
  obtain ⟨tables, s', hs', ok', hm', hentry, hroot⟩ := loadTables_eq ok₁ (hm₁ ▸ hinv) (hm₁ ▸ hl)
  refine ⟨tables, s', ?_, ok', hm'.trans hm₁, hentry, hm₁ ▸ hroot⟩
  obtain ⟨x, t, hget, hderef⟩ := ok_of_bind hs₁
  rw [readTables, bind_ok hget, bind_ok hderef]
  exact hs'

/-- The engine can be opened again, and has the same tables then. -/
theorem Sound.readTables_eq (h : Sound C e)
    (hroot : ∀ t ∈ e.tables, Rooted (C.mem e.pager) S t) {p : SchemaPage}
    (hp : SchemaAt (C.mem e.pager) e.schemaPageID p) (hperm : p.tables.Perm (e.tables.map entry)) :
    ∃ tables s', readTables C.toCacheOps e.schemaPageID e.pager = .ok tables s' ∧ C.Ok s' ∧
      C.mem s' = C.mem e.pager ∧ tables.map entry = p.tables ∧
      ∀ t ∈ tables, Rooted (C.mem e.pager) S t ∧ Loaded (C.mem e.pager) t := by
  obtain ⟨N, hinv⟩ := h.inv
  refine StorageEngine.readTables_eq h.ok hinv hp fun x hx => ?_
  obtain ⟨t, ht, rfl⟩ := List.mem_map.mp (hperm.mem_iff.mp hx)
  exact (hroot t ht).page

theorem Sound.reopen (h : Sound C e) {s' : σ} {tables : List Table}
    (hread : readTables C.toCacheOps e.schemaPageID e.pager = .ok tables s') :
    Sound C ⟨s', tables, e.schemaPageID⟩ ∧ (tables.map entry).Perm (e.tables.map entry) := by
  obtain ⟨N, hinv⟩ := h.inv
  obtain ⟨S, hn, hroot⟩ := h.rooted
  obtain ⟨p, hp, hperm⟩ := h.schema
  obtain ⟨tables', s₁, hs₁, ok', hm', hentry, hroot'⟩ := h.readTables_eq hroot hp hperm
  rw [hread] at hs₁
  cases hs₁
  have hperm' : (tables.map entry).Perm (e.tables.map entry) := hentry ▸ hperm
  refine ⟨⟨ok', ⟨N, hm' ▸ hinv⟩, ⟨p, ?_, hentry ▸ List.Perm.refl _⟩, ?_, fun t ht => ?_, S, ?_, ?_⟩, hperm'⟩
  · rw [hm']
    exact hp
  · rw [map_name, (hperm'.map Prod.fst).nodup_iff, ← map_name]
    exact h.names
  · obtain ⟨t', ht', heq⟩ := List.mem_map.mp (hperm'.mem_iff.mp (List.mem_map_of_mem ht))
    have hname : t'.name = t.name := congrArg Prod.fst heq
    exact hname ▸ h.nameOk t' ht'
  · rw [hm']
    exact hn
  · rw [hm']
    exact fun t ht => (hroot' t ht).1

theorem Run.sound (h : Run C e) : Sound C e := by
  induction h with
  | @start s s' live id tables hrun hid hview hread =>
    obtain ⟨ok, rfl, N, hinv⟩ := hrun.inv
    exact ((sound_empty ok hinv ⟨hid, hview⟩).reopen hread).1
  | reopen _ hread ih => exact (ih.reopen hread).1
  | @returns e e' r op fuel _ hrun ih => exact (wp_of_ok hrun).mp (ih.keeps op fuel)
  | @throws e e' x op fuel _ hrun ih => exact (wp_of_throw hrun).mp (ih.keeps op fuel)

theorem remaining_setSchema {N id : ℕ} {p p' : SchemaPage} (hinv : Inv m N) (hp : SchemaAt m id p) :
    remaining (m.set id (.schema p')) = remaining m := by
  rw [remaining, (hp.set hinv p').2.1, remaining]

/-- With a good name, room on the schema page and two pages left the table is created: it is in the list of tables,
on the schema page and on its own page. -/
theorem Sound.exists_createTable (h : Sound C e) (name : List Byte) (types : Tuple)
    (herr : nameError e.tables name = none) (hacc : TablePage.Accepts types) (hlen : e.tables.length < 31)
    (hrem : 2 ≤ remaining (C.mem e.pager)) : ∃ e' t p, createTable C.toCacheOps name types e = .ok () e' ∧
      e'.tables = e.tables ++ [t] ∧ t.name = name ∧
      C.view e'.pager e'.schemaPageID = some (.schema p) ∧ entry t ∈ p.tables ∧
      C.view e'.pager t.tablePageID = some (.table ⟨t.tablePageID, types, t.rootPageID, 0⟩) ∧
      nodeAt (C.mem e'.pager) t.rootPageID = some (.new (tableDegree types) PGID_INVALID true true t.rootPageID) ∧
      remaining (C.mem e.pager) = remaining (C.mem e'.pager) + 2 := by
  obtain ⟨N, hinv⟩ := h.inv
  obtain ⟨S, hn, -⟩ := h.rooted
  obtain ⟨p, hp, hperm⟩ := h.schema
  rcases create_cases name h.ok hinv hacc with ⟨h0, -⟩ | ⟨h1, -⟩ | ⟨-, t, s₁, hs₁, ok₁, hname, -, hcreated⟩
  · omega
  · omega
  obtain ⟨N₁, hinv₁⟩ := hcreated.inv
  have hp₁ := hp.kept (kept_of_created hcreated hn)
  obtain ⟨s', hrun, ok', hm'⟩ := createTable_of_ok herr hs₁ ok₁ hinv₁ hp₁ hperm hlen hname
  have hne : t.tablePageID ≠ e.schemaPageID := fun heq => hcreated.page_new (heq ▸ hp.1)
  refine ⟨_, t, { p with tables := p.tables ++ [entry t] }, hrun, rfl, hname, ?_, List.mem_append_right _
    (List.mem_singleton_self _), ?_, ?_, ?_⟩
  · exact (congrFun (congrArg Mem.view hm') _).trans (Mem.set_self ..)
  · exact (congrFun (congrArg Mem.view hm') _).trans ((Mem.set_of_ne hne ..).trans hcreated.page.2)
  · change nodeAt (C.mem s') _ = _
    rw [hm', (hp₁.set hinv₁ _).2.2.1, hcreated.root, hcreated.degree]
  · change _ = remaining (C.mem s') + 2
    rw [hm', remaining_setSchema hinv₁ hp₁]
    exact remaining_of_created hcreated

/-- The names of the tables are distinct, and the schema page has them and their pages and no others. -/
def Agrees (C : LawfulCache σ) (e : StorageEngine σ) : Prop :=
  (e.tables.map Table.name).Nodup ∧ ∃ p, C.view e.pager e.schemaPageID = some (.schema p) ∧
    (p.tables.map Prod.fst).Nodup ∧ ∀ x, x ∈ p.tables ↔ x ∈ e.tables.map fun t => (t.name, t.tablePageID)

/-- Tables and schema agree after every run. -/
theorem agrees_of_run (h : Run C e) : Agrees C e := by
  obtain ⟨p, hp, hperm⟩ := h.sound.schema
  refine ⟨h.sound.names, p, hp.2, ?_, fun x => hperm.mem_iff⟩
  rw [(hperm.map Prod.fst).nodup_iff, ← map_name]
  exact h.sound.names

theorem exists_opened : ∃ s live id s', Pager.Run Mem.cache s live ∧ id ∈ live ∧
    Mem.cache.view s id = some (.schema (.new id)) ∧ readTables Mem.cache.toCacheOps id s = .ok [] s' ∧
      remaining (Mem.cache.mem s') = 65341 := by
  obtain ⟨ok, hlive, N, hinv⟩ := run_empty.inv
  have hcap : capacity = 65342 := rfl
  obtain ⟨id, m', hret, -, -, -, hview, -, hstep⟩ := returns_createNewPage (C := Mem.cache) hinv
    (show PageArgs.Accepts .schema from trivial) (by rw [hlive, hcap]; decide)
  obtain ⟨s, hs, -, rfl⟩ := hret.start ok
  have hrun : Pager.Run Mem.cache s (Insert.insert id ∅) := run_empty.create hs
  obtain ⟨ok', hlive', N', hinv'⟩ := hrun.inv
  have hp : SchemaAt (Mem.cache.mem s) id (.new id) := ⟨hlive' ▸ Finset.mem_insert_self .., hview⟩
  obtain ⟨tables, s', hs', -, hm', hentry, -⟩ := readTables_eq (S := ∅) ok' hinv' hp nofun
  obtain rfl : tables = [] := List.map_eq_nil_iff.mp hentry
  refine ⟨s, _, id, s', hrun, Finset.mem_insert_self .., hview, hs', ?_⟩
  rw [hm', remaining, hlive', hcap]
  rfl

theorem exists_run_empty : ∃ e, Run Mem.cache e ∧ e.tables = [] ∧ remaining (Mem.cache.mem e.pager) = 65341 := by
  obtain ⟨s, live, id, s', hrun, hid, hview, hread, hrem⟩ := exists_opened
  exact ⟨_, .start hrun hid hview hread, rfl, hrem⟩

theorem exists_run_table : ∃ e e', Run Mem.cache e ∧ e.tables = [] ∧
    createTable Mem.cache.toCacheOps [97] [.int 0] e = .ok () e' ∧ Run Mem.cache e' ∧
      e'.tables.map Table.name = [[97]] ∧ remaining (Mem.cache.mem e'.pager) = 65339 := by
  obtain ⟨e, h, hempty, hrem⟩ := exists_run_empty
  obtain ⟨e', t, p, hrun, htables, hname, -, -, -, -, hrem'⟩ := h.sound.exists_createTable [97]
    [.int 0] (by rw [hempty]; rfl) ⟨by simp, by decide⟩ (by rw [hempty]; decide) (by omega)
  refine ⟨e, e', h, hempty, hrun, h.returns (.createTable [97] [.int 0]) 0 (bind_ok hrun), ?_, by omega⟩
  rw [htables, hempty, List.nil_append, List.map_singleton, hname]

/-- An engine on an empty file, before and after a table is created. -/
theorem agrees_empty : ∃ e e', Run Mem.cache e ∧ Agrees Mem.cache e ∧
    createTable Mem.cache.toCacheOps [97] [.int 0] e = .ok () e' ∧ e'.tables.map Table.name = [[97]] ∧
      Agrees Mem.cache e' := by
  obtain ⟨e, e', h, -, hrun, h', hnames, -⟩ := exists_run_table
  exact ⟨e, e', h, agrees_of_run h, hrun, hnames, agrees_of_run h'⟩

end Kndb.StorageEngine
