import Kndb.SchemaPage.Run
import Kndb.StorageEngine.Failures

namespace Kndb.StorageEngine

open Imp Imp.Prog LawfulCache Pager Table

variable {σ α : Type} {C : LawfulCache σ} {m m' : Mem} {N : ℕ} {e e' : StorageEngine σ} {t : Table}
variable {name : List Byte} {types : Tuple} {p : SchemaPage} {s' : σ} {tables : List Table}

/-- However the program ends, the engine has at most 31 tables. -/
def KeepsSmall (q : EngineM σ α) (e : StorageEngine σ) : Prop :=
  q.wp e (fun _ e' => e'.tables.length ≤ 31) (fun _ e' => e'.tables.length ≤ 31) fun _ => True

theorem KeepsSmall.map {β : Type} {q : EngineM σ α} (h : KeepsSmall q e) (f : α → β) :
    KeepsSmall (do return f (← q)) e := wp_bind.mpr h

theorem keepsSmall_onPager (hsmall : e.tables.length ≤ 31) (q : Code σ α) : KeepsSmall (onPager q) e :=
  wp_zoom.mpr (wp_of_forall (fun _ _ => hsmall) (fun _ _ => hsmall) fun _ => trivial)

theorem keepsSmall_onSchemaPage (hsmall : e.tables.length ≤ 31) (q : Code SchemaPage α) :
    KeepsSmall (onSchemaPage C.toCacheOps q) e :=
  wp_bind.mpr ((wp_gets _).mpr (keepsSmall_onPager hsmall _))

theorem keepsSmall_onTable (hsmall : e.tables.length ≤ 31) (name : List Byte) (q : TableM σ α) :
    KeepsSmall (onTable name q) e := by
  refine wp_bind.mpr ((wp_gets _).mpr ?_)
  cases e.tables.findIdx? fun t => t.name == name with
  | none => exact hsmall
  | some i =>
    have hset : ∀ t : Table, (e.tables.set i t).length ≤ 31 := fun t => by rwa [List.length_set]
    refine wp_bind.mpr (wp_at?.mpr ⟨fun t _ => wp_bind.mpr (wp_zoom.mpr ?_), fun _ => trivial⟩)
    exact wp_of_forall (fun _ st => hset st.table) (fun _ st => hset st.table) fun _ => trivial

theorem keepsSmall_dropTable (hsmall : e.tables.length ≤ 31) (name : List Byte) :
    KeepsSmall (dropTable C.toCacheOps name) e := by
  refine wp_bind.mpr ((wp_gets _).mpr ?_)
  cases lastIndex name e.tables with
  | none => exact hsmall
  | some i =>
    have herase : (e.tables.eraseIdx i).length ≤ 31 := (List.length_eraseIdx_le ..).trans hsmall
    refine wp_bind.mpr (wp_bind.mpr ((wp_gets _).mpr (wp_zoom.mpr ?_)))
    exact wp_of_forall (fun _ _ => herase) (fun _ _ => hsmall) fun _ => trivial

theorem length_lt_of_entrySize_le (hsmall : p.tables.length ≤ 31) :
    SchemaPage.entrySize ≤ p.freeSpace ↔ p.tables.length < 31 := by
  obtain ⟨hle, hfree⟩ := SchemaPage.freeSpace_eq hsmall
  rw [hfree]
  simp only [SchemaPage.entrySize, MAX_STR_SZ, PG_SZ] at hle ⊢
  omega

theorem Sound.keepsSmall_createTable (h : Sound C e) (hsmall : e.tables.length ≤ 31) (name : List Byte)
    (types : Tuple) : KeepsSmall (createTable C.toCacheOps name types) e := by
  obtain ⟨N, hinv⟩ := h.inv
  obtain ⟨S, hn, -⟩ := h.rooted
  obtain ⟨p, hp, hperm⟩ := h.schema
  have hlen : p.tables.length = e.tables.length := by rw [hperm.length_eq, List.length_map]
  cases herr : nameError e.tables name with
  | some x => exact (wp_of_throw (createTable_of_error herr)).mpr hsmall
  | none =>
    have hcheck := checkName_eq name e
    rw [herr] at hcheck
    refine wp_bind.mpr ((wp_of_ok hcheck).mpr (wp_bind.mpr (wp_zoom.mpr ?_)))
    refine wp_mono (wp_create h.ok hinv name types) ?_ (fun _ _ _ => hsmall) fun _ hA => hA
    rintro t s' ⟨ok', rfl, -, hcreated⟩
    obtain ⟨N', hinv'⟩ := hcreated.inv
    have hp' := hp.kept (kept_of_created hcreated hn)
    have hfst : t.name ∉ p.tables.map Prod.fst := by
      rw [(hperm.map Prod.fst).mem_iff, ← map_name]
      exact (nameError_eq_none.mp herr).2
    refine wp_bind.mpr ((wp_change _).mpr (wp_onSchemaPage ok' hinv' hp' (wp_addTable hfst (fun hroom => ?_) trivial)))
    refine ⟨rfl, fun s'' _ _ => ?_⟩
    have hlt := (length_lt_of_entrySize_le (hlen ▸ hsmall)).mp hroom
    change (e.tables ++ [t]).length ≤ 31
    rw [List.length_append, List.length_singleton]
    omega

theorem Sound.keepsSmall (h : Sound C e) (hsmall : e.tables.length ≤ 31) (op : EngineOp) (fuel : ℕ) :
    KeepsSmall (op.run C.toCacheOps fuel) e := by
  cases op with
  | createTable name types => exact (h.keepsSmall_createTable hsmall name types).map _
  | dropTable name => exact (keepsSmall_dropTable hsmall name).map _
  | getTableNames => exact ((keepsSmall_onSchemaPage hsmall _).map _).map _
  | getTableTypes name => exact (keepsSmall_onTable hsmall name _).map _
  | getNumTuples name => exact (keepsSmall_onTable hsmall name _).map _
  | insertTuple name values => exact ((keepsSmall_onTable hsmall name _).map _).map _
  | updateTuple name values => exact ((keepsSmall_onTable hsmall name _).map _).map _
  | removeTuple name key => exact ((keepsSmall_onTable hsmall name _).map _).map _
  | getTuple name key => exact ((keepsSmall_onTable hsmall name _).map _).map _

theorem Run.length_le (h : Run C e) : e.tables.length ≤ 31 := by
  induction h with
  | @start s s' live id tables hrun hid hview hread =>
    obtain ⟨ok, rfl, N, hinv⟩ := hrun.inv
    have hlen := ((sound_empty ok hinv ⟨hid, hview⟩).reopen hread).2.length_eq
    rw [List.length_map] at hlen
    exact hlen.trans_le (Nat.zero_le _)
  | @reopen e s' tables hrun hread ih =>
    have hlen := (hrun.sound.reopen hread).2.length_eq
    rw [List.length_map, List.length_map] at hlen
    exact hlen.trans_le ih
  | @returns e e' r op fuel h hrun ih => exact (wp_of_ok hrun).mp (h.sound.keepsSmall ih op fuel)
  | @throws e e' x op fuel h hrun ih => exact (wp_of_throw hrun).mp (h.sound.keepsSmall ih op fuel)

/-- `createTable` throws, or the table is there afterwards: in the list of tables, on the schema page and
with its columns on its own page. -/
def Creates (C : LawfulCache σ) (e : StorageEngine σ) (name : List Byte) (types : Tuple) : Prop :=
  (∃ e' t p q, createTable C.toCacheOps name types e = .ok () e' ∧ t ∈ e'.tables ∧ t.name = name ∧
    C.view e'.pager e'.schemaPageID = some (.schema p) ∧ (name, t.tablePageID) ∈ p.tables ∧
    C.view e'.pager t.tablePageID = some (.table q) ∧ q.types = types) ∨
  ∃ x e', createTable C.toCacheOps name types e = .throw x e'

theorem creates_of_room (h : Run C e) (herr : nameError e.tables name = none) (hacc : TablePage.Accepts types)
    (hlen : e.tables.length < 31) (hrem : 2 ≤ remaining (C.mem e.pager)) : Creates C e name types := by
  obtain ⟨e', t, p, hrun, htables, hname, hp, hmem, hq, -⟩ := h.sound.exists_createTable name types herr hacc hlen hrem
  refine .inl ⟨e', t, p, _, hrun, ?_, hname, hp, ?_, hq, rfl⟩
  · rw [htables]
    exact List.mem_append_right _ (List.mem_singleton_self t)
  · rwa [← hname]

theorem not_creates_of_abort {msg : String} (h : createTable C.toCacheOps name types e = .abort msg) :
    ¬Creates C e name types := by
  rintro (⟨e', t, p, q, hrun, -⟩ | ⟨x, e', hrun⟩)
  · rw [h] at hrun
    cases hrun
  · rw [h] at hrun
    cases hrun

/-- The table page refuses its columns when a page has been taken for it. -/
theorem abort_of_not_accepts (h : Run C e) (herr : nameError e.tables name = none)
    (hacc : ¬TablePage.Accepts types) (hrem : remaining (C.mem e.pager) ≠ 0) :
    ∃ msg, createTable C.toCacheOps name types e = .abort msg := by
  obtain ⟨N, hinv⟩ := h.sound.inv
  have hargs : ¬PageArgs.Accepts (.table types PGID_INVALID) := hacc
  obtain ⟨msg, hmsg⟩ := aborts_createNewPage (C := C) hinv hargs ((remaining_eq_zero hinv).not.mp hrem) h.sound.ok rfl
  have hcheck := checkName_eq name e
  rw [herr] at hcheck
  refine ⟨msg, ?_⟩
  rw [createTable, bind_ok hcheck, bind_apply, seq, onPager, zoom, Table.create, bind_apply, seq, hmsg]

/-- The schema page has no room for the table when its pages are there. -/
theorem abort_of_full (h : Run C e) (herr : nameError e.tables name = none) (hacc : TablePage.Accepts types)
    (hrem : 2 ≤ remaining (C.mem e.pager)) (hlen : 31 ≤ e.tables.length) :
    ∃ msg, createTable C.toCacheOps name types e = .abort msg := by
  obtain ⟨N, hinv⟩ := h.sound.inv
  obtain ⟨S, hn, -⟩ := h.sound.rooted
  obtain ⟨p, hp, hperm⟩ := h.sound.schema
  have hlen' : p.tables.length = e.tables.length := by rw [hperm.length_eq, List.length_map]
  rcases create_cases name h.sound.ok hinv hacc with ⟨h0, -⟩ | ⟨h1, -⟩ | ⟨-, t, s₁, hs₁, ok₁, rfl, -, hcreated⟩
  · omega
  · omega
  obtain ⟨N₁, hinv₁⟩ := hcreated.inv
  have hp₁ := hp.kept (kept_of_created hcreated hn)
  have hcheck := checkName_eq t.name e
  rw [herr] at hcheck
  have hon : onPager (create C.toCacheOps t.name types) e = .ok t { e with pager := s₁ } := zoom_ok hs₁
  have hfst : t.name ∉ p.tables.map Prod.fst := by
    rw [(hperm.map Prod.fst).mem_iff, ← map_name]
    exact (nameError_eq_none.mp herr).2
  apply abort_of_wp
  rw [createTable, wp_bind, wp_of_ok hcheck, wp_bind, wp_of_ok hon, wp_bind, wp_change]
  refine wp_onSchemaPage ok₁ hinv₁ hp₁ (wp_addTable hfst (fun hroom => ?_) rfl)
  have hlt := (length_lt_of_entrySize_le (hlen' ▸ h.length_le)).mp hroom
  omega

theorem creates_of_remaining_eq_one (h : Run C e) (herr : nameError e.tables name = none)
    (hacc : TablePage.Accepts types) (hrem : remaining (C.mem e.pager) = 1) : Creates C e name types := by
  obtain ⟨N, hinv⟩ := h.sound.inv
  rcases create_cases name h.sound.ok hinv hacc with ⟨h0, -⟩ | ⟨-, id, s', hs', -⟩ | ⟨h2, -⟩
  · omega
  · exact .inr ⟨_, _, createTable_of_throw herr hs'⟩
  · omega

theorem creates_of_remaining_eq_zero (h : Run C e) (herr : nameError e.tables name = none)
    (hrem : remaining (C.mem e.pager) = 0) : Creates C e name types := by
  obtain ⟨N, hinv⟩ := h.sound.inv
  have hthrows : C.Throws (create C.toCacheOps name types) (C.mem e.pager) sizeLimit (C.mem e.pager) :=
    (throws_createNewPage hinv ((remaining_eq_zero hinv).mp hrem)).bind
  obtain ⟨s', hs', -⟩ := hthrows e.pager h.sound.ok rfl
  exact .inr ⟨_, _, createTable_of_throw herr hs'⟩

theorem creates_iff_of_cases {cond : Prop} (h : cond ∧ Creates C e name types ∨
      ¬cond ∧ ∃ msg, createTable C.toCacheOps name types e = .abort msg) :
    (Creates C e name types ↔ cond) ∧
      (¬Creates C e name types → ∃ msg, createTable C.toCacheOps name types e = .abort msg) := by
  rcases h with ⟨hcond, hcreates⟩ | ⟨hcond, msg, hmsg⟩
  · exact ⟨iff_of_true hcreates hcond, absurd hcreates⟩
  · exact ⟨iff_of_false (not_creates_of_abort hmsg) hcond, fun _ => ⟨msg, hmsg⟩⟩

/-- With a good name and pages left, the columns must fit a table page and the table the schema page.  Otherwise the
process is stopped. -/
theorem creates_iff (h : Run C e) : (Creates C e name types ↔
    nameError e.tables name ≠ none ∨ remaining (C.mem e.pager) = 0 ∨
      TablePage.Accepts types ∧ (remaining (C.mem e.pager) = 1 ∨ e.tables.length < 31)) ∧
    (¬Creates C e name types → ∃ msg, createTable C.toCacheOps name types e = .abort msg) := by
  apply creates_iff_of_cases
  cases herr : nameError e.tables name with
  | some x => exact .inl ⟨.inl nofun, .inr ⟨x, e, createTable_of_error herr⟩⟩
  | none =>
    rw [or_iff_right (not_not.mpr rfl)]
    by_cases h0 : remaining (C.mem e.pager) = 0
    · exact .inl ⟨.inl h0, creates_of_remaining_eq_zero h herr h0⟩
    rw [or_iff_right h0]
    by_cases hacc : TablePage.Accepts types
    · rw [and_iff_right hacc]
      by_cases h1 : remaining (C.mem e.pager) = 1
      · exact .inl ⟨.inl h1, creates_of_remaining_eq_one h herr hacc h1⟩
      rw [or_iff_right h1]
      by_cases hlen : e.tables.length < 31
      · exact .inl ⟨hlen, creates_of_room h herr hacc hlen (by omega)⟩
      · exact .inr ⟨hlen, abort_of_full h herr hacc (by omega) (Nat.le_of_not_lt hlen)⟩
    · exact .inr ⟨fun hcond => hacc hcond.1, abort_of_not_accepts h herr hacc h0⟩

/-- An engine with a table, of which any other may be asked for. -/
theorem creates_iff_empty : ∃ e, Run Mem.cache e ∧ e.tables.map Table.name = [[97]] ∧ ∀ name types,
    (Creates Mem.cache e name types ↔ nameError e.tables name ≠ none ∨ remaining (Mem.cache.mem e.pager) = 0 ∨
      TablePage.Accepts types ∧ (remaining (Mem.cache.mem e.pager) = 1 ∨ e.tables.length < 31)) ∧
    (¬Creates Mem.cache e name types → ∃ msg, createTable Mem.cache.toCacheOps name types e = .abort msg) := by
  obtain ⟨-, e, -, -, -, h, hnames, -⟩ := exists_run_table
  exact ⟨e, h, hnames, fun name types => creates_iff h⟩

/-- One without columns stops the process, although all pages are left. -/
theorem creates_counterexample : ∃ e, Run Mem.cache e ∧ remaining (Mem.cache.mem e.pager) = 65341 ∧
    (∃ msg, createTable Mem.cache.toCacheOps [97] [] e = .abort msg) ∧ ¬Creates Mem.cache e [97] [] := by
  obtain ⟨e, h, hempty, hrem⟩ := exists_run_empty
  have herr : nameError e.tables [97] = none := by
    rw [hempty]
    rfl
  obtain ⟨msg, hmsg⟩ := abort_of_not_accepts h herr (show ¬TablePage.Accepts [] from fun hacc => hacc.1 rfl) (by omega)
  exact ⟨e, h, hrem, ⟨msg, hmsg⟩, not_creates_of_abort hmsg⟩

end Kndb.StorageEngine
