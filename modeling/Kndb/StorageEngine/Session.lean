import Kndb.StorageEngine.Refines

namespace Kndb.StorageEngine

open Imp Imp.Prog LawfulCache Pager Table

variable {σ : Type} {C : LawfulCache σ} {e e' : StorageEngine σ} {K : Catalog} {fuel : ℕ}

/-- The states of an engine that is opened on an empty schema page, with the catalogs they stand for,
as long as no page is missing that is needed. -/
inductive Session (C : LawfulCache σ) : StorageEngine σ → Catalog → Prop
  | start {s s' : σ} {live : Finset ℕ} {id : ℕ} {tables : List Table} : Pager.Run C s live → id ∈ live →
      C.view s id = some (.schema (.new id)) → readTables C.toCacheOps id s = .ok tables s' →
      Session C ⟨s', tables, id⟩ fun _ => none
  | call {e e' : StorageEngine σ} {K : Catalog} {r : Except Exn EngineReply} (op : EngineOp) (fuel : ℕ) :
      Session C e K → op.Admissible K → op.run C.toCacheOps fuel e = .answer r e' → r ≠ .error sizeLimit →
      Session C e' (op.onCatalog K)

theorem Sound.of_answer (h : Sound C e) {r : Except Exn EngineReply} (op : EngineOp)
    (hrun : op.run C.toCacheOps fuel e = .answer r e') : Sound C e' := by
  cases r with
  | ok r => exact (wp_of_ok hrun).mp (h.keeps op fuel)
  | error x => exact (wp_of_throw hrun).mp (h.keeps op fuel)

/-- A call answers as the catalog does and leaves an engine behind that stands for the new catalog, unless
no page is left. -/
theorem EngineOk.call {r : Except Exn EngineReply} {op : EngineOp} (h : EngineOk C e K) (hadm : op.Admissible K)
    (hrun : op.run C.toCacheOps fuel e = .answer r e') (hne : r ≠ .error sizeLimit) :
    op.Answers K r ∧ EngineOk C e' (op.onCatalog K) := by
  have hended : op.run C.toCacheOps fuel e ≠ .timeout := by
    rw [hrun]
    exact Outcome.answer_ne_timeout
  obtain ⟨r', e₁, hrun', hstep⟩ := h.step_of_ended hadm hended
  obtain ⟨rfl, rfl⟩ := Outcome.answer_inj (hrun.symm.trans hrun')
  obtain ⟨hans, hcat, hholds⟩ := hstep.resolve_left fun hlimit => hne hlimit.1
  exact ⟨hans, h.toSound.of_answer op hrun, hcat, hholds⟩

theorem Sound.engineOk (h : Sound C e) (hempty : e.tables = []) : EngineOk C e fun _ => none := by
  refine ⟨h, fun name => ?_, fun _ => .single 0, ?_, ?_⟩
  · simp [hempty]
  · rw [hempty]
    exact nofun
  · rw [hempty]
    exact nofun

theorem Session.engineOk (h : Session C e K) : EngineOk C e K := by
  induction h with
  | @start s s' live id tables hrun hid hview hread =>
    have hsound : Sound C ⟨s', tables, id⟩ := (Run.start hrun hid hview hread).sound
    obtain ⟨ok, rfl, N, hinv⟩ := hrun.inv
    obtain ⟨tables', s₁, hs₁, -, -, hentry, -⟩ :=
      readTables_eq (S := ∅) ok hinv (show SchemaAt (C.mem s) id (.new id) from ⟨hid, hview⟩) nofun
    rw [hread] at hs₁
    cases hs₁
    exact hsound.engineOk (List.map_eq_nil_iff.mp hentry)
  | call op fuel _ hadm hrun hne ih => exact (ih.call hadm hrun hne).2

/-- Every call returns or throws with enough fuel.  It is refused exactly if it lacks pages, and otherwise
answers as the catalog does. -/
structure Serves (C : LawfulCache σ) (e : StorageEngine σ) (K : Catalog) : Prop where
  ends : ∀ op : EngineOp, op.Admissible K → ∃ n, ∀ fuel, n ≤ fuel → ∃ r e',
    op.run C.toCacheOps fuel e = .answer r e'
  answers : ∀ (op : EngineOp) fuel r e', op.Admissible K → op.run C.toCacheOps fuel e = .answer r e' →
    r = .error sizeLimit ∧ op.Lacks (C.mem e.pager) e.tables K ∨
      ¬op.Lacks (C.mem e.pager) e.tables K ∧ op.Answers K r

/-- In every session the engine serves as its catalog. -/
theorem serves_of_session (h : Session C e K) : Serves C e K where
  ends op hadm := by
    obtain ⟨n, hn⟩ := h.engineOk.step_of_fuel hadm
    refine ⟨n, fun fuel hfuel => ?_⟩
    obtain ⟨r, e', hrun, -⟩ := hn fuel hfuel
    exact ⟨r, e', hrun⟩
  answers _ _ _ _ hadm hrun := h.engineOk.answer_cases hadm hrun

theorem admissible_empty {name : List Byte} {types : Tuple} (hacc : TablePage.Accepts types)
    (hdeg : 2 ≤ tableDegree types) : (EngineOp.createTable name types).Admissible fun _ => none := by
  refine ⟨hacc, hdeg, fun _ => ?_⟩
  have hempty : {name : List Byte | ((fun _ => none : Catalog) name).isSome} = ∅ := by
    ext name
    simp
  rw [hempty, Set.ncard_empty]
  decide

theorem admissible_first : (EngineOp.createTable [97] [.int 0]).Admissible fun _ => none :=
  admissible_empty ⟨by simp, by decide⟩ (by decide)

/-- On an empty file a table is created, and a row is inserted. -/
theorem exists_table_row {e : StorageEngine Mem} (h : Session Mem.cache e fun _ => none) (hempty : e.tables = [])
    (hrem : remaining (Mem.cache.mem e.pager) = 65341) : ∃ e₁ e₂,
      (EngineOp.createTable [97] [.int 0]).run Mem.cache.toCacheOps 0 e = .ok .done e₁ ∧
      (EngineOp.insertTuple [97] [.int 5]).run Mem.cache.toCacheOps maxDepth e₁ = .ok (.changed true) e₂ := by
  obtain ⟨e₁, t, p, hcreate, htables, hname, -, -, -, hroot, -⟩ := h.engineOk.toSound.exists_createTable [97]
    [.int 0] (by rw [hempty]; rfl) ⟨by simp, by decide⟩ (by rw [hempty]; decide) (by omega)
  have hrun₁ : (EngineOp.createTable [97] [.int 0]).run Mem.cache.toCacheOps 0 e = .ok .done e₁ := bind_ok hcreate
  have h₁ := (h.call (r := .ok .done) _ 0 admissible_first hrun₁ nofun).engineOk
  have hadm : (EngineOp.insertTuple [97] [.int 5]).Admissible
    ((EngineOp.createTable [97] [.int 0]).onCatalog fun _ => none) := rfl
  obtain ⟨r, e₂, hrun₂, -⟩ := h₁.step_of_depth hadm (le_refl maxDepth)
  rcases h₁.answer_cases hadm hrun₂ with ⟨-, c, -, -, -, t', ht', -, hpages⟩ | ⟨-, hans⟩
  · rw [htables, hempty] at ht'
    obtain rfl : t' = t := List.mem_singleton.mp ht'
    exact absurd (pagesSuffice_new (by decide) hroot _) hpages
  · have hreply : r = .ok (.changed true) := hans
    subst hreply
    exact ⟨e₁, e₂, hrun₁, hrun₂⟩

/-- An engine on an empty file, after a table is created and after a row is inserted. -/
theorem serves_empty : ∃ e e₁ e₂, Serves Mem.cache e (fun _ => none) ∧
    (EngineOp.createTable [97] [.int 0]).run Mem.cache.toCacheOps 0 e = .ok .done e₁ ∧
    Serves Mem.cache e₁ ((EngineOp.createTable [97] [.int 0]).onCatalog fun _ => none) ∧
    (EngineOp.insertTuple [97] [.int 5]).run Mem.cache.toCacheOps maxDepth e₁ = .ok (.changed true) e₂ ∧
    Serves Mem.cache e₂ ((EngineOp.insertTuple [97] [.int 5]).onCatalog
      ((EngineOp.createTable [97] [.int 0]).onCatalog fun _ => none)) := by
  obtain ⟨s, live, id, s', hrun, hid, hview, hread, hrem⟩ := exists_opened
  have h := Session.start hrun hid hview hread
  obtain ⟨e₁, e₂, hrun₁, hrun₂⟩ := exists_table_row h rfl hrem
  have h₁ := h.call (r := .ok .done) _ 0 admissible_first hrun₁ nofun
  have h₂ := h₁.call (r := .ok (.changed true)) (.insertTuple [97] [.int 5]) maxDepth rfl hrun₂ nofun
  exact ⟨_, e₁, e₂, serves_of_session h, hrun₁, serves_of_session h₁, hrun₂, serves_of_session h₂⟩

theorem tableDegree_replicate : tableDegree (List.replicate 16384 (.int 0)) = 250 := by
  have hsum : ((List.replicate 16384 (.int 0)).map db_sizeof).sum = 65536 := by
    rw [List.map_replicate, List.sum_replicate_nat]
    rfl
  have hcons : List.replicate 16384 (Vari.int 0) = .int 0 :: List.replicate 16383 (.int 0) := List.replicate_succ
  have hdeg : tableDegree (List.replicate 16384 (.int 0)) =
      calculateDegree (.int 0) (List.replicate 16384 (.int 0)) := by
    rw [hcons]
    rfl
  rw [hdeg, calculateDegree, cellSize, hsum]
  rfl

/-- 16384 columns of integers make a degree of 250, since the sum of their sizes wraps around, but they
do not fit a table page, and the process is aborted. -/
theorem serves_counterexample : ∃ e, Session Mem.cache e (fun _ => none) ∧
    2 ≤ tableDegree (List.replicate 16384 (.int 0)) ∧ ∀ fuel, ∃ msg,
      (EngineOp.createTable [97] (List.replicate 16384 (.int 0))).run Mem.cache.toCacheOps fuel e = .abort msg := by
  obtain ⟨s, live, id, s', hrun, hid, hview, hread, hrem⟩ := exists_opened
  have h := Session.start hrun hid hview hread
  refine ⟨_, h, by rw [tableDegree_replicate]; decide, fun fuel => ?_⟩
  obtain ⟨N, hinv⟩ := h.engineOk.inv
  have hargs : ¬PageArgs.Accepts (.table (List.replicate 16384 (.int 0)) PGID_INVALID) := by
    rintro ⟨-, hlen⟩
    rw [List.length_replicate] at hlen
    exact absurd hlen (by decide)
  have hfull : (liveIds (Mem.cache.mem s')).card ≠ capacity := by
    rw [ne_eq, ← remaining_eq_zero hinv, hrem]
    decide
  obtain ⟨msg, hmsg⟩ := aborts_createNewPage (C := Mem.cache) hinv hargs hfull h.engineOk.ok rfl
  have hcheck : checkName [97] (⟨s', [], id⟩ : StorageEngine Mem) = .ok () ⟨s', [], id⟩ := checkName_eq ..
  refine ⟨msg, ?_⟩
  rw [EngineOp.run, bind_apply, seq, StorageEngine.createTable, bind_ok hcheck, bind_apply, seq, onPager, zoom,
    Table.create, bind_apply, seq, hmsg]

end Kndb.StorageEngine
