import Kndb.FileCache.Lockstep
import Kndb.StorageEngine.Lockstep
import Kndb.StorageEngine.Queries

/-!
# The engine and the bytes of its file

The whole stack, from the calls of the engine down to the bytes that `pwrite` puts into the file.  Between two
processes only the bytes are left.
-/

namespace Kndb

open Imp Imp.Prog FileCache

def FileCache.Lists (order : List ℕ) (s : FileCache) : Prop :=
  order.Nodup ∧ ∀ id, id ∈ order ↔ (s.cache.map id).isSome = true

namespace StorageEngine

variable {d w n fuel : ℕ} {e e₁ : StorageEngine FileCache} {e' : StorageEngine (PageCache Page Block)} {K : Catalog}
variable {op : EngineOp} {order : List ℕ} {capacity : ℕ} {objects : ℕ → Page} {junk : ℕ → Junk}

/-- The destructor of the cache writes its pages in the order of the hash map, and an engine is opened on the bytes
of the file, with a new handler and a new cache. -/
def reopenFile (order : List ℕ) (capacity : ℕ) (objects : ℕ → Page) (junk : ℕ → Junk) : EngineM FileCache Unit := do
  onPager (flush order)
  change fun e => { e with pager := .new capacity (.new e.pager.ioHandler.file) objects junk }
  let tables ← onPager (readTables cacheOps (← gets StorageEngine.schemaPageID))
  change fun e => { e with tables := tables }

theorem holds_new {io : IOHandler} {disk : IOHandler.Disk} (h : IOHandler.Holds io disk) (hd : Grown disk) :
    IOHandler.Holds (.new io.file) disk := by
  have hlt := hd.length_lt
  refine ⟨?_, h.file⟩
  change io.file.length / PG_SZ % 2 ^ 32 = disk.length
  rw [h.length, Nat.mul_div_cancel _ (by decide), Nat.mod_eq_of_lt (by omega)]

theorem stores_empty (capacity : ℕ) (objects : ℕ → Page) (junk : ℕ → Junk) :
    Stores (.new capacity (.new []) objects junk) (.new capacity 0 (fun _ => IOHandler.zeros.1) objects junk) :=
  ⟨[], ⟨rfl, rfl⟩, ⟨0, Nat.zero_le _, (Nat.zero_mul _).symm⟩, rfl⟩

theorem lockstep_reopenFile (order : List ℕ) (capacity : ℕ) (objects : ℕ → Page) (junk : ℕ → Junk) :
    Lockstep (Alongside Stores) (reopenFile order capacity objects junk) (restart order capacity objects junk) := by
  refine (lockstep_onPager (lockstep_flush order)).bind fun _ => (Prog.lockstep_change ?_).bind fun _ => ?_
  · rintro e e' ⟨⟨disk, hio, hd, heq⟩, htables, hschema⟩
    refine ⟨⟨disk, holds_new hio hd, hd, ?_⟩, htables, hschema⟩
    change PageCache.new capacity e'.pager.numBlocks e'.pager.blocks objects junk = _
    rw [heq]
    rfl
  · refine (lockstep_gets fun _ _ he => he.schemaPageID).bind fun id => ?_
    refine (lockstep_onPager (lockstep_readTables lockstep_cacheOps id)).bind fun tables => ?_
    exact lockstep_changeTables fun _ => tables

theorem Alongside.lists (h : Alongside Stores e e') :
    StorageEngine.Lists order e'.pager ↔ FileCache.Lists order e.pager := by
  obtain ⟨disk, -, -, heq⟩ := h.pager
  rw [heq]
  rfl

/-- What happens to an engine: a call, whose exceptions are caught, or the end of the process and the beginning of
another one. -/
inductive Act where
  | call (op : EngineOp) (fuel : ℕ)
  | reopen (order : List ℕ) (capacity : ℕ) (objects : ℕ → Page) (junk : ℕ → Junk)

section

variable {Ref σ : Type} (C : CacheOps Ref σ) (reopen : List ℕ → ℕ → (ℕ → Page) → (ℕ → Junk) → EngineM σ Unit)

def Act.run : Act → EngineM σ (Except Exn EngineReply)
  | .call op fuel => attempt (op.run C fuel)
  | .reopen order capacity objects junk => do
    reopen order capacity objects junk
    return .ok .done

def runActs : List Act → EngineM σ (List (Except Exn EngineReply))
  | [] => return []
  | act :: acts => do
    let r ← act.run C reopen
    return r :: (← runActs acts)

/-- An engine is opened as in `main`, before anything happens to it. -/
def runNew (acts : List Act) : EngineM σ (List (Except Exn EngineReply)) := do
  let tables ← onPager (openNew C)
  change fun e => { e with tables := tables }
  runActs C reopen acts

end

theorem lockstep_runActs (acts : List Act) :
    Lockstep (Alongside Stores) (runActs cacheOps reopenFile acts) (runActs PageCache.cacheOps restart acts) := by
  induction acts with
  | nil => exact lockstep_pure _
  | cons act acts ih =>
    have hact : Lockstep (Alongside Stores) (act.run cacheOps reopenFile) (act.run PageCache.cacheOps restart) := by
      cases act with
      | call op fuel => exact (EngineOp.lockstep_run lockstep_cacheOps fuel op).attempt
      | reopen order capacity objects junk => exact (lockstep_reopenFile order capacity objects junk).map _
    exact hact.bind fun r => ih.map _

/-- Whatever happens to the engine on an empty file, with a cache of any size and whatever memory holds: it ends as it
does over an array of blocks, with the same answers, and the file is the blocks one after the other. -/
theorem rel_runNew (capacity : ℕ) (objects : ℕ → Page) (junk : ℕ → Junk) (acts : List Act) :
    (runNew cacheOps reopenFile acts ⟨.new capacity (.new []) objects junk, [], SCHEMA_ID⟩).Rel (Alongside Stores)
      (runNew PageCache.cacheOps restart acts
        ⟨.new capacity 0 (fun _ => IOHandler.zeros.1) objects junk, [], SCHEMA_ID⟩) := by
  have hrun : Lockstep (Alongside Stores) (runNew cacheOps reopenFile acts)
      (runNew PageCache.cacheOps restart acts) := by
    refine (lockstep_onPager (lockstep_openNew lockstep_cacheOps)).bind fun tables => ?_
    exact (lockstep_changeTables fun _ => tables).bind fun _ => lockstep_runActs acts
  exact hrun ⟨stores_empty capacity objects junk, rfl, rfl⟩

/-- The states of an engine that `main` opens on an empty file, with the catalogs they stand for and the pages that
belong to no table, as long as the catalogs fit the file.  The process may end and another one open the file that it
has left.  Every cache has room for five pages more than the largest degree. -/
inductive OnFile (d : ℕ) : StorageEngine FileCache → Catalog → ℕ → Prop
  | start {capacity : ℕ} {objects : ℕ → Page} {junk : ℕ → Junk} {s : FileCache} {tables : List Table} :
      d + 5 ≤ capacity → openNew cacheOps (.new capacity (.new []) objects junk) = .ok tables s →
      OnFile d ⟨s, tables, SCHEMA_ID⟩ (fun _ => none) 1
  | call {e e₁ : StorageEngine FileCache} {K : Catalog} {w : ℕ} {r : Except Exn EngineReply} (op : EngineOp)
      (fuel : ℕ) : OnFile d e K w → op.Admissible K → op.Storable → op.Within d →
      w + (op.onCatalog K).pages ≤ Pager.capacity → op.run cacheOps fuel e = .answer r e₁ →
      OnFile d e₁ (op.onCatalog K) (w + op.left K)
  | reopen {e e₁ : StorageEngine FileCache} {K : Catalog} {w : ℕ} {order : List ℕ} {capacity : ℕ}
      {objects : ℕ → Page} {junk : ℕ → Junk} : OnFile d e K w → FileCache.Lists order e.pager → d + 5 ≤ capacity →
      reopenFile order capacity objects junk e = .ok () e₁ → OnFile d e₁ K w

/-- An engine over blocks that cannot be told apart from the one on the file. -/
structure Filed (d : ℕ) (e : StorageEngine FileCache) (K : Catalog) (w : ℕ) : Prop where
  exists_blocks : ∃ e', Housed d e' K w ∧ Alongside Stores e e'

theorem Filed.call (h : Filed d e K w) (hadm : op.Admissible K) (hop : op.Storable) (hwithin : op.Within d)
    (hroom : w + (op.onCatalog K).pages ≤ Pager.capacity) {r : Except Exn EngineReply}
    (hrun : op.run cacheOps fuel e = .answer r e₁) : Filed d e₁ (op.onCatalog K) (w + op.left K) := by
  obtain ⟨e', hhoused, he⟩ := h
  have hrel := EngineOp.lockstep_run lockstep_cacheOps fuel op he
  rw [hrun] at hrel
  obtain ⟨e₁', hrun', he'⟩ := hrel.symm.answer
  exact ⟨e₁', hhoused.answer hadm hop hwithin hroom hrun', he'⟩

/-- The engine is opened again on the bytes that it has left. -/
theorem Filed.reopen (h : Filed d e K w) (horder : FileCache.Lists order e.pager) (hcap : d + 5 ≤ capacity)
    (objects : ℕ → Page) (junk : ℕ → Junk) :
    ∃ e₁, reopenFile order capacity objects junk e = .ok () e₁ ∧ Filed d e₁ K w := by
  obtain ⟨e', hhoused, he⟩ := h
  obtain ⟨e₁', hrun', hhoused'⟩ := hhoused.restart (he.lists.mpr horder) hcap objects junk
  have hrel := lockstep_reopenFile order capacity objects junk he
  rw [hrun'] at hrel
  obtain ⟨e₁, hrun, he'⟩ := hrel.answer (x := .ok ())
  exact ⟨e₁, hrun, e₁', hhoused', he'⟩

theorem Filed.exists_lists (h : Filed d e K w) : ∃ order, FileCache.Lists order e.pager := by
  obtain ⟨e', ⟨_, _, _, -, -, hst⟩, he⟩ := h
  obtain ⟨front, back, M, hparts⟩ := hst.works.parts
  have horder : StorageEngine.Lists (PageCache.ids Page.format e'.pager (front ++ back)) e'.pager :=
    ⟨hparts.refines.toLinked.ids, fun id => hparts.refines.toLinked.map_isSome_iff.symm⟩
  exact ⟨_, he.lists.mp horder⟩

theorem exists_filed (hcap : d + 5 ≤ capacity) (objects : ℕ → Page) (junk : ℕ → Junk) :
    ∃ s, openNew cacheOps (.new capacity (.new []) objects junk) = .ok [] s ∧
      Filed d ⟨s, [], SCHEMA_ID⟩ (fun _ => none) 1 := by
  obtain ⟨t, hopen, hhoused⟩ := exists_housed hcap (fun _ => IOHandler.zeros.1) objects junk
  have hrel := lockstep_openNew lockstep_cacheOps (stores_empty capacity objects junk)
  rw [hopen] at hrel
  obtain ⟨s, hrun, hs⟩ := hrel.answer (x := .ok [])
  exact ⟨s, hrun, _, hhoused, hs, rfl, rfl⟩

theorem OnFile.filed (h : OnFile d e K w) : Filed d e K w := by
  induction h with
  | @start _ objects junk _ _ hcap hrun =>
    obtain ⟨s, hrun', hfiled⟩ := exists_filed hcap objects junk
    cases hrun.symm.trans hrun'
    exact hfiled
  | call op fuel _ hadm hop hwithin hroom hrun ih => exact ih.call hadm hop hwithin hroom hrun
  | @reopen _ _ _ _ _ _ objects junk _ horder hcap hrun ih =>
    obtain ⟨e₁, hrun', hfiled⟩ := ih.reopen horder hcap objects junk
    cases hrun.symm.trans hrun'
    exact hfiled

/-- The engine serves as its catalog, from a file of whole blocks that never gets too large for offsets of 32 bits. -/
structure ServesOnFile (d : ℕ) (e : StorageEngine FileCache) (K : Catalog) (w : ℕ) : Prop where
  answers : ∀ op : EngineOp, op.Admissible K → op.Storable → op.Within d →
    w + (op.onCatalog K).pages ≤ Pager.capacity → ∀ fuel, maxDepth ≤ fuel → ∃ r₀ r e₁,
      op.run cacheOps fuel e = .answer r e₁ ∧ op.Answers K r₀ ∧ AnswerAlike r₀ r
  reopens : ∀ order capacity objects junk, FileCache.Lists order e.pager → d + 5 ≤ capacity →
    ∃ e₁, reopenFile order capacity objects junk e = .ok () e₁
  size : e.pager.ioHandler.file.length = e.pager.ioHandler.blocks * PG_SZ
  grown : ∃ N ≤ MAX_FSMPAGES, e.pager.ioHandler.blocks = N * FSMPage.getBlocksInPage

/-- In every session, down to the bytes of the file. -/
theorem serves_of_onFile (h : OnFile d e K w) : ServesOnFile d e K w := by
  have hfiled := h.filed
  obtain ⟨e', hhoused, he⟩ := h.filed
  obtain ⟨disk, hio, ⟨N, hN, hd⟩, -⟩ := he.pager
  refine ⟨fun op hadm hop hwithin hroom fuel hfuel => ?_, fun order capacity objects junk horder hcap => ?_, ?_, N, hN,
    ?_⟩
  · obtain ⟨r₀, r, e₁', hrun', hans, halike, -⟩ := hhoused.step hadm hop hwithin hroom hfuel
    have hrel := EngineOp.lockstep_run lockstep_cacheOps fuel op he
    rw [hrun'] at hrel
    obtain ⟨e₁, hrun, -⟩ := hrel.answer
    exact ⟨r₀, r, e₁, hrun, hans, halike⟩
  · obtain ⟨e₁, hrun, -⟩ := hfiled.reopen horder hcap objects junk
    exact ⟨e₁, hrun⟩
  · rw [hio.length, hio.blocks]
  · rw [hio.blocks, hd]

/-- An engine on an empty file, and on the bytes that are left after the table of the students has been created. -/
theorem serves_first : ∃ e e₁ order e₂, ServesOnFile 83 e (fun _ => none) 1 ∧
    (EngineOp.createTable students studentTypes).run cacheOps maxDepth e = .ok .done e₁ ∧
    reopenFile order 88 blank.objects blank.junk e₁ = .ok () e₂ ∧
    ServesOnFile 83 e₂ ((EngineOp.createTable students studentTypes).onCatalog fun _ => none) 1 := by
  obtain ⟨s, hrun, -⟩ := exists_filed (d := 83) (le_refl 88) blank.objects blank.junk
  have h : OnFile 83 ⟨s, [], SCHEMA_ID⟩ (fun _ => none) 1 := .start (le_refl 88) hrun
  have hop : (EngineOp.createTable students studentTypes).Storable := ⟨by decide, by decide⟩
  have hwithin : tableDegree studentTypes ≤ 83 := by decide
  obtain ⟨r₀, r, e₁, hcall, hans, halike⟩ := (serves_of_onFile h).answers (.createTable students studentTypes)
    admissible_students hop hwithin pages_students maxDepth (le_refl maxDepth)
  obtain rfl : r₀ = .ok .done := hans
  obtain ⟨_, rfl, rfl⟩ := halike.exists_ok
  have h₁ := h.call (r := .ok .done) (.createTable students studentTypes) maxDepth admissible_students hop hwithin
    pages_students hcall
  obtain ⟨order, horder⟩ := h₁.filed.exists_lists
  obtain ⟨e₂, hreopen, -⟩ := h₁.filed.reopen horder (le_refl 88) blank.objects blank.junk
  exact ⟨_, e₁, order, e₂, serves_of_onFile h, hcall, hreopen,
    serves_of_onFile (h₁.reopen horder (le_refl 88) hreopen)⟩

theorem Filed.queries (h : Filed (tableDegree studentTypes) e (fun _ => none) 1) (third : ℕ → BitVec 64)
    (hn : 3 + n / (tableDegree studentTypes - 1) ≤ Pager.capacity) (hfuel : maxDepth ≤ fuel) :
    ∃ e₁, StorageEngine.queries cacheOps fuel third n e = .ok () e₁ ∧
      Filed (tableDegree studentTypes) e₁ (studentCatalog third n) 1 := by
  obtain ⟨e', hhoused, he⟩ := h
  obtain ⟨e₁', hhoused', hqueries⟩ := hhoused.queries third hn hfuel
  have hrel := lockstep_queries lockstep_cacheOps fuel third n he
  rw [hqueries] at hrel
  obtain ⟨e₁, hrun, he₁⟩ := hrel.answer (x := .ok ())
  exact ⟨e₁, hrun, e₁', hhoused', he₁⟩

theorem Filed.getStudent {third : ℕ → BitVec 64} {i : ℕ} (h : Filed d e (studentCatalog third n) 1)
    (hn : 3 + n / (tableDegree studentTypes - 1) ≤ Pager.capacity) (hi : i < n) (hfuel : maxDepth ≤ fuel) :
    ∃ e₁, getTuple cacheOps fuel students (.int (.ofNat 32 i)) e = .ok (some (student third i)) e₁ := by
  obtain ⟨e', hhoused, he⟩ := h
  obtain ⟨hle, hpages⟩ := pages_studentCatalog third hn
  obtain ⟨e₁', hrun'⟩ := hhoused.getTuple (.int (.ofNat 32 i)) (Function.update_self ..) rfl rfl hpages hfuel
  have hrel := lockstep_getTuple lockstep_cacheOps fuel students (.int (.ofNat 32 i)) he
  rw [hrun'] at hrel
  obtain ⟨e₁, hrun, -⟩ := hrel.answer (x := .ok _)
  refine ⟨e₁, hrun.trans ?_⟩
  rw [show (studentTable third n).rows (Vari.rank (.int (.ofNat 32 i))) = some (student third i) from
    rows_studentTable hle hi]
  rfl

/-- A process has left a file in which any other process finds the first `n` students. -/
def Leaves (e : StorageEngine FileCache) (third : ℕ → BitVec 64) (n : ℕ) : Prop :=
  (∃ order, FileCache.Lists order e.pager) ∧ ∀ order capacity objects junk, FileCache.Lists order e.pager →
    tableDegree studentTypes + 5 ≤ capacity → ∃ e₁, reopenFile order capacity objects junk e = .ok () e₁ ∧
      ∀ i < n, ∀ fuel, maxDepth ≤ fuel → ∃ e₂,
        getTuple cacheOps fuel students (.int (.ofNat 32 i)) e₁ = .ok (some (student third i)) e₂

/-- The test of `main` passes, with any cache that has room for five pages more than the degree and any number of
rows that fit the file, and all rows can be found in the file that is left, whatever has been evicted and in whatever
order the pages are written at the end. -/
theorem queries_pass {capacity : ℕ} (hcap : tableDegree studentTypes + 5 ≤ capacity)
    (hn : 3 + n / (tableDegree studentTypes - 1) ≤ Pager.capacity) (objects : ℕ → Page) (junk : ℕ → Junk)
    (third : ℕ → BitVec 64) : ∃ s, openNew cacheOps (.new capacity (.new []) objects junk) = .ok [] s ∧
      ∀ fuel, maxDepth ≤ fuel → ∃ e, queries cacheOps fuel third n ⟨s, [], SCHEMA_ID⟩ = .ok () e ∧
        Leaves e third n := by
  obtain ⟨s, hopen, h⟩ := exists_filed hcap objects junk
  refine ⟨s, hopen, fun fuel hfuel => ?_⟩
  obtain ⟨e, hqueries, he⟩ := h.queries third hn hfuel
  refine ⟨e, hqueries, he.exists_lists, fun order capacity' objects' junk' horder hcap' => ?_⟩
  obtain ⟨e₁, hreopen, he₁⟩ := he.reopen horder hcap' objects' junk'
  exact ⟨e₁, hreopen, fun i hi fuel' hfuel' => he₁.getStudent hn hi hfuel'⟩

/-- With the cache and the number of rows of `main`. -/
theorem queries_pass_million : ∃ s, openNew cacheOps (.new CACHE_SZ (.new []) blank.objects blank.junk) = .ok [] s ∧
    ∀ fuel, maxDepth ≤ fuel → ∃ e, queries cacheOps fuel (fun _ => 0) 1000000 ⟨s, [], SCHEMA_ID⟩ = .ok () e ∧
      Leaves e (fun _ => 0) 1000000 :=
  queries_pass (by decide) (by decide) blank.objects blank.junk fun _ => 0

end StorageEngine
end Kndb
