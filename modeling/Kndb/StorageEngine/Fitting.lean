import Kndb.StorageEngine.Room

namespace Kndb.StorageEngine

open Imp Imp.Prog Pager Table PageCache

variable {c d w fuel : ℕ} {V : Finset ℕ} {e : StorageEngine Mem} {e' e₁' : StorageEngine (PageCache Page Block)}
variable {K : Catalog} {op : EngineOp} {r : Except Exn EngineReply}

/-- An engine in step with one over the memory that takes no more than its pages. -/
structure Housed (d : ℕ) (e' : StorageEngine (PageCache Page Block)) (K : Catalog) (w : ℕ) : Prop where
  exists_inStep : ∃ c V e, Prepared c d e K ∧ Frugal Mem.cache e K w ∧ InStep c V e e'

/-- A call that leaves a catalog which fits the file returns or is refused for what is wrong with it. -/
theorem Housed.step (h : Housed d e' K w) (hadm : op.Admissible K) (hop : op.Storable) (hwithin : op.Within d)
    (hroom : w + (op.onCatalog K).pages ≤ Pager.capacity) (hfuel : maxDepth ≤ fuel) : ∃ r₀ r e₁',
      op.run cacheOps fuel e' = .answer r e₁' ∧ op.Answers K r₀ ∧ AnswerAlike r₀ r ∧
        Housed d e₁' (op.onCatalog K) (w + op.left K) := by
  obtain ⟨c, V, e, hprep, hfrugal, hst⟩ := h
  obtain ⟨r₀, e₁, r, e₁', hrun, hrun', -, hpost⟩ := hprep.step hst hadm hop hwithin hfuel
  have hne := hfrugal.ne_sizeLimit hadm hrun hroom
  obtain ⟨hans, halike, hprep', V', hst'⟩ := hpost hne
  exact ⟨r₀, r, e₁', hrun', hans, halike, c, V', e₁, hprep', hfrugal.call hadm hrun hne, hst'⟩

theorem Housed.answer (h : Housed d e' K w) (hadm : op.Admissible K) (hop : op.Storable) (hwithin : op.Within d)
    (hroom : w + (op.onCatalog K).pages ≤ Pager.capacity) (hrun : op.run cacheOps fuel e' = .answer r e₁') :
    Housed d e₁' (op.onCatalog K) (w + op.left K) := by
  obtain ⟨r₀, r', e₂, hrun₂, -, -, hhoused⟩ := h.step hadm hop hwithin hroom (le_refl maxDepth)
  obtain ⟨rfl, rfl⟩ := EngineOp.answer_unique hrun hrun₂
  exact hhoused

variable {order : List ℕ} {capacity : ℕ} {objects : ℕ → Page} {junk : ℕ → Junk}

theorem Housed.restart (h : Housed d e' K w) (horder : Lists order e'.pager) (hcap : d + 5 ≤ capacity)
    (objects : ℕ → Page) (junk : ℕ → Junk) : ∃ e₁',
      StorageEngine.restart order capacity objects junk e' = .ok () e₁' ∧ Housed d e₁' K w := by
  obtain ⟨c, V, e, hprep, hfrugal, hst⟩ := h
  obtain ⟨tables, e₁', W, hrun, hread, hprep', hst'⟩ := hprep.restart hst horder hcap objects junk
  exact ⟨e₁', hrun, capacity, W, _, hprep', hfrugal.reopen hread, hst'⟩

theorem exists_housed (hc : d + 5 ≤ c) (blocks : ℕ → Block) (objects : ℕ → Page) (junk : ℕ → Junk) :
    ∃ s, openNew cacheOps (.new c 0 blocks objects junk) = .ok [] s ∧
      Housed d ⟨s, [], SCHEMA_ID⟩ (fun _ => none) 1 := by
  obtain ⟨s, m, V, hrun, hlive, hprep, hst⟩ := exists_opened_inStep hc blocks objects junk
  have hfrugal := hprep.toEngineOk.frugal
  rw [show (liveIds (Mem.cache.mem m)).card = 1 by
    rw [show Mem.cache.mem m = m from rfl, hlive, Finset.card_singleton]] at hfrugal
  exact ⟨s, hrun, c, V, _, hprep, hfrugal, hst⟩

/-- The states of an engine that `main` opens on an empty file, which may be closed and opened again with another
cache, with the catalogs they stand for and the pages that belong to no table, as long as the catalogs fit the file.
Every cache has room for five pages more than the largest degree. -/
inductive Fitting (d : ℕ) : StorageEngine (PageCache Page Block) → Catalog → ℕ → Prop
  | start {capacity : ℕ} {blocks : ℕ → Block} {objects : ℕ → Page} {junk : ℕ → Junk} {s : PageCache Page Block}
      {tables : List Table} : d + 5 ≤ capacity →
      openNew cacheOps (.new capacity 0 blocks objects junk) = .ok tables s →
      Fitting d ⟨s, tables, SCHEMA_ID⟩ (fun _ => none) 1
  | call {e e' : StorageEngine (PageCache Page Block)} {K : Catalog} {w : ℕ} {r : Except Exn EngineReply}
      (op : EngineOp) (fuel : ℕ) : Fitting d e K w → op.Admissible K → op.Storable → op.Within d →
      w + (op.onCatalog K).pages ≤ Pager.capacity → op.run cacheOps fuel e = .answer r e' →
      Fitting d e' (op.onCatalog K) (w + op.left K)
  | restart {e e' : StorageEngine (PageCache Page Block)} {K : Catalog} {w : ℕ} {order : List ℕ} {capacity : ℕ}
      {objects : ℕ → Page} {junk : ℕ → Junk} : Fitting d e K w → Lists order e.pager → d + 5 ≤ capacity →
      StorageEngine.restart order capacity objects junk e = .ok () e' → Fitting d e' K w

theorem Fitting.housed (h : Fitting d e' K w) : Housed d e' K w := by
  induction h with
  | start hcap hrun =>
    obtain ⟨s', hrun', hhoused⟩ := exists_housed hcap _ _ _
    cases hrun.symm.trans hrun'
    exact hhoused
  | call op fuel _ hadm hop hwithin hroom hrun ih => exact ih.answer hadm hop hwithin hroom hrun
  | restart _ horder hcap hrun ih =>
    obtain ⟨e₁', hrun', hhoused⟩ := ih.restart horder hcap _ _
    cases hrun.symm.trans hrun'
    exact hhoused

/-- The engine serves as its catalog, and no call is refused that leaves a catalog which fits the file. -/
structure Faultless (d : ℕ) (e : StorageEngine (PageCache Page Block)) (K : Catalog) (w : ℕ) : Prop where
  answers : ∀ op : EngineOp, op.Admissible K → op.Storable → op.Within d →
    w + (op.onCatalog K).pages ≤ Pager.capacity → ∀ fuel, maxDepth ≤ fuel → ∃ r₀ r e',
      op.run cacheOps fuel e = .answer r e' ∧ op.Answers K r₀ ∧ AnswerAlike r₀ r
  restarts : ∀ order capacity objects junk, Lists order e.pager → d + 5 ≤ capacity →
    ∃ e', StorageEngine.restart order capacity objects junk e = .ok () e'

/-- Whatever is evicted, and however often the engine is opened again. -/
theorem faultless_of_fitting (h : Fitting d e' K w) : Faultless d e' K w where
  answers op hadm hop hwithin hroom fuel hfuel := by
    obtain ⟨r₀, r, e₁', hrun, hans, halike, -⟩ := h.housed.step hadm hop hwithin hroom hfuel
    exact ⟨r₀, r, e₁', hrun, hans, halike⟩
  restarts order capacity objects junk horder hcap := by
    obtain ⟨e₁', hrun, -⟩ := h.housed.restart horder hcap objects junk
    exact ⟨e₁', hrun⟩

theorem admissible_students : (EngineOp.createTable students studentTypes).Admissible fun _ => none :=
  admissible_empty ⟨by simp [studentTypes], by decide⟩ (by decide)

theorem pages_students :
    1 + Catalog.pages ((EngineOp.createTable students studentTypes).onCatalog fun _ => none) ≤ Pager.capacity := by
  have hafter : (EngineOp.createTable students studentTypes).onCatalog (fun _ => none) =
      Function.update (fun _ => none) students (some ⟨studentTypes, fun _ => none⟩) := rfl
  have hkeys : (keys fun _ => none).ncard = 0 := by simp [keys]
  rw [hafter, Catalog.pages_single, Content.pages, hkeys, Nat.zero_div]
  decide

/-- With room for 88 pages and a degree of no more than 83.  An engine on an empty file, before and after the table of
the students is created. -/
theorem faultless_first : ∃ e e₁, Faultless 83 e (fun _ => none) 1 ∧
    (EngineOp.createTable students studentTypes).run cacheOps maxDepth e = .ok .done e₁ ∧
    Faultless 83 e₁ ((EngineOp.createTable students studentTypes).onCatalog fun _ => none) 1 := by
  obtain ⟨s, hrun, -⟩ := exists_housed (d := 83) (le_refl 88) blank.blocks blank.objects blank.junk
  have h : Fitting 83 ⟨s, [], SCHEMA_ID⟩ (fun _ => none) 1 := .start (le_refl 88) hrun
  have hop : (EngineOp.createTable students studentTypes).Storable := ⟨by decide, by decide⟩
  have hwithin : tableDegree studentTypes ≤ 83 := by decide
  obtain ⟨r₀, r, e₁, hcall, hans, halike⟩ := (faultless_of_fitting h).answers (.createTable students studentTypes)
    admissible_students hop hwithin pages_students maxDepth (le_refl maxDepth)
  obtain rfl : r₀ = .ok .done := hans
  obtain ⟨_, rfl, rfl⟩ := halike.exists_ok
  exact ⟨_, e₁, faultless_of_fitting h, hcall, faultless_of_fitting (h.call (r := .ok .done)
    (.createTable students studentTypes) maxDepth admissible_students hop hwithin pages_students hcall)⟩

end Kndb.StorageEngine
