import Kndb.StorageEngine.InStep
import Kndb.StorageEngine.Opening

namespace Kndb

open Imp Imp.Prog Btree Pager Table PageCache

attribute [local irreducible] Sim

namespace StorageEngine

variable {c d fuel : ℕ} {V : Finset ℕ} {e e₁ : StorageEngine Mem} {e' : StorageEngine (PageCache Page Block)}
variable {K : Catalog} {op : EngineOp} {r : Except Exn EngineReply}

def EngineOp.Within (d : ℕ) : EngineOp → Prop
  | createTable _ types => tableDegree types ≤ d
  | _ => True

theorem EngineOp.within_max (op : EngineOp) : op.Within 500 := by
  cases op with
  | createTable name types => exact tableDegree_le types
  | _ => trivial

theorem Catalog.Within.update {name : List Byte} {o : Option Content} (h : K.Within d)
    (ho : ∀ c, o = some c → tableDegree c.types ≤ d) : Catalog.Within d (Function.update K name o) := by
  intro name' c' hc'
  by_cases hname : name' = name
  · subst hname
    rw [Function.update_self] at hc'
    exact ho c' hc'
  · rw [Function.update_of_ne hname] at hc'
    exact h name' c' hc'

theorem Catalog.Within.onTable (h : K.Within d) (name : List Byte) (op : TupleOp) (missing : EngineReply) :
    (K.onTable name op missing).2.Within d := by
  rw [Catalog.onTable]
  cases hc : K name with
  | none => exact h
  | some c =>
    refine h.update fun c' hc' => ?_
    cases hc'
    exact h name c hc

theorem EngineOp.Within.onCatalog (hop : op.Within d) (h : K.Within d) : (op.onCatalog K).Within d := by
  cases op with
  | createTable name types =>
    rw [EngineOp.onCatalog]
    split_ifs
    · refine h.update fun c hc => ?_
      cases hc
      exact hop
    · exact h
  | dropTable name =>
    refine h.update fun c hc => ?_
    cases hc
  | insertTuple name values => exact Catalog.Within.onTable h name _ _
  | updateTuple name values => exact Catalog.Within.onTable h name _ _
  | _ => exact h

theorem outer_refusals : Outer (· ∈ refusals) := by
  unfold Outer
  decide

/-- Both engines answer alike and stay in step, unless no page is left to either. -/
theorem Prepared.step (h : Prepared c d e K) (hst : InStep c V e e') (hadm : op.Admissible K) (hop : op.Storable)
    (hwithin : op.Within d) (hfuel : maxDepth ≤ fuel) : ∃ r e₁ r' e₁',
      op.run Mem.cache.toCacheOps fuel e = .answer r e₁ ∧ op.run cacheOps fuel e' = .answer r' e₁' ∧
        (r' = .error sizeLimit ↔ r = .error sizeLimit) ∧
        (r ≠ .error sizeLimit → op.Answers K r ∧ AnswerAlike r r' ∧ Prepared c d e₁ (op.onCatalog K) ∧
          ∃ V, InStep c V e₁ e₁') := by
  have hlimit : Outer (· = sizeLimit) := by
    rintro x rfl
    decide
  obtain ⟨r, e₁, hrun, hpost⟩ := h.toEngineOk.step_of_depth hadm hfuel
  have hsim := h.sim_run (R := fun e e' => ∃ V, InStep c V e e') hst outer_refusals
    (fun hx => absurd hx (by decide)) (fun V _ _ hs => ⟨V, hs⟩) hadm hop hfuel
  have hfull := h.sim_run (R := fun _ _ => True) hst hlimit (fun _ _ _ => trivial)
    (fun _ _ _ _ => trivial) hadm hop hfuel
  unfold Sim at hsim hfull
  have hafter : r ≠ .error sizeLimit → op.Answers K r ∧ Prepared c d e₁ (op.onCatalog K) := by
    intro hne
    obtain ⟨hans, hok⟩ := h.toEngineOk.call hadm hrun hne
    exact ⟨hans, hok, h.toEngineOk.lasting h.lasting h.storable hadm hop hrun hne, hop.onCatalog h.storable,
      hwithin.onCatalog h.within, h.room⟩
  cases r with
  | ok a =>
    obtain ⟨b, e₁', hrun', halike, hs⟩ := (wp_of_ok hrun).mp hsim
    refine ⟨.ok a, e₁, .ok b, e₁', hrun, hrun', ⟨nofun, nofun⟩, fun hne => ?_⟩
    obtain ⟨hans, hprep⟩ := hafter hne
    exact ⟨hans, halike, hprep, hs⟩
  | error x =>
    by_cases hx : x = sizeLimit
    · subst hx
      obtain ⟨e₁', hrun', -⟩ := (wp_of_throw hrun).mp hfull rfl
      exact ⟨_, e₁, .error sizeLimit, e₁', hrun, hrun', Iff.rfl, fun hne => absurd rfl hne⟩
    · have hne : (.error x : Except Exn EngineReply) ≠ .error sizeLimit := fun heq => hx (Except.error.inj heq)
      obtain ⟨hans, hprep⟩ := hafter hne
      obtain ⟨e₁', hrun', hs⟩ := (wp_of_throw hrun).mp hsim hans.mem_refusals
      exact ⟨_, e₁, .error x, e₁', hrun, hrun', Iff.rfl, fun _ => ⟨hans, rfl, hprep, hs⟩⟩

theorem Prepared.ended (h : Prepared c d e K) (hst : InStep c V e e') (hadm : op.Admissible K) (hop : op.Storable)
    (hwithin : op.Within d) {e₁' : StorageEngine (PageCache Page Block)}
    (hrun' : op.run cacheOps fuel e' = .answer r e₁') :
    ∃ r₀ e₁, op.run Mem.cache.toCacheOps maxDepth e = .answer r₀ e₁ ∧
      (r = .error sizeLimit ↔ r₀ = .error sizeLimit) ∧
      (r₀ ≠ .error sizeLimit → op.Answers K r₀ ∧ AnswerAlike r₀ r ∧ Prepared c d e₁ (op.onCatalog K) ∧
        ∃ V, InStep c V e₁ e₁') := by
  obtain ⟨r₀, e₁, r', e₂, hrun, hrun₂, hlimit, hpost⟩ := h.step hst hadm hop hwithin (le_refl maxDepth)
  obtain ⟨rfl, rfl⟩ := EngineOp.answer_unique hrun' hrun₂
  exact ⟨r₀, e₁, hrun, hlimit, hpost⟩

theorem Prepared.answer (h : Prepared c d e K) (hst : InStep c V e e') (hadm : op.Admissible K) (hop : op.Storable)
    (hwithin : op.Within d) {e₁' : StorageEngine (PageCache Page Block)}
    (hrun' : op.run cacheOps fuel e' = .answer r e₁') (hne : r ≠ .error sizeLimit) :
    ∃ r₀ e₁, op.Answers K r₀ ∧ AnswerAlike r₀ r ∧ Prepared c d e₁ (op.onCatalog K) ∧
      ∃ V, InStep c V e₁ e₁' := by
  obtain ⟨r₀, e₁, -, hlimit, hpost⟩ := h.ended hst hadm hop hwithin hrun'
  exact ⟨r₀, e₁, hpost (mt hlimit.mpr hne)⟩

theorem Prepared.numBlocks_of_refused (h : Prepared c d e K) (hst : InStep c V e e') (hadm : op.Admissible K)
    (hop : op.Storable) (hwithin : op.Within d) {e₁' : StorageEngine (PageCache Page Block)}
    (hrun' : op.run cacheOps fuel e' = .answer (.error sizeLimit) e₁') :
    e'.pager.numBlocks = MAX_FSMPAGES * FSMPage.getBlocksInPage := by
  obtain ⟨r₀, e₁, hrun, hlimit, -⟩ := h.ended hst hadm hop hwithin hrun'
  have hlacks := (h.toEngineOk.sizeLimit_iff hadm hrun).mp (hlimit.mp rfl)
  obtain ⟨N, hinv⟩ := h.inv
  have hrem : remaining e.pager < FSMPage.getBlocksInPage - 1 :=
    (h.toEngineOk.remaining_le_of_lacks hlacks).trans_lt (by decide)
  obtain rfl := hinv.eq_of_remaining_lt hrem
  rw [← hst.works.blocks]
  exact hinv.blocks

theorem works_empty (hc : c ≠ 0) (blocks : ℕ → Block) (objects : ℕ → Page) (junk : ℕ → Junk) :
    Works c ∅ [] .empty (.new c 0 blocks objects junk) :=
  works_of_stored (m := Mem.empty) hc ⟨0, Nat.zero_le _, by rw [Nat.zero_mul]; rfl⟩ nofun fun _ => ⟨none, .none, nofun⟩

theorem sim_openNew (hc : 5 ≤ c) (blocks : ℕ → Block) (objects : ℕ → Page) (junk : ℕ → Junk) {m : Mem}
    (hcreate : createNewPage Mem.cache.toCacheOps .schema .empty = .ok SCHEMA_ID m) (hl : Lasting m) :
    Sim (fun _ => False) (openNew Mem.cache.toCacheOps) (openNew cacheOps) .empty (.new c 0 blocks objects junk)
      (fun l l' m' s => l' = l ∧ m' = m ∧ ∃ V, Works c V [] m s) fun _ _ => True := by
  have hE : Outer fun _ => False := nofun
  have hcard : bitmaps.card < c := Finset.card_le_two.trans_lt (by omega)
  have hw : Works c bitmaps [] .empty (.new c 0 blocks objects junk) :=
    (works_empty (by omega) blocks objects junk).extend (Finset.empty_subset _) hcard.le
  apply (hw.sim_createNewPage .schema hE nofun subset_rfl hcard nofun inv_empty nofun trivial
    (fun _ => trivial) fun _ _ => nofun).bind
  rintro r page m₁ s₁ hrun ⟨⟨-, ⟨N, hinv⟩, -⟩, h₁⟩
  cases hrun.symm.trans hcreate
  apply (h₁.sim_deref (T := SchemaPage) (List.mem_cons_self ..)).bind
  rintro p q m₂ s₂ - ⟨rfl, rfl, -, hs⟩
  obtain rfl := Page.schema.inj hs.eq_schema
  have hclean : m₂.CleanBut ∅ := h₁.cleanBut fun x p _ hlt hp => hl.lasts hinv hp hlt
  dsimp only
  refine sim_ite Iff.rfl (fun _ => sim_raise_bind fun _ => trivial) fun _ => ?_
  exact sim_readTables (h₁.forget (List.nil_subset _)) hE hclean (by omega) SCHEMA_ID

theorem exists_opened_inStep (hc : d + 5 ≤ c) (blocks : ℕ → Block) (objects : ℕ → Page) (junk : ℕ → Junk) :
    ∃ s m V, openNew cacheOps (.new c 0 blocks objects junk) = .ok [] s ∧ Pager.liveIds m = {SCHEMA_ID} ∧
      Prepared c d ⟨m, [], SCHEMA_ID⟩ (fun _ => none) ∧ InStep c V ⟨m, [], SCHEMA_ID⟩ ⟨s, [], SCHEMA_ID⟩ := by
  obtain ⟨m, hcreate, hrun, hlive, hok, hl⟩ := openNew_empty
  have hsim := sim_openNew (le_of_add_le_right hc) blocks objects junk hcreate hl
  unfold Sim at hsim
  rw [wp_of_ok hrun] at hsim
  obtain ⟨l', s, hrun', rfl, -, V, hw⟩ := hsim
  have hprep : Prepared c d ⟨m, [], SCHEMA_ID⟩ fun _ => none := ⟨hok, hl, nofun, nofun, hc⟩
  have hst : InStep c V ⟨m, [], SCHEMA_ID⟩ ⟨s, [], SCHEMA_ID⟩ := ⟨rfl, rfl, hw⟩
  exact ⟨s, m, V, hrun', hlive, hprep, hst⟩

/-- The destructor of the cache writes its pages in the order of the hash map, and an engine is opened on
the file with a new cache. -/
def restart (order : List ℕ) (capacity : ℕ) (objects : ℕ → Page) (junk : ℕ → Junk) :
    EngineM (PageCache Page Block) Unit := do
  onPager (flush Page.format order)
  change fun e => { e with pager := .new capacity e.pager.numBlocks e.pager.blocks objects junk }
  let tables ← onPager (readTables cacheOps (← gets StorageEngine.schemaPageID))
  change fun e => { e with tables := tables }

variable {order : List ℕ} {capacity : ℕ} {objects : ℕ → Page} {junk : ℕ → Junk}

theorem Prepared.restart (h : Prepared c d e K) (hst : InStep c V e e') (horder : Lists order e'.pager)
    (hcap : d + 5 ≤ capacity) (objects : ℕ → Page) (junk : ℕ → Junk) : ∃ tables e₁' W,
      StorageEngine.restart order capacity objects junk e' = .ok () e₁' ∧
        readTables Mem.cache.toCacheOps e.schemaPageID e.pager = .ok tables e.pager ∧
        Prepared capacity d ⟨e.pager, tables, e.schemaPageID⟩ K ∧
        InStep capacity W ⟨e.pager, tables, e.schemaPageID⟩ e₁' := by
  obtain ⟨s₁, hflush, hnew⟩ := hst.works.flush (h.cleanBut hst.works) horder.1 horder.2
  have hw := hnew capacity objects junk (by omega)
  obtain ⟨tables, m, hread, hm, hok⟩ := h.toEngineOk.reopen
  obtain rfl : m = e.pager := hm
  have hsim := sim_readTables (R := fun _ _ => True) hw (E := fun _ => False) nofun (h.cleanBut hst.works) (by omega)
    e.schemaPageID
  unfold Sim at hsim
  rw [wp_of_ok hread] at hsim
  obtain ⟨l', s', hread', rfl, -, W, hw'⟩ := hsim
  have hwritten : onPager (PageCache.flush Page.format order) e' = .ok () { e' with pager := s₁ } := zoom_ok hflush
  have hloaded : onPager (readTables cacheOps e'.schemaPageID)
      { e' with pager := .new capacity s₁.numBlocks s₁.blocks objects junk } = .ok l' { e' with pager := s' } := by
    rw [hst.schema_eq]
    exact zoom_ok hread'
  have hprep : Prepared capacity d ⟨e.pager, l', e.schemaPageID⟩ K := ⟨hok, h.lasting, h.storable, h.within, hcap⟩
  have hst' : InStep capacity W ⟨e.pager, l', e.schemaPageID⟩ ⟨s', l', e'.schemaPageID⟩ := ⟨rfl, hst.schema_eq, hw'⟩
  refine ⟨_, _, W, ?_, hread, hprep, hst'⟩
  rw [StorageEngine.restart, bind_ok hwritten]
  exact bind_ok hloaded

/-- The states of an engine that `main` opens on an empty file, which may be closed and opened again with another
cache, with the catalogs they stand for, as long as no page is missing that is needed.  Every cache has room for
five pages more than the largest degree. -/
inductive Evicting (d : ℕ) : StorageEngine (PageCache Page Block) → Catalog → Prop
  | start {capacity : ℕ} {blocks : ℕ → Block} {objects : ℕ → Page} {junk : ℕ → Junk} {s : PageCache Page Block}
      {tables : List Table} : d + 5 ≤ capacity →
      openNew cacheOps (.new capacity 0 blocks objects junk) = .ok tables s →
      Evicting d ⟨s, tables, SCHEMA_ID⟩ fun _ => none
  | call {e e' : StorageEngine (PageCache Page Block)} {K : Catalog} {r : Except Exn EngineReply} (op : EngineOp)
      (fuel : ℕ) : Evicting d e K → op.Admissible K → op.Storable → op.Within d →
      op.run cacheOps fuel e = .answer r e' → r ≠ .error sizeLimit → Evicting d e' (op.onCatalog K)
  | restart {e e' : StorageEngine (PageCache Page Block)} {K : Catalog} {order : List ℕ} {capacity : ℕ}
      {objects : ℕ → Page} {junk : ℕ → Junk} : Evicting d e K → Lists order e.pager → d + 5 ≤ capacity →
      StorageEngine.restart order capacity objects junk e = .ok () e' → Evicting d e' K

theorem Evicting.inStep (h : Evicting d e' K) : ∃ c V e, Prepared c d e K ∧ InStep c V e e' := by
  induction h with
  | @start capacity blocks objects junk s tables hcap hrun =>
    obtain ⟨s', m, V, hrun', -, hprep, hst⟩ := exists_opened_inStep hcap blocks objects junk
    cases hrun.symm.trans hrun'
    exact ⟨_, V, _, hprep, hst⟩
  | call op fuel _ hadm hop hwithin hrun hne ih =>
    obtain ⟨c, V, e, hprep, hst⟩ := ih
    obtain ⟨-, e₁, -, -, hprep', V', hst'⟩ := hprep.answer hst hadm hop hwithin hrun hne
    exact ⟨c, V', e₁, hprep', hst'⟩
  | @restart _ _ _ order capacity objects junk _ horder hcap hrun ih =>
    obtain ⟨c, V, e, hprep, hst⟩ := ih
    obtain ⟨tables, e₁', W, hrun', -, hprep', hst'⟩ := hprep.restart hst horder hcap objects junk
    cases hrun.symm.trans hrun'
    exact ⟨capacity, W, _, hprep', hst'⟩

/-- The engine serves as its catalog, now and when it is opened again. -/
structure Endures (d : ℕ) (e : StorageEngine (PageCache Page Block)) (K : Catalog) : Prop where
  /-- Every call returns or throws, and its recursion is not deeper than `maxDepth`. -/
  ends : ∀ op : EngineOp, op.Admissible K → op.Storable → op.Within d → ∀ fuel, maxDepth ≤ fuel → ∃ r e',
    op.run cacheOps fuel e = .answer r e'
  /-- It answers as the catalog does, unless pages are missing, and then the file has its largest size. -/
  answers : ∀ (op : EngineOp) fuel r e', op.Admissible K → op.Storable → op.Within d →
    op.run cacheOps fuel e = .answer r e' →
      r = .error sizeLimit ∧ e.pager.numBlocks = MAX_FSMPAGES * FSMPage.getBlocksInPage ∨
        ∃ r₀, op.Answers K r₀ ∧ AnswerAlike r₀ r
  /-- The file can be opened again with any cache that is large enough. -/
  restarts : ∀ order capacity objects junk, Lists order e.pager → d + 5 ≤ capacity →
    ∃ e', StorageEngine.restart order capacity objects junk e = .ok () e'

/-- Whatever is evicted, the engine serves as its catalog in every session. -/
theorem endures_of_evicting (h : Evicting d e' K) : Endures d e' K := by
  obtain ⟨c, V, e, hprep, hst⟩ := h.inStep
  refine ⟨fun op hadm hop hwithin fuel hfuel => ?_, fun op fuel r e₁' hadm hop hwithin hrun => ?_,
    fun order capacity objects junk horder hcap => ?_⟩
  · obtain ⟨-, -, r', e₁', -, hrun, -⟩ := hprep.step hst hadm hop hwithin hfuel
    exact ⟨r', e₁', hrun⟩
  · by_cases hr : r = .error sizeLimit
    · subst hr
      exact .inl ⟨rfl, hprep.numBlocks_of_refused hst hadm hop hwithin hrun⟩
    · obtain ⟨r₀, -, hans, halike, -⟩ := hprep.answer hst hadm hop hwithin hrun hr
      exact .inr ⟨r₀, hans, halike⟩
  · obtain ⟨-, e₁', -, hrun, -⟩ := hprep.restart hst horder hcap objects junk
    exact ⟨e₁', hrun⟩

/-- With room for 505 pages the degrees do not matter.  An engine on an empty file, before and after a table is
created. -/
theorem endures_first : ∃ e e₁, Endures 500 e (fun _ => none) ∧
    (EngineOp.createTable [97] [.int 0]).run cacheOps maxDepth e = .ok .done e₁ ∧
    Endures 500 e₁ ((EngineOp.createTable [97] [.int 0]).onCatalog fun _ => none) := by
  obtain ⟨s, m, V, hrun, hlive, hprep, hst⟩ :=
    exists_opened_inStep (d := 500) (le_refl 505) blank.blocks blank.objects blank.junk
  have h : Evicting 500 ⟨s, [], SCHEMA_ID⟩ fun _ => none := .start (le_refl 505) hrun
  have hrem : 2 ≤ Pager.remaining m := by
    rw [Pager.remaining, hlive]
    decide
  obtain ⟨e₀, t, p, hcreate, -⟩ := hprep.toSound.exists_createTable [97] [.int 0] rfl
    ⟨by simp, by decide⟩ (Nat.zero_lt_succ 30) hrem
  obtain ⟨r, e₂, r', e₁, hrun₁, hrun', hlimit, hpost⟩ := hprep.step hst admissible_first ⟨by decide, by decide⟩
    (EngineOp.within_max _) (le_refl maxDepth)
  obtain ⟨rfl, rfl⟩ := Outcome.answer_inj
    (hrun₁.symm.trans (show _ = Outcome.answer (.ok .done) e₀ from bind_ok hcreate))
  obtain ⟨-, halike, -⟩ := hpost nofun
  obtain ⟨_, rfl, rfl⟩ := halike.exists_ok
  exact ⟨_, e₁, endures_of_evicting h, hrun', endures_of_evicting (h.call (.createTable [97] [.int 0]) maxDepth
    admissible_first ⟨by decide, by decide⟩ (EngineOp.within_max _) hrun' nofun)⟩

end StorageEngine
end Kndb
