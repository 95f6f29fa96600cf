import Kndb.StorageEngine.Alike

namespace Kndb

open Imp Imp.Prog Btree LawfulCache Pager Table PageCache

variable {σ τ : Type} {C : LawfulCache σ} {D : LawfulCache τ} {m m' : Mem} {N : ℕ}

theorem Lasting.back (h : Lasting m) (hinv : Inv m N) (hb : m.Back m') : Lasting m' where
  tidy x hx hnot := by
    have hpage := hb.page x
    rw [h.tidy x hx ((hb.inv hinv).2 ▸ hnot)] at hpage
    generalize m'.view x = o at hpage
    cases hpage
    rfl
  live x _ p hp := hb.lasts x p hp

namespace StorageEngine

section Back

variable {e : StorageEngine σ} {K K' : Catalog}

theorem Catalog.Storable.alike (h : K.Storable) (hK : K.Alike K') : K'.Storable := by
  intro name c' hc'
  rcases hK.cases name with ⟨-, hnone⟩ | ⟨c, c₁, hc, hc₁, hcc⟩
  · rw [hnone] at hc'
    cases hc'
  · obtain rfl := Option.some.inj (hc₁.symm.trans hc')
    obtain ⟨hlen, hrows⟩ := h name c hc
    exact ⟨hcc.types.length_eq.trans_le hlen, hcc.rows ▸ hrows⟩

theorem EngineOk.back (h : EngineOk C e K) {s : τ} (ok : D.Ok s) (hb : (C.mem e.pager).Back (D.mem s)) :
    ∃ K', K.Alike K' ∧ EngineOk D ⟨s, e.tables, e.schemaPageID⟩ K' := by
  obtain ⟨N, hinv⟩ := h.inv
  obtain ⟨p, hp, hperm⟩ := h.schema
  obtain ⟨S, hn, hroot⟩ := h.rooted
  obtain ⟨L, hholds⟩ := h.holds
  obtain ⟨hinv', hlive⟩ := hb.inv hinv
  -- a table keeps its rows, and its columns their types
  have htable : ∀ name, ∃ c', Option.Rel Content.Alike (K name) c' ∧ ∀ t ∈ e.tables, t.name = name →
      ∃ c, c' = some c ∧ 2 ≤ tableDegree c.types ∧ TableOk (D.mem s) t c.types (L name) c.rows := by
    intro name
    by_cases hmem : name ∈ e.tables.map Table.name
    · obtain ⟨t, ht, rfl⟩ := List.mem_map.mp hmem
      obtain ⟨c, hc, hdeg, hok⟩ := hholds.table t ht
      obtain ⟨types', hsame, hok'⟩ := hok.back hb hinv
      refine ⟨some ⟨types', c.rows⟩, hc ▸ .some ⟨hsame, rfl⟩, fun t' ht' heq => ?_⟩
      obtain rfl : t' = t := List.inj_on_of_nodup_map h.names ht' ht heq
      exact ⟨_, rfl, hsame.tableDegree_eq ▸ hdeg, hok'⟩
    · have hnone : K name = none := by
        rwa [← Option.not_isSome_iff_eq_none, h.catalog]
      exact ⟨none, hnone.symm ▸ .none, fun t ht heq => absurd (List.mem_map.mpr ⟨t, ht, heq⟩) hmem⟩
  choose K' hK hK' using htable
  have hsound : Sound D ⟨s, e.tables, e.schemaPageID⟩ :=
    ⟨ok, ⟨N, hinv'⟩, ⟨p, ⟨hlive ▸ hp.1, hb.schema hp.2⟩, hperm⟩, h.names, h.nameOk, S, hn.back hb hinv,
      fun t ht => (hroot t ht).back hb hinv⟩
  refine ⟨K', hK, hsound, fun name => ?_, L, fun t ht => hK' t.name t ht rfl, hholds.apart⟩
  rw [Catalog.Alike.isSome_eq hK, h.catalog]

theorem eq_of_loaded {t t' : Table} {types : Tuple} {L : Layout} {M : Rank → Option Tuple} (h : Loaded m t)
    (hentry : entry t' = entry t) (ok : TableOk m t' types L M) : t = t' := by
  obtain ⟨p, hp, hdegree, hroot⟩ := h
  obtain ⟨name, id, degree, root⟩ := t
  obtain ⟨name', id', degree', root'⟩ := t'
  cases hentry
  obtain rfl : p = pageOf ⟨name, id, degree', root'⟩ types M :=
    Page.table.inj (Option.some.inj (hp.2.symm.trans ok.page.2))
  cases hdegree.trans ok.degree.symm
  cases hroot
  rfl

theorem EngineOk.mem_of_readTables (h : EngineOk C e K) {tables : List Table} {s' : σ}
    (hread : readTables C.toCacheOps e.schemaPageID e.pager = .ok tables s') :
    C.mem s' = C.mem e.pager ∧ ∀ t, t ∈ tables ↔ t ∈ e.tables := by
  obtain ⟨p, hp, hperm⟩ := h.schema
  obtain ⟨S, -, hroot⟩ := h.rooted
  obtain ⟨L, hholds⟩ := h.holds
  obtain ⟨tables', s₁, hread', -, hm', -, htables⟩ := h.readTables_eq hroot hp hperm
  cases hread.symm.trans hread'
  have hentry := (h.toSound.reopen hread).2
  have hmem : ∀ t ∈ tables, t ∈ e.tables := fun t ht => by
    obtain ⟨t', ht', heq⟩ := List.mem_map.mp (hentry.mem_iff.mp (List.mem_map_of_mem ht))
    obtain ⟨c, -, -, ok⟩ := hholds.table t' ht'
    exact eq_of_loaded (htables t ht).2 heq ok ▸ ht'
  refine ⟨hm', fun t => ⟨hmem t, fun ht => ?_⟩⟩
  obtain ⟨t', ht', heq⟩ := List.mem_map.mp (hentry.mem_iff.mpr (List.mem_map_of_mem ht))
  obtain rfl : t' = t := List.inj_on_of_nodup_map h.names (hmem t' ht') ht (congrArg Prod.fst heq)
  exact ht'

/-- An engine can be opened on the pages of another, and stands for the same catalog. -/
theorem EngineOk.reopen (h : EngineOk C e K) : ∃ tables s',
    readTables C.toCacheOps e.schemaPageID e.pager = .ok tables s' ∧ C.mem s' = C.mem e.pager ∧
      EngineOk C ⟨s', tables, e.schemaPageID⟩ K := by
  obtain ⟨p, hp, hperm⟩ := h.schema
  obtain ⟨S, -, hroot⟩ := h.rooted
  obtain ⟨L, hholds⟩ := h.holds
  obtain ⟨tables, s', hread, -⟩ := h.readTables_eq hroot hp hperm
  obtain ⟨hsound, hperm'⟩ := h.toSound.reopen hread
  obtain ⟨hm', hmem⟩ := h.mem_of_readTables hread
  have hnames : (tables.map Table.name).Perm (e.tables.map Table.name) := by
    rw [map_name, map_name]
    exact hperm'.map _
  refine ⟨tables, s', hread, hm', hsound, fun name => ?_, L, hm'.symm ▸ hholds.mono fun t => (hmem t).mp⟩
  rw [hnames.mem_iff, h.catalog]

/-- A call lacks pages on the pages that come back if it does on those that were written. -/
theorem EngineOk.lacks_back {op : EngineOp} {tables : List Table} (h : EngineOk C e K) (hb : (C.mem e.pager).Back m')
    (hK : K.Alike K') (hmem : ∀ t, t ∈ tables ↔ t ∈ e.tables) :
    op.Lacks m' tables K' ↔ op.Lacks (C.mem e.pager) e.tables K := by
  obtain ⟨N, hinv⟩ := h.inv
  obtain ⟨L, hholds⟩ := h.holds
  cases op with
  | createTable name types =>
    rw [EngineOp.Lacks, EngineOp.Lacks, hK.nameError_eq, remaining, remaining, (hb.inv hinv).2]
  | insertTuple name values =>
    rw [EngineOp.Lacks, EngineOp.Lacks]
    rcases hK.cases name with ⟨hc, hc'⟩ | ⟨c, c', hc, hc', hcc⟩
    · simp [hc, hc']
    have hpages : ∀ t ∈ e.tables, PagesSuffice m' t.rootPageID (.insert values) ↔
        PagesSuffice (C.mem e.pager) t.rootPageID (.insert values) := fun t ht => by
      obtain ⟨c, -, -, ok⟩ := hholds.table t ht
      exact ok.pagesSuffice_back hb hinv _
    have htables : (∃ t ∈ tables, t.name = name ∧ ¬PagesSuffice m' t.rootPageID (.insert values)) ↔
        ∃ t ∈ e.tables, t.name = name ∧ ¬PagesSuffice (C.mem e.pager) t.rootPageID (.insert values) :=
      exists_congr fun t => (and_congr_left fun _ => hmem t).trans
        (and_congr_right fun ht => and_congr_right fun _ => (hpages t ht).not)
    simp [hc, hc', htables, hcc.types.tupleError_eq, hcc.rows]
  | _ => rfl

end Back

/-- The destructor of the cache writes its pages in the order of the hash map, and an engine is opened on
the file with a new cache. -/
def reopen (order : List ℕ) (capacity : ℕ) (objects : ℕ → Page) (junk : ℕ → Junk) :
    EngineM (PageCache Page Block) Unit := do
  onPager (flush Page.format order)
  change fun e => { e with pager := .new capacity e.pager.numBlocks e.pager.blocks objects junk }
  let tables ← onPager (readTables keepingOps (← gets StorageEngine.schemaPageID))
  change fun e => { e with tables := tables }

variable {e e' : StorageEngine (PageCache Page Block)} {K : Catalog} {op : EngineOp} {order : List ℕ}
variable {capacity : ℕ} {objects : ℕ → Page} {junk : ℕ → Junk}

/-- `order` is an order of the keys of the hash map. -/
def Lists (order : List ℕ) (s : PageCache Page Block) : Prop :=
  order.Nodup ∧ ∀ id, id ∈ order ↔ (s.map id).isSome = true

/-- The states of an engine over an empty database, which may be closed and opened again, with the catalogs
they stand for, as long as no page is missing that is needed. -/
inductive Durable : StorageEngine (PageCache Page Block) → Catalog → Prop
  | create {capacity : ℕ} {blocks : ℕ → Block} {objects : ℕ → Page} {junk : ℕ → Junk} {s s' : PageCache Page Block}
      {id : ℕ} {tables : List Table} :
      createNewPage keepingOps .schema (.new capacity 0 blocks objects junk) = .ok id s →
      readTables keepingOps id s = .ok tables s' → Durable ⟨s', tables, id⟩ fun _ => none
  | call {e e' : StorageEngine (PageCache Page Block)} {K : Catalog} {r : Except Exn EngineReply} (op : EngineOp)
      (fuel : ℕ) : Durable e K → op.Admissible K → op.Storable → op.run keepingOps fuel e = .answer r e' →
      r ≠ .error sizeLimit → Durable e' (op.onCatalog K)
  | reopen {e e' : StorageEngine (PageCache Page Block)} {K : Catalog} {order : List ℕ} {capacity : ℕ}
      {objects : ℕ → Page} {junk : ℕ → Junk} : Durable e K → Lists order e.pager →
      StorageEngine.reopen order capacity objects junk e = .ok () e' → Durable e' K

/-- All pages last, and the engine stands for the catalog. -/
structure Standing (base : ℕ → Option Page) (e : StorageEngine (PageCache Page Block)) (K : Catalog) : Prop extends
    EngineOk (keeping base) e K where
  lasting : Lasting ((keeping base).mem e.pager)
  storable : K.Storable

/-- The pages come back, and with them the tables. -/
theorem Standing.reopen {base : ℕ → Option Page} (h : Standing base e K) (horder : Lists order e.pager)
    (capacity : ℕ) (objects : ℕ → Page) (junk : ℕ → Junk) :
    ∃ e' base' K', reopen order capacity objects junk e = .ok () e' ∧ K.Alike K' ∧ Standing base' e' K' ∧
      liveIds ((keeping base').mem e'.pager) = liveIds ((keeping base).mem e.pager) ∧
      ∀ op : EngineOp, op.Lacks ((keeping base').mem e'.pager) e'.tables K' ↔
        op.Lacks ((keeping base).mem e.pager) e.tables K := by
  obtain ⟨N, hinv⟩ := h.inv
  obtain ⟨es, hes⟩ := h.ok
  have hlasts : ∀ id p, pages base e.pager id = some p → p.Lasts := fun id p hp =>
    h.lasting.lasts hinv hp (hes.lt_of_pages hp)
  obtain ⟨s₁, hflush, hnum, base', hbase', hback, hfile⟩ := hes.flush hlasts horder.1 horder.2
  obtain ⟨ok, hm⟩ := ok_new capacity s₁.numBlocks s₁.blocks objects junk (hfile capacity objects junk)
  have hb : ((keeping base).mem e.pager).Back
      ((keeping base').mem (.new capacity s₁.numBlocks s₁.blocks objects junk)) := by
    rw [hm]
    exact ⟨hnum, hback, hbase'⟩
  obtain ⟨K', hK, hok⟩ := h.toEngineOk.back ok hb
  obtain ⟨tables, s', hread, hm', hok'⟩ := hok.reopen
  have hmem := (hok.mem_of_readTables hread).2
  have hwritten : onPager (flush Page.format order) e = .ok () { e with pager := s₁ } := zoom_ok hflush
  have hloaded : onPager (readTables keepingOps e.schemaPageID)
      { e with pager := .new capacity s₁.numBlocks s₁.blocks objects junk } = .ok tables { e with pager := s' } :=
    zoom_ok hread
  refine ⟨⟨s', tables, e.schemaPageID⟩, base', K', ?_, hK, ⟨hok', ?_, h.storable.alike hK⟩, ?_, fun op => ?_⟩
  · rw [StorageEngine.reopen, bind_ok hwritten]
    exact bind_ok hloaded
  · change Lasting ((keeping base').mem s')
    rw [hm']
    exact h.lasting.back hinv hb
  · change liveIds ((keeping base').mem s') = _
    rw [hm']
    exact (hb.inv hinv).2
  · change op.Lacks ((keeping base').mem s') tables K' ↔ _
    rw [hm']
    exact h.toEngineOk.lacks_back hb hK hmem

theorem exists_standing (capacity : ℕ) (blocks : ℕ → Block) (objects : ℕ → Page) (junk : ℕ → Junk) :
    ∃ id s tables s', createNewPage keepingOps .schema (.new capacity 0 blocks objects junk) = .ok id s ∧
      readTables keepingOps id s = .ok tables s' ∧ Standing (fun _ => none) ⟨s', tables, id⟩ (fun _ => none) ∧
      remaining ((keeping fun _ => none).mem s') = 65341 := by
  obtain ⟨ok₀, hm₀⟩ := @ok_new (fun _ => none) capacity 0 blocks objects junk nofun
  have hempty : Pager.Run (keeping fun _ => none) (.new capacity 0 blocks objects junk) ∅ := .start ok₀ rfl
  obtain ⟨-, hlive, N, hinv⟩ := hempty.inv
  obtain ⟨id, m', hret, -, -, -, hview, hother, hstep⟩ := returns_createNewPage (C := keeping fun _ => none)
    hinv (show PageArgs.Accepts .schema from trivial) (by rw [hlive]; decide)
  obtain ⟨s, hs, ok, rfl⟩ := hret.start ok₀
  obtain ⟨N', hinv'⟩ := hstep.inv
  rw [hlive] at hstep
  have hid : id ∈ liveIds ((keeping fun _ => none).mem s) := hstep.live ▸ Finset.mem_insert_self ..
  have hlasting : Lasting ((keeping fun _ => none).mem s) := by
    refine ⟨fun x hx hnot => ?_, fun x hx p hp => ?_⟩
    · rw [hother x hx fun heq => hnot (heq ▸ hid), hm₀]
    · rw [hstep.live, Finset.mem_insert] at hx
      obtain rfl := hx.resolve_right (Finset.notMem_empty x)
      obtain rfl := Option.some.inj (hview.symm.trans hp)
      exact SchemaPage.Run.new.sound
  have hsound : Sound (keeping fun _ => none) ⟨s, [], id⟩ := sound_empty ok hinv' ⟨hid, hview⟩
  obtain ⟨tables, s', hread, hm', hok⟩ := (hsound.engineOk rfl).reopen
  refine ⟨id, s, tables, s', hs, hread, ⟨hok, ?_, nofun⟩, ?_⟩
  · change Lasting ((keeping fun _ => none).mem s')
    rwa [hm']
  · rw [hm', remaining, hstep.live]
    rfl

theorem Durable.standing (h : Durable e K) : ∃ base K₀, K.Alike K₀ ∧ Standing base e K₀ := by
  induction h with
  | @create capacity blocks objects junk s s' id tables hpage hread =>
    obtain ⟨id', s₁, tables', s₁', hpage', hread', hs, -⟩ := exists_standing capacity blocks objects junk
    cases hpage.symm.trans hpage'
    cases hread.symm.trans hread'
    exact ⟨_, _, .refl _, hs⟩
  | call op fuel _ hadm hop hrun hne ih =>
    obtain ⟨base, K₀, hK, hs⟩ := ih
    have hadm₀ := hK.admissible hadm
    obtain ⟨-, hok⟩ := hs.toEngineOk.call hadm₀ hrun hne
    exact ⟨base, _, hK.onCatalog op, hok, hs.toEngineOk.lasting hs.lasting hs.storable hadm₀ hop hrun hne,
      hop.onCatalog hs.storable⟩
  | @reopen e e' K order capacity objects junk _ horder hrun ih =>
    obtain ⟨base, K₀, hK, hs⟩ := ih
    obtain ⟨e₁, base', K₁, hrun', hK', hs', -⟩ := hs.reopen horder capacity objects junk
    cases hrun.symm.trans hrun'
    exact ⟨base', K₁, hK.trans hK', hs'⟩

/-- `e'` goes on where `e` stands, whose catalog is `K`. -/
structure Continues {Ref σ : Type} (C : CacheOps Ref σ) (K : Catalog) (e e' : StorageEngine σ) : Prop where
  /-- Names, types, counts and rows are the same. -/
  reads : ∀ op : EngineOp, op.IsRead → op.Admissible K → ∃ n, ∀ fuel, n ≤ fuel → ∃ r e₁ r' e₁',
    op.run C fuel e = .answer r e₁ ∧ op.run C fuel e' = .answer r' e₁' ∧ AnswerAlike r r'
  /-- All later calls are answered alike. -/
  answers : ∀ ops rs rs' e₁ e₁', K.Admits ops → Calls C e ops rs e₁ → Calls C e' ops rs' e₁' →
    List.Forall₂ AnswerAlike rs rs'
  /-- After the same calls the next one returns or throws on both. -/
  ends : ∀ ops op rs rs' e₁ e₁', K.Admits (ops ++ [op]) → Calls C e ops rs e₁ → Calls C e' ops rs' e₁' →
    ∃ n, ∀ fuel, n ≤ fuel → (∃ r e₂, op.run C fuel e₁ = .answer r e₂) ∧ ∃ r' e₂', op.run C fuel e₁' = .answer r' e₂'
  /-- A page can be created on both or on none. -/
  full : ∀ args, (∃ x s, createNewPage C args e.pager = .throw x s) ↔
    ∃ x s, createNewPage C args e'.pager = .throw x s
  /-- The next call is refused for want of pages on both or on none. -/
  limit : ∀ (op : EngineOp) fuel fuel' r r' e₁ e₁', op.Admissible K → op.run C fuel e = .answer r e₁ →
    op.run C fuel' e' = .answer r' e₁' → (r = .error sizeLimit ↔ r' = .error sizeLimit)

/-- Whenever the cache is destroyed, the database can be opened again, and the new engine goes on where the
old one stood. -/
theorem continues_of_durable (h : Durable e K) (horder : Lists order e.pager) (capacity : ℕ) (objects : ℕ → Page)
    (junk : ℕ → Junk) : ∃ e', reopen order capacity objects junk e = .ok () e' ∧ Continues keepingOps K e e' := by
  obtain ⟨base, K₀, hK, hs⟩ := h.standing
  obtain ⟨e', base', K₁, hrun, hK', hs', hlive, hlacks⟩ := hs.reopen horder capacity objects junk
  obtain ⟨N, hinv⟩ := hs.inv
  obtain ⟨N', hinv'⟩ := hs'.inv
  refine ⟨e', hrun, fun op hread hadm => ?_, fun ops rs rs' e₁ e₁' hadm hcalls hcalls' => ?_,
    fun ops op rs rs' e₁ e₁' hadm hcalls hcalls' => ?_, fun args => ?_,
    fun op fuel fuel' r r' e₁ e₁' hadm hrun₁ hrun₁' => ?_⟩
  · obtain ⟨n, hn⟩ := hs.toEngineOk.read hread (hK.admissible hadm)
    obtain ⟨n', hn'⟩ := hs'.toEngineOk.read hread (hK'.admissible (hK.admissible hadm))
    refine ⟨max n n', fun fuel hfuel => ?_⟩
    obtain ⟨r, e₁, hr, hans⟩ := hn fuel (le_of_max_le_left hfuel)
    obtain ⟨r', e₁', hr', hans'⟩ := hn' fuel (le_of_max_le_right hfuel)
    exact ⟨r, e₁, r', e₁', hr, hr', hK'.answers hans hans'⟩
  · exact alike_of_calls hs.toEngineOk hs'.toEngineOk hK' (hK.admits hadm) hcalls hcalls'
  · obtain ⟨hops, hop⟩ := Catalog.admits_concat.mp hadm
    have hok := hs.toEngineOk.calls (hK.admits hops) hcalls
    have hok' := hs'.toEngineOk.calls (hK'.admits (hK.admits hops)) hcalls'
    obtain ⟨n, hn⟩ := hok.step_of_fuel ((hK.after ops).admissible hop)
    obtain ⟨n', hn'⟩ := hok'.step_of_fuel ((hK'.after ops).admissible ((hK.after ops).admissible hop))
    refine ⟨max n n', fun fuel hfuel => ?_⟩
    obtain ⟨r, e₂, hr, -⟩ := hn fuel (le_of_max_le_left hfuel)
    obtain ⟨r', e₂', hr', -⟩ := hn' fuel (le_of_max_le_right hfuel)
    exact ⟨⟨r, e₂, hr⟩, r', e₂', hr'⟩
  · exact (createNewPage_throws_iff hs.ok hinv args).trans
      (hlive ▸ (createNewPage_throws_iff hs'.ok hinv' args).symm)
  · have hadm₀ := hK.admissible hadm
    exact (hs.toEngineOk.sizeLimit_iff hadm₀ hrun₁).trans ((hlacks op).symm.trans
      (hs'.toEngineOk.sizeLimit_iff (hK'.admissible hadm₀) hrun₁').symm)

theorem Durable.exists_lists (h : Durable e K) : ∃ order, Lists order e.pager := by
  obtain ⟨base, K₀, -, hs⟩ := h.standing
  obtain ⟨es, hes⟩ := hs.ok
  exact ⟨ids Page.format e.pager es, hes.ids, fun id => hes.toLinked.map_isSome_iff.symm⟩

def blank : PageCache Page Block :=
  .new 2 0 (fun _ => []) (fun _ => .schema (.new 0)) fun _ => ⟨fun _ => 0, fun _ => []⟩

theorem exists_durable : ∃ e e₁ : StorageEngine (PageCache Page Block), Durable e (fun _ => none) ∧
    (EngineOp.createTable [97] [.int 0]).run keepingOps 0 e = .ok .done e₁ := by
  obtain ⟨id, s, tables, s', hpage, hread, hs, hrem⟩ := exists_standing 2 blank.blocks blank.objects blank.junk
  have herr := hs.toEngineOk.nameError_eq [97]
  have hlen := admissible_first.2.2 rfl
  rw [hs.toEngineOk.ncard_eq] at hlen
  obtain ⟨e₁, t, p, hcreate, -⟩ := hs.toSound.exists_createTable [97] [.int 0] (herr.symm.trans rfl)
    ⟨by simp, by decide⟩ hlen (hrem.symm ▸ (by decide : 2 ≤ 65341))
  exact ⟨_, e₁, .create hpage hread, bind_ok hcreate⟩

/-- An engine on an empty file, before and after a table is created. -/
theorem continues_blank : ∃ e e₁ order order₁ e' e₁',
    Lists order e.pager ∧ reopen order 2 blank.objects blank.junk e = .ok () e' ∧
    Continues keepingOps (fun _ => none) e e' ∧
    (EngineOp.createTable [97] [.int 0]).run keepingOps 0 e = .ok .done e₁ ∧
    Lists order₁ e₁.pager ∧ reopen order₁ 2 blank.objects blank.junk e₁ = .ok () e₁' ∧
    Continues keepingOps ((EngineOp.createTable [97] [.int 0]).onCatalog fun _ => none) e₁ e₁' := by
  obtain ⟨e, e₁, h, hrun⟩ := exists_durable
  have h₁ := h.call (r := .ok .done) (.createTable [97] [.int 0]) 0 admissible_first ⟨by decide, by decide⟩ hrun nofun
  obtain ⟨order, horder⟩ := h.exists_lists
  obtain ⟨order₁, horder₁⟩ := h₁.exists_lists
  obtain ⟨e', hreopen, hcont⟩ := continues_of_durable h horder 2 blank.objects blank.junk
  obtain ⟨e₁', hreopen₁, hcont₁⟩ := continues_of_durable h₁ horder₁ 2 blank.objects blank.junk
  exact ⟨e, e₁, order, order₁, e', e₁', horder, hreopen, hcont, hrun, horder₁, hreopen₁, hcont₁⟩

end StorageEngine
end Kndb
