import Kndb.Btree.Evicting
import Kndb.Table.Typed

namespace Kndb

open Imp Imp.Prog Btree Pager PageCache

variable {E : Exn → Prop} {c id : ℕ} {V : Finset ℕ} {H : List (ℕ × ℕ)} {m : Mem} {s : PageCache Page Block}
variable {p q : TablePage}

attribute [local irreducible] Sim

theorem TablePage.Same.sim_type {σ τ α β : Type} {f : Vari → Code σ α} {g : Vari → Code τ β} {s : σ} {t : τ} {i : ℕ}
    {Q : α → β → σ → τ → Prop} {R : σ → τ → Prop} (hsame : TablePage.Same p q)
    (hfg : ∀ a b, variant_to_type_id b = variant_to_type_id a → Sim E (f a) (g b) s t Q R) :
    Sim E (at? p.types i >>= f) (at? q.types i >>= g) s t Q R := by
  refine (sim_at? (Q := fun a b s' t' => variant_to_type_id b = variant_to_type_id a ∧ s' = s ∧ t' = t)
    fun a ha => ?_).bind ?_
  · have hmap := congrArg (·[i]?) hsame.types
    simp only [List.getElem?_map, ha, Option.map_some] at hmap
    obtain ⟨b, hb, hab⟩ := Option.map_eq_some_iff.mp hmap
    exact ⟨b, hb, hab, rfl, rfl⟩
  · rintro a b s' t' - ⟨hab, rfl, rfl⟩
    exact hfg a b hab

namespace PageCache.Works

variable {R : Mem → PageCache Page Block → Prop}

theorem sim_readTablePage (h : Works c V H m s) (hE : Outer E) (hV : bitmaps ⊆ V) (hid : id ∈ V) :
    Sim E (Table.readTablePage Mem.cache.toCacheOps id) (Table.readTablePage cacheOps id) m s
      (fun p q m' s' => m' = m ∧ Works c V H m s' ∧ m.view id = some (.table p) ∧ TablePage.Same p q) R := by
  apply (h.sim_getPage hE hV .table hid).bind
  rintro r page m' s' - ⟨rfl, rfl, h₁, -⟩
  refine (h₁.sim_deref (List.mem_cons_self ..)).mono ?_ fun _ _ hR => hR
  rintro p q m'' s'' ⟨rfl, rfl, hp, hs⟩
  exact ⟨rfl, h₁.forget fun _ => List.mem_cons_of_mem _, hp, hs.again⟩

theorem sim_changeTablePage (h : Works c V H m s) (hE : Outer E) (hV : bitmaps ⊆ V) (hid : id ∈ V)
    {f : TablePage → TablePage} (hf : ∀ p q, TablePage.Same p q → TablePage.Same (f p) (f q))
    (hpid : ∀ q, (f q).pageID = q.pageID) :
    Sim E (Table.changeTablePage Mem.cache.toCacheOps id f) (Table.changeTablePage cacheOps id f) m s
      (fun _ _ m' s' => Works c V H m' s') R := by
  apply (h.sim_getPage hE hV .table hid).bind
  rintro r page m' s' - ⟨rfl, rfl, h₁, -⟩
  refine (h₁.sim_call (T := TablePage) (f := change f) (g := change f) (Q := fun _ _ _ => True) (S := fun _ => False)
    (List.mem_cons_self ..) fun p q _ hs => ?_).mono ?_ ?_
  · exact sim_change ⟨trivial, hf p q hs.again, trivial, (hpid q).trans hs.pageID⟩
  · rintro - - m'' s'' ⟨p', -, rfl, h₂⟩
    exact h₂.forget fun _ => List.mem_cons_of_mem _
  · rintro m'' s'' ⟨-, hfalse, -⟩
    exact hfalse.elim

theorem sim_readDegree (h : Works c V H m s) (hE : Outer E) (hV : bitmaps ⊆ V) (hid : id ∈ V) :
    Sim E (Table.readDegree Mem.cache.toCacheOps id) (Table.readDegree cacheOps id) m s
      (fun d d' m' s' => d' = d ∧ m' = m ∧ Works c V H m s') R := by
  apply (h.sim_readTablePage hE hV hid).bind
  rintro p q m₁ s₁ - ⟨rfl, h₁, -, hsame⟩
  refine hsame.sim_type fun key key' hkey => ?_
  apply (h₁.sim_readTablePage hE hV hid).bind
  rintro p' q' m₂ s₂ - ⟨rfl, h₂, -, hsame'⟩
  exact sim_pure ⟨calculateDegree_congr hkey (sameTypes_iff.mpr hsame'.types), rfl, h₂⟩

theorem sim_createRoot {N : ℕ} (h : Works c V [] m s) (hE : Outer E) (hR : E Pager.sizeLimit → ∀ m s, R m s)
    (hV : bitmaps ⊆ V) (hcard : V.card < c) (hid : id ∈ V) (ok : m.Ok) (hinv : Pager.Inv m N) (name : List Byte) :
    Sim E (Table.createRoot Mem.cache.toCacheOps name id) (Table.createRoot cacheOps name id) m s
      (fun t t' m' s' => t' = t ∧ ∃ W, V ⊆ W ∧ Works c W [] m' s') R := by
  apply (h.sim_readDegree hE hV hid).bind
  rintro d d' m₁ s₁ - ⟨rfl, rfl, h₁⟩
  apply (h₁.sim_createNewPage (.node d' PGID_INVALID true true) hE hR hV hcard ok hinv nofun trivial
    (fun _ => show PGID_INVALID < 2 ^ 32 by decide) fun _ _ => nofun).bind
  rintro node page m₂ s₂ - ⟨-, h₂⟩
  apply (h₂.sim_deref (T := BtreeNodePage Tuple) (List.mem_cons_self ..)).bind
  rintro n n' m₃ s₃ - ⟨rfl, rfl, -, hs⟩
  obtain rfl := Page.node.inj hs.eq_node
  have hV₂ := hV.trans (Finset.subset_insert node V)
  have hid₂ : id ∈ insert node V := Finset.mem_insert_of_mem hid
  apply (h₂.sim_changeTablePage hE hV₂ hid₂ (f := (·.setBtreePageID n'.pageID)) (fun p q hsame => ?_) fun _ => rfl).bind
  swap
  · exact ⟨hsame.pageID, hsame.types, rfl, hsame.numTuples⟩
  rintro - - m₄ s₄ - h₄
  apply (h₄.sim_readTablePage hE hV₂ hid₂).bind
  rintro p q m₅ s₅ - ⟨rfl, h₅, -, hsame⟩
  rw [hsame.btreePageID]
  exact sim_pure ⟨rfl, _, Finset.subset_insert .., h₅.forget (List.nil_subset _)⟩

theorem sim_create {N : ℕ} {types : Tuple} (h : Works c V [] m s) (hE : Outer E)
    (hR : E Pager.sizeLimit → ∀ m s, R m s) (hV : bitmaps ⊆ V) (hcard : V.card + 1 < c) (ok : m.Ok)
    (hinv : Pager.Inv m N) (name : List Byte) (hacc : TablePage.Accepts types) :
    Sim E (Table.create Mem.cache.toCacheOps name types) (Table.create cacheOps name types) m s
      (fun t t' m' s' => t' = t ∧ ∃ W, V ⊆ W ∧ Works c W [] m' s') R := by
  apply (h.sim_createNewPage (.table types PGID_INVALID) hE hR hV (Nat.lt_of_succ_lt hcard) ok hinv nofun hacc
    (fun _ => trivial) fun _ _ => nofun).bind
  rintro id page m₁ s₁ - ⟨⟨ok₁, ⟨N₁, hinv₁⟩, -⟩, h₁⟩
  apply (h₁.sim_deref (T := TablePage) (List.mem_cons_self ..)).bind
  rintro p q m₂ s₂ - ⟨rfl, rfl, -, hs⟩
  obtain ⟨hid, -, -, -⟩ : TablePage.Same p q := hs.again
  have hq : q.pageID = id := hs.pageID
  rw [← hid, hq]
  have h₂ : Works c (insert id V) [] m₂ s₂ := h₁.forget (List.nil_subset _)
  refine (h₂.sim_createRoot hE hR (hV.trans (Finset.subset_insert ..)) ((Finset.card_insert_le ..).trans_lt hcard)
    (Finset.mem_insert_self ..) ok₁ hinv₁ name).mono ?_ fun _ _ hR => hR
  rintro t t' m' s' ⟨rfl, W, hW, hw⟩
  exact ⟨rfl, W, (Finset.subset_insert ..).trans hW, hw⟩

theorem sim_load (h : Works c V H m s) (hE : Outer E) (hV : bitmaps ⊆ V) (hid : id ∈ V) (name : List Byte) :
    Sim E (Table.load Mem.cache.toCacheOps name id) (Table.load cacheOps name id) m s
      (fun t t' m' s' => t' = t ∧ m' = m ∧ Works c V H m s') R := by
  apply (h.sim_readDegree hE hV hid).bind
  rintro d d' m₁ s₁ - ⟨rfl, rfl, h₁⟩
  apply (h₁.sim_readTablePage hE hV hid).bind
  rintro p q m₂ s₂ - ⟨rfl, h₂, -, hsame⟩
  rw [hsame.btreePageID]
  exact sim_pure ⟨rfl, rfl, h₂⟩

end PageCache.Works

namespace Table

variable {K : Cell Tuple → Prop} {L : Layout} {fuel : ℕ} {types values : Tuple} {key : Vari}
variable {st : TableState Mem} {t : TableState (PageCache Page Block)} {α β : Type}

/-- The same table, whose pages are the ones in the cache. -/
structure InStep (c : ℕ) (V : Finset ℕ) (st : TableState Mem) (t : TableState (PageCache Page Block)) : Prop where
  table_eq : t.table = st.table
  works : Works c V [] st.pager t.pager

/-- The bitmaps and the table page. -/
def pagesOf (t : Table) : Finset ℕ := Insert.insert t.tablePageID bitmaps

namespace InStep

variable {R : TableState Mem → TableState (PageCache Page Block) → Prop}

theorem sim_tablePage (h : InStep c (pagesOf st.table) st t) (hE : Outer E) :
    Sim E (tablePage Mem.cache.toCacheOps) (tablePage cacheOps) st t (fun p q st' t' => st' = st ∧
      InStep c (pagesOf st.table) st t' ∧ st.pager.view st.table.tablePageID = some (.table p) ∧
      TablePage.Same p q) R := by
  apply sim_gets
  rw [h.table_eq]
  refine sim_zoom ((h.works.sim_readTablePage hE (Finset.subset_insert ..) (Finset.mem_insert_self ..)).mono ?_
    fun _ _ hR => hR)
  rintro p q m' s' ⟨rfl, hw, hp, hsame⟩
  exact ⟨rfl, ⟨h.table_eq, hw⟩, hp, hsame⟩

theorem sim_checkTypes (h : InStep c (pagesOf st.table) st t) (hE : Outer E) (values : Tuple) (i : ℕ) :
    Sim E (checkTypes Mem.cache.toCacheOps values i) (checkTypes cacheOps values i) st t
      (fun _ _ st' t' => st' = st ∧ InStep c (pagesOf st.table) st t')
      fun st' t' => st' = st ∧ InStep c (pagesOf st.table) st t' := by
  induction values generalizing i t with
  | nil => exact sim_pure ⟨rfl, h⟩
  | cons value values ih =>
    rw [checkTypes, checkTypes]
    apply (h.sim_tablePage hE).bind
    rintro p q st₁ t₁ - ⟨rfl, h₁, -, hsame⟩
    refine hsame.sim_type fun a b hab => ?_
    dsimp only
    exact sim_ite (by rw [hab]) (fun _ => sim_raise_bind fun _ => ⟨rfl, h₁⟩) fun _ => ih h₁ (i + 1)

theorem sim_checkTuple (h : InStep c (pagesOf st.table) st t) (hE : Outer E) (values : Tuple) :
    Sim E (checkTuple Mem.cache.toCacheOps values) (checkTuple cacheOps values) st t
      (fun _ _ st' t' => st' = st ∧ InStep c (pagesOf st.table) st t')
      fun st' t' => st' = st ∧ InStep c (pagesOf st.table) st t' := by
  apply (h.sim_tablePage hE).bind
  rintro p q st₁ t₁ - ⟨rfl, h₁, -, hsame⟩
  have hlen : q.types.length = p.types.length := by simpa using congrArg List.length hsame.types
  dsimp only
  exact sim_ite (by rw [hlen]) (fun _ => sim_raise_bind fun _ => ⟨rfl, h₁⟩) fun _ => h₁.sim_checkTypes hE values 0

theorem sim_checkKey (h : InStep c (pagesOf st.table) st t) (hE : Outer E) (key : Vari) :
    Sim E (checkKey Mem.cache.toCacheOps key) (checkKey cacheOps key) st t
      (fun _ _ st' t' => st' = st ∧ InStep c (pagesOf st.table) st t')
      fun st' t' => st' = st ∧ InStep c (pagesOf st.table) st t' := by
  apply (h.sim_tablePage hE).bind
  rintro p q st₁ t₁ - ⟨rfl, h₁, -, hsame⟩
  refine hsame.sim_type fun a b hab => ?_
  exact sim_ite (by rw [hab]) (fun _ => sim_raise ⟨rfl, h₁⟩) fun _ => sim_pure ⟨rfl, h₁⟩

theorem sim_recordInsert (h : InStep c (pagesOf st.table) st t) (hE : Outer E) (og_root : ℕ) :
    Sim E (recordInsert Mem.cache.toCacheOps og_root) (recordInsert cacheOps og_root) st t
      (fun _ _ st' t' => ∃ V, InStep c V st' t') R := by
  have hV : bitmaps ⊆ pagesOf st.table := Finset.subset_insert ..
  have hid : st.table.tablePageID ∈ pagesOf st.table := Finset.mem_insert_self ..
  apply sim_gets
  rw [h.table_eq]
  apply (sim_zoom (Q := fun _ _ st' t' => st'.table = st.table ∧ InStep c (pagesOf st.table) st' t')
    ((h.works.sim_changeTablePage (R := fun _ _ => False) hE hV hid (f := TablePage.addTuple) (fun p q hsame => ?_)
      fun _ => rfl).mono (fun _ _ m' s' hw => ⟨rfl, h.table_eq, hw⟩) fun _ _ hfalse => hfalse.elim)).bind
  swap
  · exact ⟨hsame.pageID, hsame.types, hsame.btreePageID, congrArg (fun k => (k + 1) % 2 ^ 64) hsame.numTuples⟩
  rintro - - st₁ t₁ - ⟨htable, h₁⟩
  apply sim_ite Iff.rfl
  · intro _
    refine sim_zoom ((h₁.works.sim_changeTablePage hE hV hid (f := (·.setBtreePageID st.table.rootPageID))
      (fun p q hsame => ?_) fun _ => rfl).mono (fun _ _ m' s' hw => ⟨_, h₁.table_eq, hw⟩) fun _ _ hR => hR)
    exact ⟨hsame.pageID, hsame.types, rfl, hsame.numTuples⟩
  · exact fun _ => sim_pure ⟨_, h₁⟩

end InStep

/-- What a call on rows finds: a balanced tree of cells of `K`, in which all pages last that are not too large,
enough fuel, and enough room in the cache. -/
structure Ready (c fuel : ℕ) (K : Cell Tuple → Prop) (types : Tuple) (L : Layout) (st : TableState Mem) : Prop where
  ok : (tidyPager Mem.cache).Ok st.pager
  page : ∃ k, TableAt st.pager st.table.tablePageID ⟨st.table.tablePageID, types, st.table.rootPageID, k⟩
  types_ne : types ≠ []
  degree : 2 ≤ effectiveDegree st.table.degree
  balanced : Balanced False st.table.degree (effectiveDegree st.table.degree)
    (treeAt st.pager st.table.rootPageID) L none
  cells : ∀ d, CellIn (nodeAt st.pager) L d → K d
  clean : Clean st.table.degree (effectiveDegree st.table.degree) K ⟨st.pager, st.table.rootPageID⟩
    (treeAt st.pager st.table.rootPageID) L
  fuel_le : L.height st.table.rootPageID + 2 ≤ fuel
  room : effectiveDegree st.table.degree + 5 ≤ c

namespace Ready

variable {R : TableState Mem → TableState (PageCache Page Block) → Prop} {op : TupleOp}

theorem held (h : Ready c fuel K types L st) (hst : InStep c V st t) :
    Held c ∅ [] (treeAt st.pager st.table.rootPageID) ⟨st.pager, st.table.rootPageID⟩
      ⟨t.pager, t.table.rootPageID⟩ := by
  have hs : Held c V [] (treeAt st.pager st.table.rootPageID) ⟨st.pager, st.table.rootPageID⟩
      ⟨t.pager, t.table.rootPageID⟩ := ⟨h.ok, rfl, congrArg Table.rootPageID hst.table_eq, hst.works⟩
  exact hs.rest (hs.clean_none h.clean h.cells h.balanced)

theorem card_pagesOf_le (h : Ready c fuel K types L st) : (pagesOf st.table).card ≤ c :=
  card_insert_bitmaps_le ((Nat.le_add_left 3 _).trans h.room) _

theorem inStep (h : Ready c fuel K types L st) (hst : InStep c V st t) : InStep c (pagesOf st.table) st t :=
  ⟨hst.table_eq, (h.held hst).works.extend (Finset.empty_subset _) h.card_pagesOf_le⟩

theorem sim_onBtree (h : Ready c fuel K types L st) (hst : InStep c V st t) (hkeeps : op.treeOp.Keeps K)
    {p : BtreeM Mem α} {q : BtreeM (PageCache Page Block) α} {f : α → Btree.Reply Tuple}
    (hp : op.treeOp.onTree (nodeOps Mem.cache.toCacheOps) st.table.degree fuel = do return f (← p))
    (hsim : Sim E p q ⟨st.pager, st.table.rootPageID⟩ ⟨t.pager, t.table.rootPageID⟩
      (fun a b st' t' => b = a ∧ ∃ V h', Held c V [] h' st' t')
      fun b b' => R ⟨b.pager, { st.table with rootPageID := b.rootPageID }⟩
        ⟨b'.pager, { t.table with rootPageID := b'.rootPageID }⟩) :
    Sim E (onBtree p) (onBtree q) st t (fun a b st' t' => b = a ∧ st'.table.tablePageID = st.table.tablePageID ∧
      InStep c (pagesOf st.table) st' t') R := by
  refine sim_zoom ((sim_settle h.degree rfl h.balanced (h.held hst) h.clean h.cells hkeeps h.fuel_le hp hsim).mono ?_
    fun _ _ hR => hR)
  rintro a b st' t' ⟨rfl, -, h', hs⟩
  refine ⟨rfl, rfl, ?_, hs.works.extend (Finset.empty_subset _) h.card_pagesOf_le⟩
  rw [hst.table_eq, hs.root_eq]

theorem tupleError_eq_none (h : Ready c fuel K types L st) {st' : TableState Mem}
    (hrun : checkTuple Mem.cache.toCacheOps values st = .ok () st') : tupleError types values = none := by
  obtain ⟨k, hpage⟩ := h.page
  obtain ⟨ok, N, hinv⟩ := h.ok
  obtain ⟨s', -, -, hcheck⟩ := checkTuple_eq (C := Mem.cache) st ok hinv hpage values
  rw [hcheck] at hrun
  cases herr : tupleError types values with
  | none => rfl
  | some e =>
    rw [show tupleError (TablePage.mk _ types _ _).types values = some e from herr] at hrun
    cases hrun

theorem sim_insertTuple (h : Ready c fuel K types L st) (hst : InStep c V st t) (hE : Outer E)
    (hR : E sizeLimit → ∀ st t, R st t) (hrel : ∀ V st t, InStep c V st t → R st t)
    (hkeeps : tupleError types values = none → (TupleOp.insert values).treeOp.Keeps K) :
    Sim E (insertTuple Mem.cache.toCacheOps fuel values) (insertTuple cacheOps fuel values) st t
      (fun a b st' t' => b = a ∧ ∃ V, InStep c V st' t') R := by
  apply (((h.inStep hst).sim_checkTuple hE values).mono (fun _ _ _ _ hpost => hpost)
    fun st' t' hpost => hrel _ _ _ (hpost.1 ▸ hpost.2)).bind
  rintro _ - st₁ t₁ hrun ⟨rfl, h₁⟩
  have hkeeps := hkeeps (h.tupleError_eq_none hrun)
  apply sim_gets
  refine sim_index fun key hkey => ?_
  obtain ⟨columns, rfl⟩ : ∃ columns, values = key :: columns := by
    cases values with
    | nil => cases hkey
    | cons k columns =>
      cases hkey
      exact ⟨columns, rfl⟩
  rw [h₁.table_eq]
  apply (h.sim_onBtree h₁ hkeeps (f := .changed) rfl (sim_insert hE (fun he _ _ => hR he _ _) h.degree rfl h.room
    h.balanced (h.held h₁) h.clean h.cells fuel hkeeps)).bind
  rintro success - st₂ t₂ - ⟨rfl, htable, h₂⟩
  dsimp only
  apply sim_ite Iff.rfl
  · intro _
    have h₂' : InStep c (pagesOf st₂.table) st₂ t₂ := by
      rw [pagesOf, htable]
      exact h₂
    apply (h₂'.sim_recordInsert hE st₁.table.rootPageID).bind
    exact fun _ _ st₃ t₃ _ h₃ => sim_pure ⟨rfl, h₃⟩
  · exact fun _ => sim_pure ⟨rfl, _, h₂⟩

theorem sim_updateTuple (h : Ready c fuel K types L st) (hst : InStep c V st t) (hE : Outer E)
    (hrel : ∀ V st t, InStep c V st t → R st t)
    (hkeeps : tupleError types values = none → (TupleOp.update values).treeOp.Keeps K) :
    Sim E (updateTuple Mem.cache.toCacheOps fuel values) (updateTuple cacheOps fuel values) st t
      (fun a b st' t' => b = a ∧ ∃ V, InStep c V st' t') R := by
  apply (((h.inStep hst).sim_checkTuple hE values).mono (fun _ _ _ _ hpost => hpost)
    fun st' t' hpost => hrel _ _ _ (hpost.1 ▸ hpost.2)).bind
  rintro _ - st₁ t₁ hrun ⟨rfl, h₁⟩
  have hkeeps := hkeeps (h.tupleError_eq_none hrun)
  refine sim_index fun key hkey => ?_
  obtain ⟨columns, rfl⟩ : ∃ columns, values = key :: columns := by
    cases values with
    | nil => cases hkey
    | cons k columns =>
      cases hkey
      exact ⟨columns, rfl⟩
  have hs := h.held h₁
  refine (h.sim_onBtree h₁ hkeeps (f := .changed) rfl (sim_update hE ((Nat.le_add_left 3 _).trans h.room) h.balanced hs
    (hs.clean_none h.clean h.cells h.balanced) fuel _ key)).mono ?_ fun _ _ hR => hR
  rintro success - st₂ t₂ ⟨rfl, -, h₂⟩
  exact ⟨rfl, _, h₂⟩

theorem sim_readTuple (h : Ready c fuel K types L st) (hst : InStep c V st t) (hE : Outer E)
    (hrel : ∀ V st t, InStep c V st t → R st t) (key : Vari) :
    Sim E (readTuple Mem.cache.toCacheOps fuel key) (readTuple cacheOps fuel key) st t
      (fun a b st' t' => b = a ∧ ∃ V, InStep c V st' t') R := by
  apply (((h.inStep hst).sim_checkKey hE key).mono (fun _ _ _ _ hpost => hpost)
    fun st' t' hpost => hrel _ _ _ (hpost.1 ▸ hpost.2)).bind
  rintro - - st₁ t₁ - ⟨rfl, h₁⟩
  have hs := h.held h₁
  refine (h.sim_onBtree h₁ (show (TupleOp.read key).treeOp.Keeps K from trivial) (f := .found) rfl
    (sim_search hE ((Nat.le_add_left 3 _).trans h.room) h.balanced hs
      (hs.clean_none h.clean h.cells h.balanced) fuel key)).mono ?_ fun _ _ hR => hR
  rintro row - st₂ t₂ ⟨rfl, -, h₂⟩
  exact ⟨rfl, _, h₂⟩

end Ready

namespace InStep

variable {R : TableState Mem → TableState (PageCache Page Block) → Prop}

theorem sim_deleteTuple (h : InStep c (pagesOf st.table) st t) (hE : Outer E)
    (hrel : ∀ V st t, InStep c V st t → R st t) (key : Vari) :
    Sim E (deleteTuple Mem.cache.toCacheOps key) (deleteTuple cacheOps key) st t
      (fun a b st' t' => b = a ∧ ∃ V, InStep c V st' t') R := by
  apply ((h.sim_checkKey hE key).mono (fun _ _ _ _ hpost => hpost) fun st' t' hpost =>
    hrel _ _ _ (hpost.1 ▸ hpost.2)).bind
  rintro - - st₁ t₁ - ⟨rfl, h₁⟩
  exact sim_pure ⟨rfl, _, h₁⟩

theorem sim_getNumTuples (h : InStep c (pagesOf st.table) st t) (hE : Outer E) :
    Sim E (getNumTuples Mem.cache.toCacheOps) (getNumTuples cacheOps) st t
      (fun a b st' t' => b = a ∧ ∃ V, InStep c V st' t') R := by
  apply (h.sim_tablePage hE).bind
  rintro p q st₁ t₁ - ⟨rfl, h₁, -, hsame⟩
  exact sim_pure ⟨hsame.numTuples, _, h₁⟩

theorem sim_getTypes (h : InStep c (pagesOf st.table) st t) (hE : Outer E) :
    Sim E (getTypes Mem.cache.toCacheOps) (getTypes cacheOps) st t
      (fun a b st' t' => b.map variant_to_type_id = a.map variant_to_type_id ∧ ∃ V, InStep c V st' t') R := by
  apply (h.sim_tablePage hE).bind
  rintro p q st₁ t₁ - ⟨rfl, h₁, -, hsame⟩
  exact sim_pure ⟨hsame.types, _, h₁⟩

end InStep

end Table
end Kndb
