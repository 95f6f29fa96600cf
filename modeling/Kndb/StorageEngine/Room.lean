import Mathlib.Algebra.BigOperators.Finprod
import Kndb.Btree.Pages
import Kndb.StorageEngine.Evicting

namespace Kndb.StorageEngine

open Imp Imp.Prog Btree LawfulCache Pager Table

theorem finsum_update {ι M : Type} [DecidableEq ι] [AddCommMonoid M] {f : ι → M} (hf : (Function.support f).Finite)
    (a : ι) (b : M) : ∑ᶠ x, Function.update f a b x + f a = ∑ᶠ x, f x + b := by
  have hmem : a ∈ Insert.insert a hf.toFinset := Finset.mem_insert_self ..
  have hsub : Function.support f ⊆ (Insert.insert a hf.toFinset : Finset ι) := fun x hx =>
    Finset.mem_insert_of_mem (hf.mem_toFinset.mpr hx)
  have hsub' : Function.support (Function.update f a b) ⊆ (Insert.insert a hf.toFinset : Finset ι) := by
    intro x hx
    by_cases hxa : x = a
    · exact hxa ▸ hmem
    · rw [Function.mem_support, Function.update_of_ne hxa] at hx
      exact hsub hx
  rw [finsum_eq_sum_of_support_subset _ hsub, finsum_eq_sum_of_support_subset _ hsub',
    Finset.sum_update_of_mem hmem, ← Finset.sum_sdiff (Finset.singleton_subset_iff.mpr hmem), Finset.sum_singleton,
    add_assoc, add_comm]

noncomputable def Catalog.total (f : List Byte → Content → ℕ) (K : Catalog) : ℕ := ∑ᶠ name, (K name).elim 0 (f name)

section Total

variable {K : Catalog} {f g : List Byte → Content → ℕ} {name : List Byte}

theorem Catalog.finite_support (hfin : {name | (K name).isSome}.Finite) (f : List Byte → Content → ℕ) :
    (Function.support fun name => (K name).elim 0 (f name)).Finite := by
  refine hfin.subset fun name hname => ?_
  cases hc : K name with
  | none => simp [hc] at hname
  | some c => simp [hc]

theorem Catalog.total_update (hfin : {name | (K name).isSome}.Finite) (name : List Byte)
    (hfg : ∀ x ≠ name, g x = f x) (o : Option Content) :
    Catalog.total g (Function.update K name o) + (K name).elim 0 (f name) = K.total f + o.elim 0 (g name) := by
  have hupdate : (fun x => (Function.update K name o x).elim 0 (g x)) =
      Function.update (fun x => (K x).elim 0 (f x)) name (o.elim 0 (g name)) := by
    funext x
    by_cases hx : x = name
    · subst hx
      rw [Function.update_self, Function.update_self]
    · rw [Function.update_of_ne hx, Function.update_of_ne hx, hfg x hx]
  rw [Catalog.total, Catalog.total, hupdate]
  exact finsum_update (K.finite_support hfin f) name _

theorem Catalog.total_mono (hfin : {name | (K name).isSome}.Finite) (hle : ∀ x c, K x = some c → f x c ≤ g x c) :
    K.total f ≤ K.total g := by
  refine finsum_le_finsum' (K.finite_support hfin _) (K.finite_support hfin _) fun x => ?_
  cases hcx : K x with
  | none => simp
  | some cx => simpa using hle x cx hcx

theorem Catalog.total_add_le (hfin : {name | (K name).isSome}.Finite)
    (hle : ∀ x c, K x = some c → f x c ≤ g x c) {c : Content} (hc : K name = some c) {j : ℕ}
    (hj : f name c + j ≤ g name c) : K.total f + j ≤ K.total g := by
  have hmore := K.total_update hfin name (g := Function.update f name fun c => f name c + j)
    (fun x hx => Function.update_of_ne hx ..) (some c)
  rw [← hc, Function.update_eq_self, hc, Option.elim_some, Option.elim_some, Function.update_self] at hmore
  have hmono : K.total (Function.update f name fun c => f name c + j) ≤ K.total g := by
    refine Catalog.total_mono hfin fun x cx hcx => ?_
    by_cases hx : x = name
    · subst hx
      obtain rfl : c = cx := Option.some.inj (hc.symm.trans hcx)
      rwa [Function.update_self]
    · rw [Function.update_of_ne hx]
      exact hle x cx hcx
  omega

end Total

variable {σ : Type} {C : LawfulCache σ} {e e' : StorageEngine σ} {m m' : Mem} {N : ℕ} {K : Catalog}
variable {tables : List Table} {L : List Byte → Layout} {t : Table} {types : Tuple} {M : Rank → Option Tuple}

/-- The pages that a table takes at most: its page, the root of its tree, and a page for every `t - 1` rows. -/
noncomputable def Content.pages (c : Content) : ℕ := 2 + (keys c.rows).ncard / (tableDegree c.types - 1)

theorem exists_insertNeeds {L : Layout} {c : Content} (h : TableOk m t c.types L c.rows)
    (hdeg : 2 ≤ tableDegree c.types) (key : Vari) (k : ℕ) : ∃ j : ℕ,
      insertNeeds (nodeAt m) t.rootPageID key k = j ∧ 1 + L.pages.card + j ≤ c.pages := by
  have hle := tableDegree_le c.types
  have hsame : effectiveDegree t.degree = tableDegree c.types := by
    rw [h.degree, effectiveDegree_of_le (Nat.one_le_of_lt hdeg) (by omega)]
  have hb := h.balanced
  rw [hsame] at hb
  obtain ⟨j, hneeds, hcard⟩ := hb.linked.exists_insertNeeds hb.sized.toOccupied hsame hdeg key k
  refine ⟨j, hneeds, ?_⟩
  have hone : 0 < L.pages.card := Finset.card_pos.mpr ⟨_, hb.linked.root_mem⟩
  have hrows : L.pages.card - 1 + j ≤ (keys c.rows).ncard / (tableDegree c.types - 1) := by
    rw [Nat.le_div_iff_mul_le (by omega), ncard_keys h.tree h.represents]
    exact hcard
  rw [Content.pages]
  omega

theorem card_le_pages {L : Layout} {c : Content} (h : TableOk m t c.types L c.rows)
    (hdeg : 2 ≤ tableDegree c.types) : 1 + L.pages.card ≤ c.pages := by
  obtain ⟨j, -, hle⟩ := exists_insertNeeds h hdeg (.int 0) 0
  omega

theorem card_liveIds_advance {L L' : Layout} {t' : Table} {M' : Rank → Option Tuple} (ok : TableOk m t types L M)
    (hadv : Advance m m' t t' types L L' M') (hconf : Confined m m' L') :
    (liveIds m').card + L.pages.card ≤ (liveIds m).card + L'.pages.card := by
  have hsub : liveIds m' ⊆ liveIds m ∪ L'.pages \ L.pages := by
    intro x hx
    by_cases hold : x ∈ liveIds m
    · exact Finset.mem_union_left _ hold
    · exact Finset.mem_union_right _ (Finset.mem_sdiff.mpr ⟨hconf.new x hx hold, fun hmem => hold (ok.live hmem)⟩)
  have hcard := (Finset.card_le_card hsub).trans (Finset.card_union_le ..)
  rw [Finset.card_sdiff_of_subset hadv.pages] at hcard
  have hle := Finset.card_le_card hadv.pages
  omega

theorem Content.pages_le_onRows {c : Content} (hfin : (keys c.rows).Finite) (op : TupleOp) :
    c.pages ≤ Content.pages { c with rows := (op.onRows c.types c.rows).2 } := by
  cases herr : op.error c.types with
  | some x => rw [TupleOp.onRows, herr]
  | none =>
    rw [TupleOp.onRows_of_none herr, Content.pages, Content.pages]
    dsimp only
    rw [op.ncard_keys_onMap hfin]
    exact Nat.add_le_add_left (Nat.div_le_div_right (Nat.le_add_right ..)) 2

/-- The pages that the tables of a catalog take at most. -/
noncomputable def Catalog.pages (K : Catalog) : ℕ := K.total fun _ => Content.pages

/-- The pages that the tables of a catalog take, with the trees `L`. -/
noncomputable def Catalog.taken (K : Catalog) (L : List Byte → Layout) : ℕ :=
  K.total fun name _ => 1 + (L name).pages.card

section Update

variable {K : Catalog} {L : List Byte → Layout} {name : List Byte}

theorem Catalog.pages_update (hfin : {name | (K name).isSome}.Finite) (name : List Byte) (o : Option Content) :
    Catalog.pages (Function.update K name o) + (K name).elim 0 Content.pages = K.pages + o.elim 0 Content.pages :=
  K.total_update hfin name (fun _ _ => rfl) o

theorem Catalog.pages_create (hfin : {name | (K name).isSome}.Finite) (hnone : K name = none) (types : Tuple) :
    Catalog.pages (Function.update K name (some ⟨types, fun _ => none⟩)) = K.pages + 2 := by
  have htotal := Catalog.pages_update hfin name (some ⟨types, fun _ => none⟩)
  rw [hnone, Option.elim_none, Option.elim_some, Nat.add_zero] at htotal
  rw [htotal]
  simp [Content.pages, keys]

theorem Catalog.pages_single (name : List Byte) (c : Content) :
    Catalog.pages (Function.update (fun _ => none) name (some c)) = c.pages := by
  have hfin : {name | ((fun _ => none : Catalog) name).isSome}.Finite := by simp
  have htotal := Catalog.pages_update hfin name (some c)
  rw [Option.elim_none, Option.elim_some, Nat.add_zero] at htotal
  rw [htotal]
  simp [Catalog.pages, Catalog.total]

theorem Catalog.taken_update (hfin : {name | (K name).isSome}.Finite) (name : List Byte) (c : Content) (l : Layout) :
    Catalog.taken (Function.update K name (some c)) (Function.update L name l) +
      (K name).elim 0 (fun _ => 1 + (L name).pages.card) = K.taken L + (1 + l.pages.card) := by
  have htotal := K.total_update hfin name (f := fun name _ => 1 + (L name).pages.card)
    (g := fun x _ => 1 + (Function.update L name l x).pages.card)
    (fun x hx => by rw [Function.update_of_ne hx]) (some c)
  rwa [Option.elim_some, Function.update_self] at htotal

theorem Catalog.taken_drop (hfin : {name | (K name).isSome}.Finite) (name : List Byte) :
    Catalog.taken (Function.update K name none) L + (K name).elim 0 (fun _ => 1 + (L name).pages.card) = K.taken L :=
  K.total_update hfin name (fun _ _ => rfl) none

end Update

theorem EngineOk.finite_names (h : EngineOk C e K) : {name | (K name).isSome}.Finite := by
  refine (Finset.finite_toSet (e.tables.map Table.name).toFinset).subset fun name hname => ?_
  rw [List.coe_toFinset]
  exact (h.catalog name).mp hname

theorem EngineOk.taken_le_pages (h : EngineOk C e K) (hholds : Holds (C.mem e.pager) e.tables K L) (name : List Byte)
    (c : Content) (hc : K name = some c) : 1 + (L name).pages.card ≤ c.pages := by
  obtain ⟨t, ht, rfl⟩ := List.mem_map.mp ((h.catalog name).mp (Option.isSome_of_eq_some hc))
  obtain ⟨c', hc', hdeg, ok⟩ := hholds.table t ht
  obtain rfl : c' = c := Option.some.inj (hc'.symm.trans hc)
  exact card_le_pages ok hdeg

theorem EngineOk.taken_le (h : EngineOk C e K) (hholds : Holds (C.mem e.pager) e.tables K L) :
    K.taken L ≤ K.pages := Catalog.total_mono h.finite_names (h.taken_le_pages hholds)

/-- The pages that the tables take, and those that an insertion into one of them would create. -/
theorem EngineOk.taken_add_le (h : EngineOk C e K) (hholds : Holds (C.mem e.pager) e.tables K L) (ht : t ∈ e.tables)
    (key : Vari) (k : ℕ) : ∃ j : ℕ, insertNeeds (nodeAt (C.mem e.pager)) t.rootPageID key k = j ∧
      K.taken L + j ≤ K.pages := by
  obtain ⟨c, hc, hdeg, ok⟩ := hholds.table t ht
  obtain ⟨j, hneeds, hle⟩ := exists_insertNeeds ok hdeg key k
  exact ⟨j, hneeds, Catalog.total_add_le h.finite_names (h.taken_le_pages hholds) hc hle⟩

/-- The pages that are left behind when a table is dropped. -/
noncomputable def EngineOp.left (op : EngineOp) (K : Catalog) : ℕ :=
  match op with
  | dropTable name => (K name).elim 0 Content.pages
  | _ => 0

/-- An engine that stands for a catalog, with no more than `w` pages in use that belong to no table. -/
structure Frugal (C : LawfulCache σ) (e : StorageEngine σ) (K : Catalog) (w : ℕ) : Prop extends EngineOk C e K where
  spent : ∃ L, Holds (C.mem e.pager) e.tables K L ∧ (liveIds (C.mem e.pager)).card ≤ w + K.taken L

/-- What a call comes to: no page is left for it and the catalog does not fit the file, or the pages that are in use
are accounted for. -/
def Accounts (C : LawfulCache σ) (K : Catalog) (w : ℕ) (op : EngineOp) (r : Except Exn EngineReply)
    (e' : StorageEngine σ) : Prop :=
  (r = .error sizeLimit ∧ capacity < w + (op.onCatalog K).pages) ∨
    r ≠ .error sizeLimit ∧ ∃ L, Holds (C.mem e'.pager) e'.tables (op.onCatalog K) L ∧
      (liveIds (C.mem e'.pager)).card ≤ w + op.left K + (op.onCatalog K).taken L

namespace Frugal

variable {w fuel : ℕ} {op : EngineOp} {r : Except Exn EngineReply} {name : List Byte}

theorem accounts_same (h : Frugal C e K w) (hm : C.mem e'.pager = C.mem e.pager) (htables : e'.tables = e.tables)
    (hcat : op.onCatalog K = K) (hne : r ≠ .error sizeLimit) : Accounts C K w op r e' := by
  obtain ⟨L, hholds, hspent⟩ := h.spent
  refine .inr ⟨hne, L, ?_, ?_⟩
  · rwa [hm, htables, hcat]
  · rw [hm, hcat]
    omega

theorem card_le (h : Frugal C e K w) : (liveIds (C.mem e.pager)).card ≤ w + K.pages := by
  obtain ⟨L, hholds, hspent⟩ := h.spent
  exact hspent.trans (Nat.add_le_add_left (h.taken_le hholds) w)

theorem accounts_createTable (h : Frugal C e K w) (hadm : (EngineOp.createTable name types).Admissible K)
    (hrun : (EngineOp.createTable name types).run C.toCacheOps fuel e = .answer r e') :
    Accounts C K w (.createTable name types) r e' := by
  obtain ⟨hacc, hdeg, hlen⟩ := hadm
  obtain ⟨N, hinv⟩ := h.inv
  obtain ⟨p, hp, hperm⟩ := h.schema
  have hcat := h.nameError_eq name
  rw [hcat, h.ncard_eq] at hlen
  cases herr : nameError e.tables name with
  | some x =>
    rw [EngineOp.run, bind_apply, seq, createTable_of_error herr] at hrun
    obtain ⟨rfl, rfl⟩ := Outcome.answer_of_throw hrun
    refine h.accounts_same rfl rfl ?_ fun heq => ?_
    · rw [EngineOp.onCatalog, hcat, herr, if_neg (Option.some_ne_none x)]
    · cases heq
      exact absurd (Catalog.nameError_mem (hcat.trans herr)) (by decide)
  | none =>
    have hnone : K name = none := by
      rw [← Option.not_isSome_iff_eq_none, h.catalog]
      exact (nameError_eq_none.mp herr).2
    have hafter : (EngineOp.createTable name types).onCatalog K =
        Function.update K name (some ⟨types, fun _ => none⟩) := by
      rw [EngineOp.onCatalog, hcat, if_pos herr]
    have hfull : remaining (C.mem e.pager) < 2 → capacity < w + Catalog.pages
        ((EngineOp.createTable name types).onCatalog K) := by
      intro hlt
      have := h.card_le
      rw [remaining] at hlt
      rw [hafter, Catalog.pages_create h.finite_names hnone]
      omega
    have hthrow : ∀ s', create C.toCacheOps name types e.pager = .throw sizeLimit s' →
        remaining (C.mem e.pager) < 2 → Accounts C K w (.createTable name types) r e' := by
      intro s' hs' hlt
      rw [EngineOp.run, bind_apply, seq, createTable_of_throw herr hs'] at hrun
      exact .inl ⟨(Outcome.answer_of_throw hrun).1, hfull hlt⟩
    rcases create_cases name h.ok hinv hacc with ⟨h0, s', hs', -⟩ | ⟨h1, -, s', hs', -⟩ |
      ⟨-, t, s₁, hs₁, ok₁, rfl, -, hcreated⟩
    · exact hthrow s' hs' (by omega)
    · exact hthrow s' hs' (by omega)
    obtain ⟨S, hn, -⟩ := h.rooted
    obtain ⟨N₁, hinv₁⟩ := hcreated.inv
    obtain ⟨L, hholds, hspent⟩ := h.spent
    have hp₁ := hp.kept (kept_of_created hcreated hn)
    obtain ⟨s₂, hrun₂, ok₂, hm₂⟩ := createTable_of_ok herr hs₁ ok₁ hinv₁ hp₁ hperm (hlen herr) rfl
    rw [EngineOp.run, bind_ok hrun₂] at hrun
    obtain ⟨rfl, rfl⟩ := Outcome.answer_of_ok hrun
    refine .inr ⟨(fun heq => by cases heq), Function.update L t.name (.single t.rootPageID), ?_, ?_⟩
    · change Holds (C.mem s₂) _ _ _
      rw [hafter, hm₂]
      exact (hholds.create hcreated hacc.1 hdeg (nameError_eq_none.mp herr).2).setSchema hinv₁ hp₁
    · have htaken := Catalog.taken_update h.finite_names (L := L) t.name ⟨types, fun _ => none⟩
        (.single t.rootPageID)
      rw [hnone, Option.elim_none, Nat.add_zero, Layout.single, Finset.card_singleton] at htaken
      change (liveIds (C.mem s₂)).card ≤ _
      rw [hafter, hm₂, (hp₁.set hinv₁ _).2.1, hcreated.live, Layout.single, htaken]
      have hcard := Finset.card_insert_le t.rootPageID (insert t.tablePageID (liveIds (C.mem e.pager)))
      have hcard' := Finset.card_insert_le t.tablePageID (liveIds (C.mem e.pager))
      omega

theorem accounts_dropTable (h : Frugal C e K w)
    (hrun : (EngineOp.dropTable name).run C.toCacheOps fuel e = .answer r e') :
    Accounts C K w (.dropTable name) r e' := by
  obtain ⟨N, hinv⟩ := h.inv
  obtain ⟨p, hp, hperm⟩ := h.schema
  by_cases hmem : name ∈ e.tables.map Table.name
  · obtain ⟨t', ht', hname'⟩ := List.mem_map.mp hmem
    obtain ⟨i, t, s', ht, rfl, hdrop, -, hm'⟩ :=
      dropTable_of_mem h.ok hinv hp hperm (hname' ▸ h.nameOk t' ht') hmem
    rw [EngineOp.run, bind_ok hdrop] at hrun
    obtain ⟨rfl, rfl⟩ := Outcome.answer_of_ok hrun
    obtain ⟨L, hholds, hspent⟩ := h.spent
    refine .inr ⟨(fun heq => by cases heq), L, ?_, ?_⟩
    · change Holds (C.mem s') _ _ _
      rw [hm']
      exact (hholds.drop h.names ht).setSchema hinv hp
    · obtain ⟨c, hc, -⟩ := hholds.table t (List.mem_of_getElem? ht)
      have htaken := Catalog.taken_drop h.finite_names (L := L) t.name
      have hle := h.taken_le_pages hholds t.name c hc
      rw [hc, Option.elim_some] at htaken
      change (liveIds (C.mem s')).card ≤ _
      rw [hm', (hp.set hinv _).2.1, EngineOp.left, hc, Option.elim_some]
      exact hspent.trans (by rw [EngineOp.onCatalog]; omega)
  · have hnone : K name = none := by
      rwa [← Option.not_isSome_iff_eq_none, h.catalog]
    rw [EngineOp.run, bind_apply, seq, dropTable_of_not_mem hmem] at hrun
    obtain ⟨rfl, rfl⟩ := Outcome.answer_of_throw hrun
    refine h.accounts_same rfl rfl ?_ fun heq => absurd (Except.error.inj heq) (by decide)
    rw [EngineOp.onCatalog, ← hnone]
    exact Function.update_eq_self ..

/-- An insertion needs a page for each node that it splits. -/
theorem not_pagesSuffice_le (h : Frugal C e K w) (ht : t ∈ e.tables) {op' : TupleOp}
    (hpages : ¬PagesSuffice (C.mem e.pager) t.rootPageID op') : capacity < w + K.pages := by
  rw [PagesSuffice] at hpages
  push Not at hpages
  obtain ⟨values, -, f, hlt⟩ := hpages
  obtain ⟨L, hholds, hspent⟩ := h.spent
  obtain ⟨j, hneeds, hle⟩ := h.taken_add_le hholds ht (values.headD (.int 0)) f
  rw [hneeds, remaining, Nat.cast_lt] at hlt
  omega

theorem accounts_rows {β : Type} (h : Frugal C e K w) (op' : TupleOp) {q : TableM σ β}
    {g : Option β → EngineReply} {f : β → Reply Tuple} (hq : op'.run C.toCacheOps fuel = do return f (← q))
    (hkey : op'.key.isNaN = false)
    (hcat : op.onCatalog K = (K.onTable name op' (g none)).2)
    (hrun : (do return g (← onTable name q) : EngineM σ EngineReply) e = .answer r e') :
    Accounts C K w op r e' := by
  rcases onTable_answer hrun with ⟨hmem, rfl, rfl⟩ | ⟨i, t, y, st, ht, rfl, hy, rfl, rfl⟩
  · have hnone : K name = none := by
      rwa [← Option.not_isSome_iff_eq_none, h.catalog]
    refine h.accounts_same rfl rfl ?_ fun heq => by cases heq
    rw [hcat, Catalog.onTable, hnone]
  obtain ⟨L, hholds, hspent⟩ := h.spent
  have htmem := List.mem_of_getElem? ht
  obtain ⟨c, hc, hdeg, ok⟩ := hholds.table t htmem
  obtain ⟨N, hinv⟩ := h.inv
  have hcat' : op.onCatalog K = Function.update K t.name (some { c with rows := (op'.onRows c.types c.rows).2 }) := by
    rw [hcat, Catalog.onTable, hc]
  have hanswer : op'.run C.toCacheOps fuel ⟨e.pager, t⟩ = .answer (y.map f) st := by
    rw [hq, bind_apply, seq, hy]
    cases y <;> rfl
  have ok₀ : C.Ok (⟨e.pager, t⟩ : TableState σ).pager := h.ok
  rcases ok.run_within_of_ended ok₀ hinv (effectiveDegree_tableDegree_ge hdeg) hkey
      (hanswer ▸ Outcome.answer_ne_timeout) with ⟨st', L', hs', -, hadv, hconf, -⟩ | ⟨⟨herr, hpages, hno⟩, st', hs'⟩
  · obtain ⟨heq, rfl⟩ := Outcome.answer_inj (hanswer.symm.trans hs')
    refine .inr ⟨fun hlimit => ?_, Function.update L t.name L', ?_, ?_⟩
    · cases y with
      | ok b => cases hlimit
      | error x =>
        cases hlimit
        have hreply : (K.onTable t.name op' (g none)).1 = .error sizeLimit := by
          rw [Catalog.onTable, hc]
          dsimp only
          rw [← heq]
          rfl
        exact absurd (Catalog.onTable_mem hreply) (by decide)
    · rw [hcat']
      exact hholds.advance h.names ht hc hadv
    · have htaken := Catalog.taken_update h.finite_names (L := L) t.name
        { c with rows := (op'.onRows c.types c.rows).2 } L'
      rw [hc, Option.elim_some] at htaken
      have hcard := card_liveIds_advance ok hadv hconf
      change (liveIds (C.mem st.pager)).card ≤ _
      rw [hcat']
      omega
  · obtain ⟨heq, rfl⟩ := Outcome.answer_inj
      (hanswer.symm.trans (show _ = Outcome.answer (.error sizeLimit) st' from hs'))
    cases y with
    | ok b => cases heq
    | error x =>
      cases heq
      refine .inl ⟨rfl, (h.not_pagesSuffice_le htmem hpages).trans_le ?_⟩
      have hmore := Catalog.pages_update h.finite_names t.name
        (some { c with rows := (op'.onRows c.types c.rows).2 })
      rw [hc, Option.elim_some, Option.elim_some] at hmore
      have hrows := Content.pages_le_onRows (finite_keys ok.tree ok.represents) op'
      rw [hcat']
      omega

theorem accounts_query {β : Type} (h : Frugal C e K w) {q : TableM σ β}
    {g : Option β → EngineReply} {f : Content → Except Exn β}
    (hq : ∀ t c, TableAt (C.mem e.pager) t.tablePageID (pageOf t c.types c.rows) → c.types ≠ [] → ∃ s',
      C.Ok s' ∧ C.mem s' = C.mem e.pager ∧ q ⟨e.pager, t⟩ = .answer (f c) ⟨s', t⟩)
    (hf : ∀ c, f c ≠ .error sizeLimit) (hcat : op.onCatalog K = K)
    (hrun : (do return g (← onTable name q) : EngineM σ EngineReply) e = .answer r e') :
    Accounts C K w op r e' := by
  obtain ⟨⟨hm, htables, -⟩, herr⟩ := h.toEngineOk.answer_query hq hrun
  refine h.accounts_same hm htables hcat ?_
  rintro rfl
  obtain ⟨c, hc⟩ := herr _ rfl
  exact hf c hc

theorem accounts (h : Frugal C e K w) (hadm : op.Admissible K)
    (hrun : op.run C.toCacheOps fuel e = .answer r e') : Accounts C K w op r e' := by
  cases op with
  | createTable name types => exact h.accounts_createTable hadm hrun
  | dropTable name => exact h.accounts_dropTable hrun
  | getTableNames =>
    obtain ⟨p, s', -, hok, hm'⟩ := h.toEngineOk.getTableNames_eq fuel
    rw [hok] at hrun
    obtain ⟨rfl, rfl⟩ := Outcome.answer_of_ok hrun
    exact h.accounts_same hm' rfl rfl fun heq => by cases heq
  | getTableTypes name =>
    exact h.accounts_query (f := fun c => .ok c.types) (fun t c hp _ => h.query_page TablePage.types hp)
      (fun _ => nofun) rfl hrun
  | getNumTuples name =>
    exact h.accounts_query (f := fun c => .ok (keys c.rows).ncard)
      (fun t c hp _ => h.query_page TablePage.numTuples hp) (fun _ => nofun) rfl hrun
  | insertTuple name values =>
    exact h.accounts_rows (.insert values) (q := Table.insertTuple C.toCacheOps fuel values)
      (g := fun o => .changed (o.getD false)) (f := .changed) rfl hadm rfl
      ((congrFun (map_map _ _) e).symm.trans hrun)
  | updateTuple name values =>
    exact h.accounts_rows (.update values) (q := Table.updateTuple C.toCacheOps fuel values)
      (g := fun o => .changed (o.getD false)) (f := .changed) rfl hadm rfl
      ((congrFun (map_map _ _) e).symm.trans hrun)
  | removeTuple name key =>
    refine h.accounts_query (q := deleteTuple C.toCacheOps key) (g := fun o => .changed (o.getD false))
      (f := fun c => (keyError c.types key).elim (.ok false) .error) (fun t c hp hne => h.query_key hp hne key)
      (fun c hlimit => ?_) rfl ((congrFun (map_map _ _) e).symm.trans hrun)
    cases herr : keyError c.types key with
    | none =>
      rw [herr] at hlimit
      cases hlimit
    | some x =>
      rw [herr] at hlimit
      cases hlimit
      exact absurd (keyError_mem herr) (by decide)
  | getTuple name key =>
    exact h.accounts_rows (.read key) (q := Table.readTuple C.toCacheOps fuel key)
      (g := fun o => .row o.join) (f := .found) rfl hadm (Catalog.onTable_read ..).symm
      ((congrFun (map_map _ _) e).symm.trans hrun)

/-- A call is not refused for want of pages if the catalog fits the file after it. -/
theorem ne_sizeLimit (h : Frugal C e K w) (hadm : op.Admissible K) (hrun : op.run C.toCacheOps fuel e = .answer r e')
    (hroom : w + (op.onCatalog K).pages ≤ capacity) : r ≠ .error sizeLimit := by
  rcases h.accounts hadm hrun with ⟨-, hlt⟩ | ⟨hne, -⟩
  · exact absurd hroom (not_le.mpr hlt)
  · exact hne

theorem call (h : Frugal C e K w) (hadm : op.Admissible K) (hrun : op.run C.toCacheOps fuel e = .answer r e')
    (hne : r ≠ .error sizeLimit) : Frugal C e' (op.onCatalog K) (w + op.left K) := by
  rcases h.accounts hadm hrun with ⟨heq, -⟩ | ⟨-, hspent⟩
  · exact absurd heq hne
  · exact ⟨(h.toEngineOk.call hadm hrun hne).2, hspent⟩

theorem reopen (h : Frugal C e K w) {tables : List Table} {s' : σ}
    (hread : readTables C.toCacheOps e.schemaPageID e.pager = .ok tables s') :
    Frugal C ⟨s', tables, e.schemaPageID⟩ K w := by
  obtain ⟨tables', s₁, hread', -, hok⟩ := h.toEngineOk.reopen
  cases hread.symm.trans hread'
  obtain ⟨hm', hmem⟩ := h.toEngineOk.mem_of_readTables hread
  obtain ⟨L, hholds, hspent⟩ := h.spent
  refine ⟨hok, L, ?_⟩
  rw [hm']
  exact ⟨hholds.mono fun t => (hmem t).mp, hspent⟩

end Frugal

theorem EngineOk.frugal (h : EngineOk C e fun _ => none) :
    Frugal C e (fun _ => none) (liveIds (C.mem e.pager)).card := by
  obtain ⟨L, hholds⟩ := h.holds
  exact ⟨h, L, hholds, Nat.le_add_right ..⟩

/-- The states of an engine that is opened on an empty schema page, which may be opened again, with the catalogs
they stand for and the pages in use that belong to no table, as long as no page is missing that is needed. -/
inductive Ledger (C : LawfulCache σ) : StorageEngine σ → Catalog → ℕ → Prop
  | start {s s' : σ} {live : Finset ℕ} {id : ℕ} {tables : List Table} : Pager.Run C s live → id ∈ live →
      C.view s id = some (.schema (.new id)) → readTables C.toCacheOps id s = .ok tables s' →
      Ledger C ⟨s', tables, id⟩ (fun _ => none) live.card
  | call {e e' : StorageEngine σ} {K : Catalog} {w : ℕ} {r : Except Exn EngineReply} (op : EngineOp) (fuel : ℕ) :
      Ledger C e K w → op.Admissible K → op.run C.toCacheOps fuel e = .answer r e' → r ≠ .error sizeLimit →
      Ledger C e' (op.onCatalog K) (w + op.left K)
  | reopen {e : StorageEngine σ} {K : Catalog} {w : ℕ} {tables : List Table} {s' : σ} : Ledger C e K w →
      readTables C.toCacheOps e.schemaPageID e.pager = .ok tables s' → Ledger C ⟨s', tables, e.schemaPageID⟩ K w

theorem Ledger.frugal {w : ℕ} (h : Ledger C e K w) : Frugal C e K w := by
  induction h with
  | @start s s' live id tables hrun hid hview hread =>
    have hsession : Session C ⟨s', tables, id⟩ fun _ => none := .start hrun hid hview hread
    obtain ⟨ok, rfl, N, hinv⟩ := hrun.inv
    have hsound := sound_empty ok hinv ⟨hid, hview⟩
    have hm' : C.mem s' = C.mem s := ((hsound.engineOk rfl).mem_of_readTables hread).1
    rw [← hm']
    exact hsession.engineOk.frugal
  | call op fuel _ hadm hrun hne ih => exact ih.call hadm hrun hne
  | reopen _ hread ih => exact ih.reopen hread

/-- The pages that are in use are those of the tables and those that dropped tables have left behind.  As long as the
tables of the next catalog fit the file besides them, every call comes to an end and answers as the catalog does. -/
structure Economical (C : LawfulCache σ) (e : StorageEngine σ) (K : Catalog) (w : ℕ) : Prop where
  used : (liveIds (C.mem e.pager)).card ≤ w + K.pages
  fits : ∀ op : EngineOp, op.Admissible K → w + (op.onCatalog K).pages ≤ capacity → ∀ fuel, maxDepth ≤ fuel →
    ∃ r e', op.run C.toCacheOps fuel e = .answer r e' ∧ op.Answers K r

theorem economical_of_ledger {w : ℕ} (h : Ledger C e K w) : Economical C e K w where
  used := h.frugal.card_le
  fits op hadm hroom fuel hfuel := by
    obtain ⟨r, e', hrun, hstep⟩ := h.frugal.step_of_depth hadm hfuel
    have hne := h.frugal.ne_sizeLimit hadm hrun hroom
    exact ⟨r, e', hrun, (hstep.resolve_left fun hlimit => hne hlimit.1).1⟩

/-- An engine on an empty file, after a table is created and after a row is inserted. -/
theorem economical_first : ∃ e e₁ e₂ w, Economical Mem.cache e (fun _ => none) w ∧
    (EngineOp.createTable [97] [.int 0]).run Mem.cache.toCacheOps 0 e = .ok .done e₁ ∧
    Economical Mem.cache e₁ ((EngineOp.createTable [97] [.int 0]).onCatalog fun _ => none) w ∧
    (EngineOp.insertTuple [97] [.int 5]).run Mem.cache.toCacheOps maxDepth e₁ = .ok (.changed true) e₂ ∧
    Economical Mem.cache e₂ ((EngineOp.insertTuple [97] [.int 5]).onCatalog
      ((EngineOp.createTable [97] [.int 0]).onCatalog fun _ => none)) w := by
  obtain ⟨s, live, id, s', hrun, hid, hview, hread, hrem⟩ := exists_opened
  have h := Ledger.start hrun hid hview hread
  obtain ⟨e₁, e₂, hrun₁, hrun₂⟩ := exists_table_row (.start hrun hid hview hread) rfl hrem
  have h₁ := h.call (r := .ok .done) (.createTable [97] [.int 0]) 0 admissible_first hrun₁ nofun
  have h₂ := h₁.call (r := .ok (.changed true)) (.insertTuple [97] [.int 5]) maxDepth rfl hrun₂ nofun
  exact ⟨_, e₁, e₂, _, economical_of_ledger h, hrun₁, economical_of_ledger h₁, hrun₂, economical_of_ledger h₂⟩

end Kndb.StorageEngine
