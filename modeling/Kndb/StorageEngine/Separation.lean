import Kndb.StorageEngine.Catalog
import Kndb.StorageEngine.Sound

namespace Kndb.StorageEngine

open Imp Imp.Prog Btree LawfulCache Pager Table

variable {σ : Type} {C : LawfulCache σ} {m m' : Mem} {N : ℕ} {e : StorageEngine σ} {K : Catalog}
variable {t : Table} {types : Tuple}

structure Holds (m : Mem) (tables : List Table) (K : Catalog) (L : List Byte → Layout) : Prop where
  table : ∀ t ∈ tables, ∃ c, K t.name = some c ∧ 2 ≤ tableDegree c.types ∧
    TableOk m t c.types (L t.name) c.rows
  apart : ∀ t ∈ tables, ∀ t' ∈ tables, t.name ≠ t'.name →
    t.tablePageID ≠ t'.tablePageID ∧ Disjoint (L t.name).pages (L t'.name).pages

/-- The engine stands for the catalog. -/
structure EngineOk (C : LawfulCache σ) (e : StorageEngine σ) (K : Catalog) : Prop extends Sound C e where
  catalog : ∀ name, (K name).isSome ↔ name ∈ e.tables.map Table.name
  holds : ∃ L, Holds (C.mem e.pager) e.tables K L

theorem Holds.congr {tables : List Table} {L : List Byte → Layout} (h : Holds m tables K L)
    (hlive : liveIds m ⊆ liveIds m') (hview : ∀ t ∈ tables, ∀ x ∈ liveIds m,
      x ∈ (L t.name).pages ∨ x = t.tablePageID → m'.view x = m.view x) : Holds m' tables K L where
  table t ht := by
    obtain ⟨c, hc, hdeg, ok⟩ := h.table t ht
    exact ⟨c, hc, hdeg, ok.congr hlive (hview t ht)⟩
  apart := h.apart

theorem Holds.mono {tables tables' : List Table} {L : List Byte → Layout} (h : Holds m tables K L)
    (hsub : ∀ t ∈ tables', t ∈ tables) : Holds m tables' K L where
  table t ht := h.table t (hsub t ht)
  apart t ht t' ht' := h.apart t (hsub t ht) t' (hsub t' ht')

theorem Holds.setSchema {tables : List Table} {L : List Byte → Layout} {id : ℕ} {p p' : SchemaPage}
    (h : Holds m tables K L) (hinv : Inv m N) (hp : SchemaAt m id p) :
    Holds (m.set id (.schema p')) tables K L := by
  refine h.congr (hp.set hinv p').2.1.ge fun t ht x hx hmem => Mem.set_of_ne ?_ ..
  obtain ⟨c, -, -, ok⟩ := h.table t ht
  rintro rfl
  rcases hmem with hmem | rfl
  · obtain ⟨n, hn⟩ := ok.node hmem
    rw [hp.nodeAt_eq] at hn
    cases hn
  · exact hp.not_table _ ok.page

/-- One table has advanced, and the others are where they were. -/
theorem Holds.advance {tables : List Table} {L : List Byte → Layout} {c : Content} {t' : Table} {L' : Layout}
    {M' : Rank → Option Tuple} {i : ℕ} (h : Holds m tables K L) (hnames : (tables.map Table.name).Nodup)
    (ht : tables[i]? = some t) (hc : K t.name = some c)
    (hadv : Advance m m' t t' c.types (L t.name) L' M') :
    Holds m' (tables.set i t') (Function.update K t.name (some { c with rows := M' }))
      (Function.update L t.name L') := by
  have hmem : t ∈ tables := List.mem_of_getElem? ht
  have hname : t'.name = t.name := by rw [hadv.table_eq]
  have hpage : t'.tablePageID = t.tablePageID := by rw [hadv.table_eq]
  obtain ⟨c', hc', hdeg, ok⟩ := h.table t hmem
  obtain rfl : c = c' := Option.some.inj (hc.symm.trans hc')
  have hmem_set : ∀ t₁, t₁ ∈ tables.set i t' ↔ t₁ = t' ∨ t₁ ∈ tables ∧ t₁.name ≠ t.name :=
    fun t₁ => mem_set_iff hnames ht
  -- the nodes of another table are live, so that none of them is new in the tree that has grown
  have hdisjoint : ∀ t₁ ∈ tables, t₁.name ≠ t.name → Disjoint L'.pages (L t₁.name).pages := by
    intro t₁ ht₁ hne
    obtain ⟨c₁, -, -, ok₁⟩ := h.table t₁ ht₁
    rw [Finset.disjoint_left]
    intro x hx hx₁
    by_cases hold : x ∈ (L t.name).pages
    · exact Finset.disjoint_left.mp (h.apart t₁ ht₁ t hmem hne).2 hx₁ hold
    · exact hadv.fresh x hx hold (ok₁.live hx₁)
  -- first every table stands for its content, then every two of them are apart
  refine ⟨fun t₁ ht₁ => ?_, fun t₁ ht₁ t₂ ht₂ hne => ?_⟩
  · rcases (hmem_set t₁).mp ht₁ with rfl | ⟨ht₁, hne⟩
    · rw [hname, Function.update_self, Function.update_self]
      exact ⟨_, rfl, hdeg, hadv.table⟩
    · rw [Function.update_of_ne hne, Function.update_of_ne hne]
      obtain ⟨c₁, hc₁, hdeg₁, ok₁⟩ := h.table t₁ ht₁
      refine ⟨c₁, hc₁, hdeg₁, ok₁.congr hadv.live fun x hx hown => hadv.frame x hx ?_ ?_⟩
      · intro hold
        rcases hown with hown | rfl
        · exact Finset.disjoint_left.mp (h.apart t₁ ht₁ t hmem hne).2 hown hold
        · exact ok.not_mem ok₁.page hold
      · rintro rfl
        rcases hown with hown | hown
        · exact ok₁.not_mem ok.page hown
        · exact (h.apart t₁ ht₁ t hmem hne).1 hown.symm
  · rw [hmem_set] at ht₁ ht₂
    rcases ht₁ with rfl | ⟨ht₁, hne₁⟩
    · rcases ht₂ with rfl | ⟨ht₂, hne₂⟩
      · exact absurd rfl hne
      · rw [hname, Function.update_self, Function.update_of_ne hne₂, hpage]
        exact ⟨(h.apart t hmem t₂ ht₂ hne₂.symm).1, hdisjoint t₂ ht₂ hne₂⟩
    · rcases ht₂ with rfl | ⟨ht₂, hne₂⟩
      · rw [hname, Function.update_self, Function.update_of_ne hne₁, hpage]
        exact ⟨(h.apart t₁ ht₁ t hmem hne₁).1, (hdisjoint t₁ ht₁ hne₁).symm⟩
      · rw [Function.update_of_ne hne₁, Function.update_of_ne hne₂]
        exact h.apart t₁ ht₁ t₂ ht₂ hne

theorem Holds.create {tables : List Table} {L : List Byte → Layout} (h : Holds m tables K L)
    (hcreated : Created m m' types t) (hne : types ≠ []) (hdeg : 2 ≤ tableDegree types)
    (hnew : t.name ∉ tables.map Table.name) :
    Holds m' (tables ++ [t]) (Function.update K t.name (some ⟨types, fun _ => none⟩))
      (Function.update L t.name (.single t.rootPageID)) := by
  have hlive : liveIds m ⊆ liveIds m' := by
    rw [hcreated.live]
    exact (Finset.subset_insert ..).trans (Finset.subset_insert ..)
  have hold := h.congr hlive fun _ _ x hx _ => hcreated.other x hx
  have hother : ∀ t₁ ∈ tables, t₁.name ≠ t.name := fun t₁ ht₁ heq =>
    hnew (List.mem_map.mpr ⟨t₁, ht₁, heq⟩)
  have happart : ∀ t₁ ∈ tables, t.tablePageID ≠ t₁.tablePageID ∧
      Disjoint (Layout.single t.rootPageID).pages (L t₁.name).pages := by
    intro t₁ ht₁
    obtain ⟨c₁, -, -, ok₁⟩ := h.table t₁ ht₁
    refine ⟨fun heq => hcreated.page_new (heq ▸ ok₁.page.1), Finset.disjoint_singleton_left.mpr fun hmem => ?_⟩
    exact hcreated.root_new (ok₁.live hmem)
  refine ⟨fun t₁ ht₁ => ?_, fun t₁ ht₁ t₂ ht₂ hne => ?_⟩
  · rw [List.mem_append, List.mem_singleton] at ht₁
    rcases ht₁ with ht₁ | rfl
    · rw [Function.update_of_ne (hother t₁ ht₁), Function.update_of_ne (hother t₁ ht₁)]
      exact hold.table t₁ ht₁
    · rw [Function.update_self, Function.update_self]
      exact ⟨_, rfl, hdeg, hcreated.tableOk hne⟩
  · rw [List.mem_append, List.mem_singleton] at ht₁ ht₂
    rcases ht₁ with ht₁ | rfl
    · rcases ht₂ with ht₂ | rfl
      · rw [Function.update_of_ne (hother t₁ ht₁), Function.update_of_ne (hother t₂ ht₂)]
        exact h.apart t₁ ht₁ t₂ ht₂ hne
      · rw [Function.update_of_ne (hother t₁ ht₁), Function.update_self]
        exact ⟨(happart t₁ ht₁).1.symm, (happart t₁ ht₁).2.symm⟩
    · rcases ht₂ with ht₂ | rfl
      · rw [Function.update_of_ne (hother t₂ ht₂), Function.update_self]
        exact happart t₂ ht₂
      · exact absurd rfl hne

theorem Holds.drop {tables : List Table} {L : List Byte → Layout} {i : ℕ} (h : Holds m tables K L)
    (hnames : (tables.map Table.name).Nodup) (ht : tables[i]? = some t) :
    Holds m (tables.eraseIdx i) (Function.update K t.name none) L where
  table t₁ ht₁ := by
    obtain ⟨ht₁, hne⟩ := (mem_eraseIdx_iff hnames ht).mp ht₁
    rw [Function.update_of_ne hne]
    exact h.table t₁ ht₁
  apart t₁ ht₁ t₂ ht₂ := h.apart t₁ (List.mem_of_mem_eraseIdx ht₁) t₂ (List.mem_of_mem_eraseIdx ht₂)

end Kndb.StorageEngine
