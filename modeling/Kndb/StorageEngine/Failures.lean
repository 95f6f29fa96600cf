import Kndb.StorageEngine.Sound

namespace Kndb.StorageEngine

open Imp Imp.Prog LawfulCache Pager Table

variable {σ : Type} {C : LawfulCache σ} {m m' : Mem} {e e' : StorageEngine σ} {t : Table}
variable {name : List Byte} {types : Tuple}

/-- If `createTable` throws, the free pages are those from before, and so are the tables. -/
def CreateAtomic (C : LawfulCache σ) (e : StorageEngine σ) (name : List Byte) (types : Tuple) : Prop :=
  ∀ x e', createTable C.toCacheOps name types e = .throw x e' →
    (∀ id b, Status C e'.pager id b ↔ Status C e.pager id b) ∧ e'.tables = e.tables ∧
      C.view e'.pager e.schemaPageID = C.view e.pager e.schemaPageID

theorem createAtomic_of_error {x : Exn} (herr : nameError e.tables name = some x) : CreateAtomic C e name types := by
  intro y e' hrun
  rw [createTable_of_error herr] at hrun
  cases hrun
  exact ⟨fun _ _ => Iff.rfl, rfl, rfl⟩

theorem not_createAtomic (h : Run C e) (hacc : TablePage.Accepts types) (herr : nameError e.tables name = none)
    (hrem : remaining (C.mem e.pager) = 1) : ¬CreateAtomic C e name types := by
  intro hatomic
  obtain ⟨N, hinv⟩ := h.sound.inv
  rcases create_cases name h.sound.ok hinv hacc with ⟨h0, -⟩ | ⟨-, id, s', hs', ok', hid, hstep, -⟩ | ⟨h2, -⟩
  · omega
  · obtain ⟨hfree, -⟩ := hatomic _ _ (createTable_of_throw herr hs')
    obtain ⟨N', hinv'⟩ := hstep.inv
    have hlive : id ∈ liveIds (C.mem s') := by
      rw [hstep.live]
      exact Finset.mem_insert_self ..
    have hafter : Status C s' id false := (status_iff ok' hinv').mpr (by simp [hlive])
    have hbefore := (status_iff h.sound.ok hinv).mp ((hfree id false).mp hafter)
    rcases hbefore.mp rfl with hmem | ⟨hmod, -⟩
    · exact hid hmem
    · exact ((mem_liveIds hinv'.blocks).mp hlive).2.1 hmod
  · omega

theorem createAtomic_of_ne (h : Run C e) (hacc : TablePage.Accepts types) (herr : nameError e.tables name = none)
    (hrem : remaining (C.mem e.pager) ≠ 1) : CreateAtomic C e name types := by
  obtain ⟨N, hinv⟩ := h.sound.inv
  intro y e' hrun
  rcases create_cases name h.sound.ok hinv hacc with ⟨-, s', hs', ok', hm⟩ | ⟨h1, -⟩ |
    ⟨-, t, s', hs', ok', hname, -, hcreated⟩
  · rw [createTable_of_throw herr hs'] at hrun
    cases hrun
    exact ⟨fun id b => status_congr h.sound.ok hinv ok' hm, rfl, congrFun (congrArg Mem.view hm) _⟩
  · exact absurd h1 hrem
  · obtain ⟨S, hn, -⟩ := h.sound.rooted
    obtain ⟨p, hp, hperm⟩ := h.sound.schema
    obtain ⟨N', hinv'⟩ := hcreated.inv
    have hp' := hp.kept (kept_of_created hcreated hn)
    exact absurd hrun (createTable_ne_throw herr hs' ok' hinv' hp' hperm hname y e')

/-- A failed call leaves everything as it was unless a good name meets the last page. -/
theorem createAtomic_iff (h : Run C e) (hacc : TablePage.Accepts types) : CreateAtomic C e name types ↔
    ¬SchemaPage.NameOk name ∨ name ∈ e.tables.map Table.name ∨ remaining (C.mem e.pager) ≠ 1 := by
  cases herr : nameError e.tables name with
  | some x =>
    refine iff_of_true (createAtomic_of_error herr) ?_
    by_contra! hno
    rw [nameError_eq_none.mpr ⟨hno.1, hno.2.1⟩] at herr
    cases herr
  | none =>
    obtain ⟨hnameOk, hnew⟩ := nameError_eq_none.mp herr
    rw [or_iff_right (not_not.mpr hnameOk), or_iff_right hnew]
    exact ⟨fun hatomic hrem => not_createAtomic h hacc herr hrem hatomic, createAtomic_of_ne h hacc herr⟩

theorem Run.create_drop (h : Run C e) (hempty : e.tables = []) (hrem : 2 ≤ remaining (C.mem e.pager)) :
    ∃ e', Run C e' ∧ e'.tables = [] ∧ remaining (C.mem e.pager) = remaining (C.mem e'.pager) + 2 := by
  -- the table is created with two pages, which dropping it does not give back
  obtain ⟨e₁, t, p, hrun, htables, hname, -, -, -, -, hrem₁⟩ := h.sound.exists_createTable [97]
    [.int 0] (by rw [hempty]; rfl) ⟨by simp, by decide⟩ (by rw [hempty]; decide) hrem
  have h₁ : Run C e₁ := h.returns (.createTable [97] [.int 0]) 0 (bind_ok hrun)
  obtain ⟨N₁, hinv₁⟩ := h₁.sound.inv
  obtain ⟨p₁, hp₁, hperm₁⟩ := h₁.sound.schema
  have hone : e₁.tables = [t] := by rw [htables, hempty, List.nil_append]
  obtain ⟨i, t', s₂, ht', -, hrun₂, ok₂, hm₂⟩ := dropTable_of_mem h₁.sound.ok hinv₁ hp₁ hperm₁ (by decide)
    (show [97] ∈ e₁.tables.map Table.name by rw [hone, List.map_singleton, hname]; exact List.mem_singleton_self _)
  refine ⟨_, h₁.returns (.dropTable [97]) 0 (bind_ok hrun₂), ?_, ?_⟩
  · rw [hone, List.getElem?_singleton] at ht'
    split_ifs at ht' with hi
    rw [hone, hi]
    rfl
  · change _ = remaining (C.mem s₂) + 2
    rw [hm₂, remaining_setSchema hinv₁ hp₁]
    exact hrem₁

theorem Run.use_pages (h : Run C e) (hempty : e.tables = []) (k : ℕ) (hk : 2 * k ≤ remaining (C.mem e.pager)) :
    ∃ e', Run C e' ∧ e'.tables = [] ∧ remaining (C.mem e.pager) = remaining (C.mem e'.pager) + 2 * k := by
  induction k with
  | zero => exact ⟨e, h, hempty, rfl⟩
  | succ k ih =>
    obtain ⟨e₁, h₁, hempty₁, hrem₁⟩ := ih (by omega)
    obtain ⟨e₂, h₂, hempty₂, hrem₂⟩ := h₁.create_drop hempty₁ (by omega)
    exact ⟨e₂, h₂, hempty₂, by omega⟩

/-- After 32670 tables have been created and dropped a single page is left. -/
theorem exists_run_last : ∃ e, Run Mem.cache e ∧ e.tables = [] ∧ remaining (Mem.cache.mem e.pager) = 1 := by
  obtain ⟨e, h, hempty, hrem⟩ := exists_run_empty
  obtain ⟨e', h', hempty', hrem'⟩ := h.use_pages hempty 32670 (by omega)
  exact ⟨e', h', hempty', by omega⟩

/-- With all pages left nothing is lost, and with one table there neither a name in use nor a new one loses it. -/
theorem createAtomic_empty : ∃ e, Run Mem.cache e ∧ e.tables.map Table.name = [[97]] ∧
    ∀ name : List Byte, (CreateAtomic Mem.cache e name [.int 0] ↔
      ¬SchemaPage.NameOk name ∨ name ∈ e.tables.map Table.name ∨ remaining (Mem.cache.mem e.pager) ≠ 1) ∧
    CreateAtomic Mem.cache e name [.int 0] := by
  obtain ⟨-, e, -, -, -, h, hnames, hrem⟩ := exists_run_table
  refine ⟨e, h, hnames, fun name => ?_⟩
  have hiff : CreateAtomic Mem.cache e name [.int 0] ↔ _ := createAtomic_iff h ⟨by simp, by decide⟩
  exact ⟨hiff, hiff.mpr (.inr (.inr (by rw [hrem]; decide)))⟩

/-- After 32670 tables have been created and dropped, the next `createTable` loses the last page. -/
theorem createAtomic_counterexample : ∃ e, Run Mem.cache e ∧ ¬CreateAtomic Mem.cache e [97] [.int 0] := by
  obtain ⟨e, h, hempty, hrem⟩ := exists_run_last
  refine ⟨e, h, not_createAtomic h ⟨by simp, by decide⟩ ?_ hrem⟩
  rw [hempty]
  rfl

end Kndb.StorageEngine
