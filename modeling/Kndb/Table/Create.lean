import Kndb.Table.Degree
import Kndb.Table.Operations

namespace Kndb.Table

open Imp Imp.Prog Btree LawfulCache Pager

variable {σ α : Type} {C : LawfulCache σ} {m m' : Mem} {N id : ℕ} {p : TablePage} {s s' : σ}
variable {types : Tuple} {name : List Byte} {t : Table}

structure Created (m m' : Mem) (types : Tuple) (t : Table) : Prop where
  inv : ∃ N, Inv m' N
  live : liveIds m' = insert t.rootPageID (insert t.tablePageID (liveIds m))
  page_new : t.tablePageID ∉ liveIds m
  root_new : t.rootPageID ∉ liveIds m
  ne : t.rootPageID ≠ t.tablePageID
  page : TableAt m' t.tablePageID ⟨t.tablePageID, types, t.rootPageID, 0⟩
  root : nodeAt m' t.rootPageID = some (.new t.degree PGID_INVALID true true t.rootPageID)
  other : ∀ x ∈ liveIds m, m'.view x = m.view x
  degree : t.degree = tableDegree types

theorem remaining_of_created (h : Created m m' types t) : remaining m = remaining m' + 2 := by
  obtain ⟨N', hinv'⟩ := h.inv
  have hroot : t.rootPageID ∉ insert t.tablePageID (liveIds m) := by
    rw [Finset.mem_insert, not_or]
    exact ⟨h.ne, h.root_new⟩
  have hcard : (liveIds m').card = (liveIds m).card + 2 := by
    rw [h.live, Finset.card_insert_of_notMem hroot, Finset.card_insert_of_notMem h.page_new]
  have := hinv'.card_liveIds_le
  rw [remaining, remaining]
  omega

theorem returns_readDegree (hinv : Inv m N) (h : TableAt m id p) (hne : p.types ≠ []) :
    C.Returns (readDegree C.toCacheOps id) m (tableDegree p.types) m := by
  obtain ⟨key, columns, htypes⟩ := List.exists_cons_of_ne_nil hne
  refine (returns_readTablePage hinv h).bind ?_
  have hkey : C.Returns (at? p.types 0) m key m := fun s ok hs => ⟨s, by rw [at?, htypes]; rfl, ok, hs⟩
  refine hkey.bind ((returns_readTablePage hinv h).bind ?_)
  rw [htypes]
  exact returns_pure _ _

theorem createRoot_cases (name : List Byte) (ok : C.Ok s) (hinv : Inv (C.mem s) N) (h : TableAt (C.mem s) id p)
    (hne : p.types ≠ []) :
    (remaining (C.mem s) = 0 ∧ ∃ s', createRoot C.toCacheOps name id s = .throw sizeLimit s' ∧ C.Ok s' ∧
        C.mem s' = C.mem s) ∨
      (remaining (C.mem s) ≠ 0 ∧ ∃ root s', createRoot C.toCacheOps name id s =
          .ok ⟨name, id, tableDegree p.types, root⟩ s' ∧ C.Ok s' ∧ (∃ N', Inv (C.mem s') N') ∧
        root ∉ liveIds (C.mem s) ∧ liveIds (C.mem s') = insert root (liveIds (C.mem s)) ∧
        nodeAt (C.mem s') root = some (.new (tableDegree p.types) PGID_INVALID true true root) ∧
        TableAt (C.mem s') id (p.setBtreePageID root) ∧ (Tidy (C.mem s) → Tidy (C.mem s')) ∧
        ∀ x ∈ liveIds (C.mem s), x ≠ id → (C.mem s').view x = (C.mem s).view x) := by
  have hdeg := returns_readDegree (C := C) hinv h hne
  by_cases hfull : (liveIds (C.mem s)).card = capacity
  · left
    refine ⟨(remaining_eq_zero hinv).mpr hfull, ?_⟩
    exact hdeg.throws (throws_createNewPage hinv hfull).bind s ok rfl
  · right
    refine ⟨(remaining_eq_zero hinv).not.mpr hfull, ?_⟩
    obtain ⟨root, m₁, hret, -, -, hnot, hview, hother, hstep⟩ := returns_createNewPage (C := C)
      hinv (show PageArgs.Accepts (.node (tableDegree p.types) PGID_INVALID true true) from trivial) hfull
    obtain ⟨hat, hframe⟩ := hstep.frame_of_node hnot hview
    obtain ⟨N₁, hinv₁⟩ := hstep.inv
    have h₁ := h.frame hframe
    obtain ⟨hinv₂, hlive₂, hat₂, h₂⟩ := h₁.set hinv₁ (p.setBtreePageID root)
    have hrun : C.Returns (createRoot C.toCacheOps name id) (C.mem s)
        ⟨name, id, tableDegree p.types, root⟩ (m₁.set id (.table (p.setBtreePageID root))) := by
      refine hdeg.bind (hret.bind ((returns_deref (T := BtreeNodePage Tuple) hview).bind ?_))
      refine (returns_changeTablePage (f := (·.setBtreePageID root)) hinv₁ h₁ rfl).bind ?_
      exact (returns_readTablePage hinv₂ h₂).bind (returns_pure _ _)
    obtain ⟨s', hs', ok', hm'⟩ := hrun.start ok
    refine ⟨root, s', hs', ok', ?_⟩
    rw [hm', hlive₂, hat₂, hat, Function.update_self]
    refine ⟨⟨N₁, hinv₂⟩, hnot, hstep.live, rfl, h₂, fun ht => (hstep.tidy hother ht).set hinv₁ h₁.1 _,
      fun x hx hxid => ?_⟩
    rw [Mem.set_of_ne hxid, hstep.frame x hx]

/-- A table is created unless less than two pages are left.  With one page left that page is lost. -/
theorem create_cases (name : List Byte) (ok : C.Ok s) (hinv : Inv (C.mem s) N) (hacc : TablePage.Accepts types) :
    (remaining (C.mem s) = 0 ∧ ∃ s', create C.toCacheOps name types s = .throw sizeLimit s' ∧ C.Ok s' ∧
        C.mem s' = C.mem s) ∨
      (remaining (C.mem s) = 1 ∧ ∃ id s', create C.toCacheOps name types s = .throw sizeLimit s' ∧ C.Ok s' ∧
        id ∉ liveIds (C.mem s) ∧ Step (C.mem s) (C.mem s') (insert id (liveIds (C.mem s))) ∧
        nodeAt (C.mem s') id = none) ∨
      (2 ≤ remaining (C.mem s) ∧ ∃ t s', create C.toCacheOps name types s = .ok t s' ∧ C.Ok s' ∧
        t.name = name ∧ (Tidy (C.mem s) → Tidy (C.mem s')) ∧ Created (C.mem s) (C.mem s') types t) := by
  by_cases hfull : (liveIds (C.mem s)).card = capacity
  · left
    refine ⟨(remaining_eq_zero hinv).mpr hfull, ?_⟩
    exact (throws_createNewPage hinv hfull).bind s ok rfl
  · right
    obtain ⟨id, m₁, hret, -, -, hnot, hview, hother, hstep⟩ := returns_createNewPage (C := C)
      hinv (show PageArgs.Accepts (.table types PGID_INVALID) from hacc) hfull
    obtain ⟨N₁, hinv₁⟩ := hstep.inv
    obtain ⟨s₁, hs₁, ok₁, rfl⟩ :=
      (hret.bind (returns_deref (T := TablePage) hview)).start ok
    have hlive₁ : id ∈ liveIds (C.mem s₁) := by
      rw [hstep.live]
      exact Finset.mem_insert_self ..
    have h₁ : TableAt (C.mem s₁) id ⟨id, types, PGID_INVALID, 0⟩ := ⟨hlive₁, hview⟩
    have hrem := hstep.remaining hinv₁ hnot
    have hrun : create C.toCacheOps name types s = createRoot C.toCacheOps name id s₁ := by
      obtain ⟨page, t, hcreate, hderef⟩ := ok_of_bind hs₁
      rw [create, bind_ok hcreate, bind_ok hderef]
    -- the table page is taken; the root may still find no page
    rcases createRoot_cases name ok₁ hinv₁ h₁ hacc.1 with ⟨h0, s', hs', ok', hm'⟩ |
      ⟨h0, root, s', hs', ok', hinv', hroot, hlive, hat, hpage, htidy, hother'⟩
    · left
      refine ⟨by omega, id, s', hrun.trans hs', ok', hnot, ?_, ?_⟩
      · rw [hm']
        exact hstep
      · rw [hm']
        exact h₁.nodeAt_eq
    · right
      refine ⟨by omega, _, s', hrun.trans hs', ok', rfl, fun ht => htidy (hstep.tidy hother ht), hinv', ?_, hnot,
        ?_, ?_, hpage, hat, fun x hx => ?_, rfl⟩
      · rw [hlive, hstep.live]
      · exact fun hmem => hroot (hstep.live ▸ Finset.mem_insert_of_mem hmem)
      · intro heq
        have heq : root = id := heq
        exact hroot (heq ▸ hlive₁)
      · rw [hother' x (hstep.live ▸ Finset.mem_insert_of_mem hx) (ne_of_mem_of_not_mem hx hnot), hstep.frame x hx]

end Kndb.Table
