import Kndb.Main
import Kndb.StorageEngine.Durable

namespace Kndb

open Imp Imp.Prog LawfulCache Pager Table FSMPage FreeSpaceMap

variable {σ : Type} {C : LawfulCache σ} {s : σ}

def Mem.empty : Mem := ⟨fun _ => none, 0⟩

theorem ok_empty : Mem.empty.Ok := fun _ _ h => absurd h (Option.some_ne_none _).symm

theorem inv_empty : Inv Mem.empty 0 := ⟨(Nat.zero_mul _).symm, Nat.zero_le _, fun h => absurd rfl h⟩

theorem liveIds_empty : liveIds Mem.empty = ∅ := by
  ext x
  rw [mem_liveIds (N := 0) inv_empty.blocks, Nat.zero_mul]
  exact iff_of_false (fun h => absurd h.1 x.not_lt_zero) (Finset.notMem_empty x)

theorem eq_one_of_first {i q : ℕ} (hi : i ∈ (FSMPage.new q).freeBits)
    (hleast : ∀ j < i, (FSMPage.new q).used j = true) : i = 1 := by
  have hne : i ≠ 0 := by
    rintro rfl
    rw [(sound_new q).2] at hi
    exact Finset.notMem_erase 0 _ hi
  by_contra hone
  have hused := hleast 1 (by omega)
  rw [new_used] at hused
  cases hused

theorem eq_of_allocPageID_empty {id : ℕ} {m : Mem} (h : allocPageID Mem.cache.toCacheOps .empty = .ok id m) :
    id = SCHEMA_ID := by
  have hneeded := returns_fsmPageNeeded (C := Mem.cache) inv_empty
  rw [decide_eq_true (by simp [freeIds])] at hneeded
  let m₁ : Mem := ⟨fun _ => none, getBlocksInPage⟩
  have hcreate : Mem.cache.Returns (createFSMPage Mem.cache.toCacheOps) .empty () (m₁.set 0 (.fsm (.new 0))) := by
    refine (returns_getNumBlocks Mem.empty).bind ?_
    rw [if_neg (by decide)]
    refine (returns_createMultipleBlocks getBlocksInPage_pos (by decide)).bind ?_
    refine (returns_insertPage (m := m₁) (.fsm (.new 0)) getBlocksInPage_pos).bind ?_
    rw [if_neg (by decide)]
    exact returns_pure _ _
  have hinv : FreeSpaceMap.Inv (m₁.set 0 (.fsm (.new 0))).view 1 [] := inv_start (Mem.set_self ..)
  have hfsm : fsmAt (m₁.set 0 (.fsm (.new 0))).view 0 = .new 0 := fsmAt_set_self
  have hfirst : (fsmAt (m₁.set 0 (.fsm (.new 0))).view 0).freeBlocks ≠ 0 := by
    rw [hfsm]
    decide
  have hne : freeIds (m₁.set 0 (.fsm (.new 0))).view 1 ≠ ∅ :=
    fun hempty => hfirst (hinv.freeIds_eq_empty_iff.mp hempty).1
  obtain ⟨i, hi, hleast, halloc⟩ := returns_allocBit_first (C := Mem.cache) hinv hne hfirst
  rw [hfsm] at hi hleast
  have hret : Mem.cache.Returns (allocPageID Mem.cache.toCacheOps) .empty i _ := hneeded.bind (hcreate.bind halloc)
  obtain ⟨m', hm', -⟩ := hret .empty ok_empty rfl
  cases hm'.symm.trans h
  exact eq_one_of_first hi hleast

namespace StorageEngine

theorem createNewPage_empty : ∃ m, createNewPage Mem.cache.toCacheOps .schema .empty = .ok SCHEMA_ID m ∧ m.Ok ∧
    (∃ N, Inv m N) ∧ liveIds m = {SCHEMA_ID} ∧ m.view SCHEMA_ID = some (.schema (.new SCHEMA_ID)) ∧ Tidy m := by
  have hfull : (liveIds Mem.empty).card ≠ capacity := by
    rw [liveIds_empty]
    decide
  obtain ⟨id, m₁, hret, hlt, hmod, -, hother, ⟨N₁, h₁⟩, hlive, -⟩ :=
    returns_allocPageID (C := Mem.cache) inv_empty hfull
  obtain ⟨m', hm', -, hmem⟩ := hret .empty ok_empty rfl
  obtain rfl : m' = m₁ := hmem
  obtain rfl := eq_of_allocPageID_empty hm'
  rw [liveIds_empty] at hlive
  have hid : SCHEMA_ID ∈ liveIds m' := hlive ▸ Finset.mem_insert_self ..
  have hcreate : Mem.cache.Returns (createNewPage Mem.cache.toCacheOps .schema) .empty SCHEMA_ID
      (m'.set SCHEMA_ID (.schema (.new SCHEMA_ID))) := by
    rw [createNewPage_eq (show PageArgs.Accepts .schema from trivial)]
    exact returns_placePage_of_alloc h₁ hret hlt hmod hid rfl rfl
  obtain ⟨h₂, hlive₂⟩ := h₁.set hmod (.schema (.new SCHEMA_ID))
  obtain ⟨m₂, hm₂, ok₂, hmem₂⟩ := hcreate .empty ok_empty rfl
  obtain rfl : m₂ = m'.set SCHEMA_ID (.schema (.new SCHEMA_ID)) := hmem₂
  refine ⟨_, hm₂, ok₂, ⟨N₁, h₂⟩, hlive₂.trans hlive, Mem.set_self .., fun x hx hnot => ?_⟩
  have hne : x ≠ SCHEMA_ID := by
    rintro rfl
    exact hnot (hlive₂ ▸ hid)
  rw [Mem.set_of_ne hne, hother x hx]
  rfl

/-- The engine that `main` opens stands for the empty catalog. -/
theorem openNew_empty : ∃ m, createNewPage Mem.cache.toCacheOps .schema .empty = .ok SCHEMA_ID m ∧
    openNew Mem.cache.toCacheOps .empty = .ok [] m ∧ liveIds m = {SCHEMA_ID} ∧
    EngineOk Mem.cache ⟨m, [], SCHEMA_ID⟩ (fun _ => none) ∧ Lasting m := by
  obtain ⟨m, hcreate, ok, ⟨N, hinv⟩, hlive, hview, htidy⟩ := createNewPage_empty
  have hid : SCHEMA_ID ∈ liveIds m := hlive ▸ Finset.mem_singleton_self _
  have hsound : Sound Mem.cache ⟨m, [], SCHEMA_ID⟩ := sound_empty ok hinv ⟨hid, hview⟩
  obtain ⟨tables, m', hread, hm', hok⟩ := (hsound.engineOk rfl).reopen
  obtain rfl : m' = m := hm'
  obtain ⟨-, hperm⟩ := hsound.reopen hread
  obtain rfl : tables = [] := List.map_eq_nil_iff.mp (List.Perm.eq_nil hperm)
  have hderef : Mem.cache.deref SchemaPage SCHEMA_ID m' = .ok (.new SCHEMA_ID) m' := by
    have hload : Mem.cache.load SCHEMA_ID m' = .schema (.new SCHEMA_ID) := congrArg (Option.getD · _) hview
    rw [CacheOps.deref, hload]
    rfl
  refine ⟨m', hcreate, ?_, hlive, hok, htidy, fun x hx p hp => ?_⟩
  · rw [openNew, bind_ok hcreate, bind_ok hderef]
    exact (congrFun (if_neg fun hne => hne rfl) m').trans hread
  · rw [hlive, Finset.mem_singleton] at hx
    subst hx
    obtain rfl := Option.some.inj (hview.symm.trans hp)
    exact SchemaPage.Run.new.sound

end StorageEngine
end Kndb
