import Kndb.LawfulCache

namespace Kndb.Mem

open Imp.Prog

def retrievePage (type : PageType) (id : ℕ) : Code Mem ℕ := fun m =>
  match m.view id with
  | none => .throw (.runtimeError "no such page") m
  | some p => if p.type = type then .ok id m else .throw .badCast m

def Ok (m : Mem) : Prop := ∀ id p, m.view id = some p → p.pageID = id

theorem Ok.set {m : Mem} (h : m.Ok) {id : ℕ} {p : Page} (hid : p.pageID = id) : (m.set id p).Ok := by
  intro x q hq
  by_cases hx : x = id
  · subst hx
    rw [Mem.set_self, Option.some.injEq] at hq
    rw [← hq, hid]
  · rw [Mem.set_of_ne hx] at hq
    exact h x q hq

def cache : LawfulCache Mem where
  retrievePage := retrievePage
  insertPage p := change (Mem.set p.pageID p)
  load id m := (m.view id).getD (.schema (.new id))
  store := Mem.set
  getNumBlocks := Mem.blocks
  createMultipleBlocks n := fun m => .ok m.blocks { m with blocks := m.blocks + n }
  Ok := Ok
  view := Mem.view
  pageID_eq ok h := ok _ _ h
  retrieve_eq {m id p} ok h := ⟨m, by rw [retrievePage, h]; exact if_pos rfl, ok, rfl, rfl⟩
  load_eq _ h := by rw [h, Option.getD_some]
  store_eq ok _ hid _ := ⟨ok.set hid, rfl, rfl⟩
  insert_eq {m p} ok _ := ⟨m.set p.pageID p, rfl, ok.set rfl, rfl, rfl⟩
  grow_eq {m n} ok _ _ := ⟨{ m with blocks := m.blocks + n }, rfl, ok, rfl, rfl⟩

end Kndb.Mem
