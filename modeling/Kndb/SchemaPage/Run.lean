import Mathlib.Data.List.Perm.Lattice
import Kndb.SchemaPage.Bytes

namespace Kndb.SchemaPage

open Imp.Prog

/-- The pages that calls which passed their checks have made of an empty one. -/
inductive Run (pageID : ℕ) : SchemaPage → Prop
  | new : Run pageID (.new pageID)
  | added {p p' : SchemaPage} {name : List Byte} {id : ℕ} (h : Run pageID p) (hname : 0 ∉ name)
    (hid : id < 2 ^ 32) (hr : addTable name id p = .ok () p') : Run pageID p'
  | removed {p p' : SchemaPage} {name : List Byte} (h : Run pageID p)
    (hr : removeTable name p = .ok () p') : Run pageID p'

variable {p p' : SchemaPage} {name : List Byte} {id pageID : ℕ}

theorem ok_of_addTable (h : addTable name id p = .ok () p') :
    name.length ≤ MAX_STR_LEN ∧ entrySize ≤ p.freeSpace ∧
      p' = { p with tables := emplace name id p.tables } := by
  obtain ⟨hlen, h⟩ := ok_of_require h
  obtain ⟨-, h⟩ := ok_of_require h
  change (require (entrySize ≤ p.freeSpace) _ >>= fun _ => _) p = _ at h
  obtain ⟨hfree, h⟩ := ok_of_require h
  cases h
  exact ⟨of_decide_eq_true hlen, of_decide_eq_true hfree, rfl⟩

theorem ok_of_removeTable (h : removeTable name p = .ok () p') :
    p' = { p with tables := p.tables.filter fun e => e.1 ≠ name } := by
  obtain ⟨-, h⟩ := ok_of_require h
  obtain ⟨-, h⟩ := ok_of_require h
  change (require (name ∈ p.tables.map Prod.fst) _ >>= fun _ => _) p = _ at h
  obtain ⟨-, h⟩ := ok_of_require h
  cases h
  rfl

/-- The space left is what it says as long as there are at most 31 tables. -/
theorem freeSpace_eq (h : p.tables.length ≤ 31) :
    2 + p.tables.length * entrySize ≤ PG_SZ ∧ p.freeSpace = PG_SZ - (2 + p.tables.length * entrySize) := by
  have hused : (2 + p.tables.length * entrySize) % 2 ^ 16 = 2 + p.tables.length * entrySize :=
    Nat.mod_eq_of_lt (by simp only [entrySize, MAX_STR_SZ]; omega)
  have hle : 2 + p.tables.length * entrySize ≤ PG_SZ := by
    simp only [entrySize, MAX_STR_SZ, PG_SZ]
    omega
  refine ⟨hle, ?_⟩
  rw [freeSpace, hused, Nat.add_comm PG_SZ, Nat.add_sub_assoc hle, Nat.add_mod_left, Nat.mod_eq_of_lt]
  simp only [PG_SZ]
  omega

theorem emplace_nodup {l : List (List Byte × ℕ)} (h : (l.map Prod.fst).Nodup) :
    ((emplace name id l).map Prod.fst).Nodup := by
  rw [emplace]
  split_ifs with hmem
  · exact h
  · rw [List.map_append, List.nodup_append]
    refine ⟨h, by simp, ?_⟩
    intro a ha b hb hab
    obtain rfl : b = name := by simpa using hb
    exact hmem (hab ▸ ha)

theorem mem_emplace {l : List (List Byte × ℕ)} {e : List Byte × ℕ} (he : e ∈ emplace name id l) :
    e ∈ l ∨ e = (name, id) := by
  rw [emplace] at he
  split_ifs at he
  · exact .inl he
  · exact (List.mem_append.mp he).imp_right List.mem_singleton.mp

theorem length_emplace_le (name : List Byte) (id : ℕ) (l : List (List Byte × ℕ)) :
    (emplace name id l).length ≤ l.length + 1 := by
  rw [emplace]
  split_ifs <;> simp

theorem Sound.addTable (h : p.Sound) (hname : 0 ∉ name) (hid : id < 2 ^ 32)
    (hr : addTable name id p = .ok () p') : p'.Sound := by
  obtain ⟨hlen, hfree, rfl⟩ := ok_of_addTable hr
  refine ⟨?_, emplace_nodup h.nodup, fun e he => ?_, fun e he => ?_⟩
  · obtain ⟨-, heq⟩ := freeSpace_eq h.length_le
    rw [heq] at hfree
    simp only [entrySize, MAX_STR_SZ, PG_SZ] at hfree
    have hgrow := length_emplace_le name id p.tables
    change (emplace name id p.tables).length ≤ 31
    omega
  · rcases mem_emplace he with he | rfl
    · exact h.names e he
    · exact ⟨hlen, hname⟩
  · rcases mem_emplace he with he | rfl
    · exact h.ids e he
    · exact hid

theorem Sound.removeTable (h : p.Sound) (hr : removeTable name p = .ok () p') : p'.Sound := by
  rw [ok_of_removeTable hr]
  refine ⟨(List.length_filter_le ..).trans h.length_le, ?_, fun e he => ?_, fun e he => ?_⟩
  · exact h.nodup.sublist (List.filter_sublist.map _)
  · exact h.names e (List.mem_of_mem_filter he)
  · exact h.ids e (List.mem_of_mem_filter he)

theorem Sound.perm (h : p.Sound) {order : List (List Byte × ℕ)} (ho : order.Perm p.tables) :
    Sound { p with tables := order } where
  length_le := ho.length_eq.trans_le h.length_le
  nodup := (ho.map Prod.fst).nodup_iff.mpr h.nodup
  names e he := h.names e (ho.mem_iff.mp he)
  ids e he := h.ids e (ho.mem_iff.mp he)

theorem Run.sound (h : Run pageID p) : p.Sound := by
  induction h with
  | new =>
    exact ⟨by simp [SchemaPage.new], by simp [SchemaPage.new], by simp [SchemaPage.new], by simp [SchemaPage.new]⟩
  | added _ hname hid hr ih => exact ih.addTable hname hid hr
  | removed _ hr ih => exact ih.removeTable hr

/-- The space left never underflows, the number of tables is a byte, and the page is written to at
most one block and read back in any order of its map, whatever the buffer and the stack hold. -/
theorem rereads_of_run (h : Run pageID p) :
    p.tables.length < 256 ∧ 2 + p.tables.length * entrySize ≤ PG_SZ ∧
    p.freeSpace = PG_SZ - (2 + p.tables.length * entrySize) ∧
    ∀ order, order.Perm p.tables → ∀ J J' : Junk, ∃ out,
      toBytes J { p with tables := order } [] = .ok () out ∧ out.length ≤ PG_SZ ∧
      ∃ q rest, parse J' p.pageID (fillBlock J out) = .ok q rest ∧ q.pageID = p.pageID ∧
        (q.tables.map Prod.fst).Nodup ∧ ∀ e, e ∈ q.tables ↔ e ∈ p.tables := by
  have hs := h.sound
  obtain ⟨hle, heq⟩ := freeSpace_eq hs.length_le
  refine ⟨hs.length_le.trans_lt (by decide), hle, heq, fun order ho J J' => ?_⟩
  obtain ⟨out, hw, hlen, rest, hr⟩ := (hs.perm ho).reread J J'
  exact ⟨out, hw, hlen, _, rest, hr, rfl, (hs.perm ho).nodup, fun e => ho.mem_iff⟩

def twoTables : SchemaPage := ⟨1, [([0x75], 6), ([0x76], 7)]⟩

theorem run_twoTables : Run 1 twoTables := by
  have h₁ : Run 1 ⟨1, [([0x74], 5)]⟩ := .added .new (show 0 ∉ [0x74] by decide) (show 5 < 2 ^ 32 by decide)
    (addTable_eq (p := .new 1) (by decide) (by decide) (by decide))
  have h₂ : Run 1 ⟨1, [([0x74], 5), ([0x75], 6)]⟩ := h₁.added (show 0 ∉ [0x75] by decide) (show 6 < 2 ^ 32 by decide)
    (addTable_eq (p := ⟨1, [([0x74], 5)]⟩) (by decide) (by decide) (by decide))
  have h₃ : Run 1 ⟨1, [([0x75], 6)]⟩ := h₂.removed (show removeTable [0x74] _ = _ from rfl)
  exact h₃.added (show 0 ∉ [0x76] by decide) (show 7 < 2 ^ 32 by decide)
    (addTable_eq (p := ⟨1, [([0x75], 6)]⟩) (by decide) (by decide) (by decide))

theorem rereads_of_run_twoTables :
    twoTables.tables.length < 256 ∧ 2 + twoTables.tables.length * entrySize ≤ PG_SZ ∧
    twoTables.freeSpace = PG_SZ - (2 + twoTables.tables.length * entrySize) ∧
    ∀ order, order.Perm twoTables.tables → ∀ J J' : Junk, ∃ out,
      toBytes J { twoTables with tables := order } [] = .ok () out ∧ out.length ≤ PG_SZ ∧
      ∃ q rest, parse J' 1 (fillBlock J out) = .ok q rest ∧ q.pageID = 1 ∧
        (q.tables.map Prod.fst).Nodup ∧ ∀ e, e ∈ q.tables ↔ e ∈ twoTables.tables :=
  rereads_of_run run_twoTables

end Kndb.SchemaPage
