import Kndb.Bytes
import Kndb.SchemaPage

namespace Kndb.SchemaPage

open Imp.Prog Codec

def toBytes (J : Junk) (p : SchemaPage) : Code Bytes Unit := do
  putLE 1 1
  putLE 1 p.tables.length
  writeEach (fun e => do putString J e.1; putLE 4 e.2) p.tables

/-- One round of the loop of the constructor. -/
def getEntry (J : Junk) : Code Bytes (List Byte × ℕ) := do
  let name ← getString J
  let pageID ← getLE 4
  return (name, pageID)

/-- The part of the constructor that reads. -/
def getEntries (J : Junk) : Code Bytes (List (List Byte × ℕ)) := do
  require ((← getLE 1) = 1) "Page ID is invalid"
  let num_tables ← getLE 1
  readEach (List.replicate num_tables (getEntry J))

/-- The constructor from a block. -/
def parse (J : Junk) (pageID : ℕ) : Code Bytes SchemaPage := do
  let entries ← getEntries J
  require ((← gets List.length) ≠ 0)
    "Offset is out of bounds, an error has occurred during serialization"
  return { pageID, tables := entries.foldl (fun l e => emplace e.1 e.2 l) [] }

structure Sound (p : SchemaPage) : Prop where
  length_le : p.tables.length ≤ 31
  nodup : (p.tables.map Prod.fst).Nodup
  names : ∀ e ∈ p.tables, StringOk e.1
  ids : ∀ e ∈ p.tables, e.2 < 2 ^ 32

theorem foldl_emplace {l l' : List (List Byte × ℕ)} (h : ((l ++ l').map Prod.fst).Nodup) :
    l'.foldl (fun l e => emplace e.1 e.2 l) l = l ++ l' := by
  induction l' generalizing l with
  | nil => rw [List.foldl_nil, List.append_nil]
  | cons e l' ih =>
    have hnew : e.1 ∉ l.map Prod.fst := by
      rw [List.map_append, List.nodup_append] at h
      exact fun hin => h.2.2 _ hin _ (List.mem_map.mpr ⟨e, by simp, rfl⟩) rfl
    rw [List.append_cons] at h
    rw [List.foldl_cons, emplace, if_neg hnew, ih h, ← List.append_cons]

theorem recovers_entry (J J' : Junk) {e : List Byte × ℕ} (hname : StringOk e.1)
    (hid : e.2 < 2 ^ 32) :
    Recovers PG_SZ (do putString J e.1; putLE 4 e.2) (getEntry J') (e = ·) entrySize := by
  refine (recovers_string J J' e.1).bind ?_ ⟨_, 0, rfl⟩
  rintro _ ⟨left, rfl⟩
  refine (recovers_LE_of_lt (k := 4) hid).map ?_
  rintro _ rfl
  rw [rereadString_of_ok hname]

theorem Sound.recovers_entries {p : SchemaPage} (h : p.Sound) (J J' : Junk) :
    Recovers PG_SZ (p.toBytes J) (getEntries J') (p.tables = ·) (2 + p.tables.length * entrySize) := by
  have hlen : p.tables.length < 256 ^ 1 := h.length_le.trans_lt (by decide)
  have hsum : (p.tables.map fun _ => entrySize).sum = p.tables.length * entrySize := by simp
  rw [← hsum, show 2 + (p.tables.map fun _ => entrySize).sum =
    1 + (1 + (p.tables.map fun _ => entrySize).sum) by omega]
  unfold toBytes getEntries
  refine (recovers_LE_of_lt (k := 1) (by decide)).bind ?_ ⟨_, rfl⟩
  rintro _ rfl
  refine Recovers.require _ (decide_eq_true rfl) ?_
  refine (recovers_LE_of_lt (k := 1) hlen).bind ?_ ⟨_, rfl⟩
  rintro _ rfl
  refine (recovers_replicate (R := fun e e' => e = e')
    (fun e he => recovers_entry J J' (h.names e he) (h.ids e he)) fun e _ => ⟨e, rfl⟩).mono ?_
  intro entries hentries
  exact List.forall₂_eq_eq_eq ▸ hentries

theorem Sound.reread {p : SchemaPage} (h : p.Sound) (J J' : Junk) : ∃ out,
    p.toBytes J [] = .ok () out ∧ out.length ≤ PG_SZ ∧
      ∃ rest, parse J' p.pageID (fillBlock J out) = .ok p rest := by
  have hentry : p.tables.length * entrySize ≤ 31 * entrySize := Nat.mul_le_mul_right _ h.length_le
  have hfits : 2 + p.tables.length * entrySize < PG_SZ :=
    (Nat.add_le_add_left hentry 2).trans_lt (by decide)
  obtain ⟨out, hw, hlen, entries, rest, rfl, hr, hrest⟩ :=
    recovers_block (h.recovers_entries J J') hfits.le J
  have hleft : rest.length ≠ 0 := hrest ▸ (Nat.sub_pos_of_lt hfits).ne'
  refine ⟨out, hw, hlen ▸ hfits.le, rest, ?_⟩
  rw [parse, bind_ok hr, bind_ok (show gets List.length rest = .ok rest.length rest from rfl),
    bind_ok (require_ok _ _ (decide_eq_true hleft)), foldl_emplace (l := []) h.nodup]
  rfl

end Kndb.SchemaPage
