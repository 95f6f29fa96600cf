import Kndb.Memory
import Kndb.SchemaPage.Bytes

namespace Kndb.SchemaPage

open Imp.Prog Codec

def loadEntry (J : Junk) (mem : Memory) : Code Cursor (List Byte × ℕ) := do
  let name ← fetchString J mem
  let pageID ← fetchLE mem 4
  return (name, pageID)

def loadEntries (J : Junk) (mem : Memory) : Code Cursor (List (List Byte × ℕ)) := do
  require ((← fetchLE mem 1) = 1) "Page ID is invalid"
  let num_tables ← fetchLE mem 1
  fetchEach (List.replicate num_tables (loadEntry J mem))

/-- The constructor from a block, as it reads memory. -/
def load (J : Junk) (pageID : ℕ) (mem : Memory) : Code Cursor SchemaPage := do
  let entries ← loadEntries J mem
  require ((← gets Cursor.offset) < PG_SZ)
    "Offset is out of bounds, an error has occurred during serialization"
  return { pageID, tables := entries.foldl (fun l e => emplace e.1 e.2 l) [] }

variable {b : Block}

theorem agrees_load (hb : b.length = PG_SZ) (J : Junk) (pageID : ℕ) (outside : Memory) :
    Agrees OFFSET_SZ b (parse J pageID) (load J pageID (memory b outside)) := by
  have hentry : Agrees OFFSET_SZ b (getEntry J) (loadEntry J (memory b outside)) :=
    (agrees_string hb J outside).bind fun name => (agrees_LE hb outside 4).bind fun id => agrees_pure (name, id)
  have hentries : Agrees OFFSET_SZ b (getEntries J) (loadEntries J (memory b outside)) :=
    (agrees_LE hb outside 1).bind fun type => (agrees_require _ _).bind fun _ =>
      (agrees_LE hb outside 1).bind fun num_tables => hentry.replicate num_tables
  have hcheck : Agrees OFFSET_SZ b (gets fun s => decide (s.length ≠ 0) : Code Bytes Bool)
      (gets fun c => decide (c.offset < PG_SZ)) := by
    apply agrees_gets
    intro n c hn hc
    rw [offset_eq hb hn hc, List.length_drop, hb, decide_eq_decide]
    omega
  exact hentries.bind fun entries => (hcheck.bind fun x => agrees_require x _).bind fun _ => agrees_pure _

theorem takes_entry (J : Junk) (mem : Memory) : Takes OFFSET_SZ PG_SZ (loadEntry J mem) entrySize :=
  (takes_string J mem).bind fun _ => (takes_LE mem 4).map _

theorem inBounds_load (hb : b.length = PG_SZ) (J : Junk) (pageID : ℕ) : InBounds (load J pageID) b := by
  intro outside p c h
  obtain ⟨c₁, h₁, hc₁⟩ := fetchLE_at hb Cursor.at_start (show 0 + 1 = 1 from rfl) (by decide)
  obtain ⟨c₂, h₂, hc₂⟩ := fetchLE_at hb hc₁ (show 1 + 1 = 2 from rfl) (by decide)
  obtain ⟨entries, c₃, hentries, h⟩ := ok_of_bind h
  unfold loadEntries at hentries
  rw [bind_ok h₁] at hentries
  obtain ⟨-, hentries⟩ := ok_of_require hentries
  rw [bind_ok h₂] at hentries
  have hc₃ := ((takes_entry J (memory b outside)).replicate _).at_of_ok hc₂ hentries
  change (require (c₃.offset < PG_SZ) _ >>= fun _ => _) c₃ = _ at h
  obtain ⟨hoffset, h⟩ := ok_of_require h
  cases h
  have hnum : numberAt b 1 1 < 256 ^ 1 := numberAt_lt b 1 1
  have hlt := of_decide_eq_true hoffset
  have hsize : 2 + numberAt b 1 1 * entrySize < OFFSET_SZ := by
    simp only [entrySize, MAX_STR_SZ, OFFSET_SZ]
    omega
  rw [hc₃.offset_eq, Nat.mod_eq_of_lt hsize] at hlt
  exact hc₃.inside_iff.mpr hlt.le

end Kndb.SchemaPage
