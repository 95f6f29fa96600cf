import Kndb.Memory
import Kndb.TablePage.Bytes

namespace Kndb.TablePage

open Imp.Prog Codec

/-- The constructor from a block, as it reads memory. -/
def load (pageID : ℕ) (mem : Memory) : Code Cursor TablePage := do
  require ((← fetchLE mem 1) = 3) "Invalid page_type_id"
  let num_types ← fetchLE mem 2
  require (num_types ≠ 0) "Page contains zero types (likely has not been initialized yet)"
  let types ← fetchEach (List.replicate num_types (fetchType mem))
  let btreePageID ← fetchLE mem 4
  let numTuples ← fetchLE mem 8
  require ((← gets Cursor.offset) ≤ PG_SZ) "Offset is out of bounds"
  return { pageID, types, btreePageID, numTuples }

variable {b : Block} {outside : Memory} {pageID : ℕ} {c : Cursor} {p : TablePage}

theorem agrees_load (hb : b.length = PG_SZ) (pageID : ℕ) (outside : Memory) :
    Agrees OFFSET_SZ b (parse pageID) (load pageID (memory b outside)) := by
  refine (agrees_LE hb outside 1).bind fun type => (agrees_require _ _).bind fun _ => ?_
  refine (agrees_LE hb outside 2).bind fun num_types => (agrees_require _ _).bind fun _ => ?_
  refine ((agrees_type hb outside).replicate num_types).bind fun types => ?_
  refine (agrees_LE hb outside 4).bind fun btreePageID => ?_
  refine (agrees_LE hb outside 8).bind fun numTuples => ?_
  exact (agrees_offset hb _).bind fun _ => agrees_pure _

def numTypes (b : Block) : ℕ := numberAt b 1 2

/-- The constructor returns from a block after it has read `15 + numTypes b` bytes. -/
structure Loads (b : Block) (outside : Memory) (types : Tuple) : Prop where
  type : numberAt b 0 1 = 3
  count : numTypes b ≠ 0
  types : types.map some = typesAt (memory b outside) 3 (numTypes b)
  offset : (15 + numTypes b) % OFFSET_SZ ≤ PG_SZ

theorem loads_of_ok (hb : b.length = PG_SZ) (h : load pageID (memory b outside) .start = .ok p c) :
    Loads b outside p.types ∧ CursorAt (15 + numTypes b) c := by
  obtain ⟨c₁, h₁, hc₁⟩ := fetchLE_at hb Cursor.at_start (show 0 + 1 = 1 from rfl) (by decide)
  obtain ⟨c₂, h₂, hc₂⟩ := fetchLE_at hb hc₁ (show 1 + 2 = 3 from rfl) (by decide)
  rw [load, bind_ok h₁] at h
  obtain ⟨htype, h⟩ := ok_of_require h
  rw [bind_ok h₂] at h
  obtain ⟨hcount, h⟩ := ok_of_require h
  obtain ⟨types, c₃, h₃, h⟩ := ok_of_bind h
  obtain ⟨htypes, hc₃⟩ := typesAt_of_fetchTypes hc₂ h₃
  obtain ⟨id, c₄, h₄, h⟩ := ok_of_bind h
  have hc₄ := (takes_LE _ 4).at_of_ok hc₃ h₄
  obtain ⟨num, c₅, h₅, h⟩ := ok_of_bind h
  have hc₅ := (takes_LE _ 8).at_of_ok hc₄ h₅
  change (require (c₅.offset ≤ PG_SZ) _ >>= fun _ => _) c₅ = _ at h
  obtain ⟨hoffset, h⟩ := ok_of_require h
  cases h
  have hsize : 3 + numberAt b 1 2 + 4 + 8 = 15 + numTypes b := by
    rw [numTypes]
    omega
  rw [hsize] at hc₅
  exact ⟨⟨of_decide_eq_true htype, of_decide_eq_true hcount, htypes,
    hc₅.offset_eq ▸ of_decide_eq_true hoffset⟩, hc₅⟩

theorem Loads.ok {types : Tuple} (h : Loads b outside types) (hb : b.length = PG_SZ) (pageID : ℕ) :
    ∃ p c, load pageID (memory b outside) .start = .ok p c ∧ CursorAt (15 + numTypes b) c := by
  obtain ⟨c₁, h₁, hc₁⟩ := fetchLE_at hb Cursor.at_start (show 0 + 1 = 1 from rfl) (by decide)
  obtain ⟨c₂, h₂, hc₂⟩ := fetchLE_at hb hc₁ (show 1 + 2 = 3 from rfl) (by decide)
  obtain ⟨c₃, h₃, hc₃⟩ := fetchTypes_of_typesAt hc₂ h.types
  obtain ⟨id, c₄, h₄, hc₄⟩ := takes_LE (memory b outside) 4 _ _ hc₃
  obtain ⟨num, c₅, h₅, hc₅⟩ := takes_LE (memory b outside) 8 _ _ hc₄
  have hsize : 3 + numTypes b + 4 + 8 = 15 + numTypes b := by omega
  rw [hsize] at hc₅
  refine ⟨{ pageID, types, btreePageID := id, numTuples := num }, c₅, ?_, hc₅⟩
  replace h₂ : fetchLE (memory b outside) 2 c₁ = .ok (numTypes b) c₂ := h₂
  rw [load, bind_ok h₁, bind_ok (require_ok _ _ (decide_eq_true h.type)), bind_ok h₂,
    bind_ok (require_ok _ _ (decide_eq_true h.count)), bind_ok h₃, bind_ok h₄, bind_ok h₅]
  change (require (c₅.offset ≤ PG_SZ) _ >>= fun _ => _) c₅ = _
  rw [bind_ok (require_ok _ _ (decide_eq_true (hc₅.offset_eq ▸ h.offset)))]
  rfl

/-- As far as the block goes its types are types, and there are so many of them that the offset comes
round to the beginning. -/
structure Wraps (b : Block) : Prop where
  type : numberAt b 0 1 = 3
  count : 65521 ≤ numTypes b ∧ numTypes b ≤ 65534
  types : ∀ x ∈ b.drop 3, (type_id_to_variant x.toNat).isSome

variable {types : Tuple}

/-- The count is not 65535, whose low byte is no type but is read as one. -/
theorem Loads.wraps (h : Loads b outside types) (hb : b.length = PG_SZ) (hbig : PG_SZ < 15 + numTypes b) :
    Wraps b := by
  have hlt : numTypes b < 256 ^ 2 := numberAt_lt b 1 2
  have hoffset := h.offset
  simp only [PG_SZ, OFFSET_SZ] at hoffset hbig
  have hvalid : ∀ j < numTypes b, (typeAt (memory b outside) ((3 + j) % OFFSET_SZ)).isSome := by
    intro j hj
    have hmem : typeAt (memory b outside) ((3 + j) % OFFSET_SZ) ∈ types.map some :=
      h.types ▸ List.mem_map.mpr ⟨j, List.mem_range.mpr hj, rfl⟩
    obtain ⟨v, -, hv⟩ := List.mem_map.mp hmem
    rw [← hv]
    rfl
  refine ⟨h.type, ⟨by omega, ?_⟩, ?_⟩
  -- the offset comes round to the count itself, whose low byte 255 is no type
  · by_contra hcount
    have hall : numTypes b = 65535 := by omega
    have hlow : (memory b outside 1).toNat = 255 := by
      have hnum : numTypes b = (memory b outside 1).toNat + 256 * (memory b outside 2).toNat :=
        numberAt_eq outside (hb ▸ by decide)
      have h1 := (memory b outside 1).isLt
      omega
    have hsome := hvalid 65534 (by omega)
    rw [show (3 + 65534) % OFFSET_SZ = 1 from rfl, typeAt, hlow] at hsome
    cases hsome
  · intro x hx
    obtain ⟨j, hj, rfl⟩ := List.getElem_of_mem hx
    rw [List.length_drop, hb, PG_SZ] at hj
    have hsome := hvalid j (by omega)
    rw [Nat.mod_eq_of_lt (by simp only [OFFSET_SZ]; omega), typeAt_memory outside (by rw [hb, PG_SZ]; omega)] at hsome
    rwa [List.getElem_drop]

theorem exists_map_some {α : Type} {l : List (Option α)} (h : ∀ o ∈ l, o.isSome) :
    ∃ as : List α, as.map some = l := by
  induction l with
  | nil => exact ⟨[], rfl⟩
  | cons o l ih =>
    obtain ⟨as, rfl⟩ := ih fun o' ho' => h o' (List.mem_cons_of_mem _ ho')
    obtain ⟨a, rfl⟩ := Option.isSome_iff_exists.mp (h o (List.mem_cons_self ..))
    exact ⟨a :: as, rfl⟩

theorem Wraps.loads (h : Wraps b) (hb : b.length = PG_SZ) : ∃ types, Loads b (fun _ => 1) types := by
  obtain ⟨hmin, hmax⟩ := h.count
  have hvalid : ∀ j < numTypes b, (typeAt (memory b fun _ => 1) ((3 + j) % OFFSET_SZ)).isSome := by
    intro j hj
    -- a type is read from the block, from behind it, or from offset 0 after the wrap
    by_cases hwrap : 3 + j < OFFSET_SZ
    · rw [Nat.mod_eq_of_lt hwrap]
      by_cases hin : 3 + j < b.length
      · rw [typeAt_memory _ hin]
        refine h.types _ ?_
        rw [List.mem_iff_getElem]
        exact ⟨j, by rw [List.length_drop]; omega, List.getElem_drop ..⟩
      · rw [typeAt, memory, List.getD_eq_getElem?_getD, List.getElem?_eq_none (Nat.le_of_not_lt hin)]
        rfl
    · have hlast : (3 + j) % OFFSET_SZ = 0 := by
        simp only [OFFSET_SZ] at hwrap ⊢
        omega
      have htype : (memory b fun _ => 1) 0 = 3 := by
        have hnum : numberAt b 0 1 = ((memory b fun _ => 1) 0).toNat := numberAt_eq _ (hb ▸ by decide)
        exact BitVec.eq_of_toNat_eq (hnum ▸ h.type)
      rw [hlast, typeAt, htype]
      rfl
  obtain ⟨types, htypes⟩ := exists_map_some (l := typesAt (memory b fun _ => 1) 3 (numTypes b)) fun o ho => by
    obtain ⟨j, hj, rfl⟩ := List.mem_map.mp ho
    exact hvalid j (List.mem_range.mp hj)
  refine ⟨types, h.type, by omega, htypes, ?_⟩
  simp only [OFFSET_SZ, PG_SZ]
  omega

theorem inBounds_load_iff (hb : b.length = PG_SZ) (pageID : ℕ) : InBounds (load pageID) b ↔ ¬Wraps b := by
  constructor
  · intro h hw
    obtain ⟨types, hl⟩ := hw.loads hb
    obtain ⟨p, c, hok, hc⟩ := hl.ok hb pageID
    have hin := hc.inside_iff.mp (h _ p c hok)
    have hcount := hw.count.1
    simp only [PG_SZ] at hin
    omega
  · intro hw outside p c hok
    obtain ⟨hl, hc⟩ := loads_of_ok hb hok
    rw [hc.inside_iff]
    by_contra hbig
    exact hw (hl.wraps hb (Nat.lt_of_not_le hbig))

end Kndb.TablePage
