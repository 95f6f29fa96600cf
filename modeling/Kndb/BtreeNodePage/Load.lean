import Kndb.Memory
import Kndb.BtreeNodePage.Bytes

namespace Kndb.BtreeNodePage

open Imp.Prog Codec

def loadCell (J : Junk) (mem : Memory) (key : Vari) (types : Tuple) : Code Cursor (Cell Tuple) := do
  let k ← fetchValue J mem key
  let value ← fetchEach (types.map (fetchValue J mem))
  return { key := k, value }

/-- The number of children is computed in a `u32`. -/
def loadCells (J : Junk) (mem : Memory) (numCells : ℕ) (leaf : Bool) :
    Code Cursor (List (Cell Tuple) × List ℕ) := do
  let key ← fetchType mem
  let numTypes ← fetchLE mem 1
  let types ← fetchEach (List.replicate numTypes (fetchType mem))
  let cells ← fetchEach (List.replicate numCells (loadCell J mem key types))
  if !leaf then
    let children ← fetchEach (List.replicate ((numCells + 1) % 2 ^ 32) (fetchLE mem 4))
    return (cells, children)
  else
    return (cells, [])

def loadHeader (mem : Memory) : Code Cursor Header := do
  require ((← fetchLE mem 1) = 4) "Page_type_id is incorrect type"
  let degree ← fetchLE mem 2
  let parentID ← fetchLE mem 4
  let leaf ← fetchLE mem 1
  let root ← fetchLE mem 1
  let numCells ← fetchLE mem 4
  return { degree, parentID, leaf := leaf ≠ 0, root := root ≠ 0, numCells }

/-- The constructor from a block, as it reads memory. -/
def load (J : Junk) (pageID : ℕ) (mem : Memory) : Code Cursor (BtreeNodePage Tuple) := do
  let h ← loadHeader mem
  let node := fun children cells => BtreeNodePage.mk pageID h.degree h.parentID h.leaf h.root children cells
  if h.numCells = 0 then
    return node [] []
  else
    let r ← loadCells J mem h.numCells h.leaf
    require ((← gets Cursor.offset) ≤ PG_SZ) "Offset out of bounds"
    return node r.2 r.1

variable {b : Block} {outside : Memory} {J : Junk} {pageID : ℕ} {c c' : Cursor} {key : Vari} {types : Tuple}

theorem agrees_header (hb : b.length = PG_SZ) (outside : Memory) :
    Agrees OFFSET_SZ b getHeader (loadHeader (memory b outside)) := by
  refine (agrees_LE hb outside 1).bind fun type => (agrees_require _ _).bind fun _ => ?_
  refine (agrees_LE hb outside 2).bind fun degree => (agrees_LE hb outside 4).bind fun parentID => ?_
  refine (agrees_LE hb outside 1).bind fun leaf => (agrees_LE hb outside 1).bind fun root => ?_
  exact (agrees_LE hb outside 4).bind fun numCells => agrees_pure _

theorem agrees_cell (hb : b.length = PG_SZ) (J : Junk) (outside : Memory) (key : Vari) (types : Tuple) :
    Agrees OFFSET_SZ b (getCell J key types) (loadCell J (memory b outside) key types) :=
  (agrees_value hb J outside key).bind fun k =>
    (agrees_each (agrees_value hb J outside)).bind fun value => agrees_pure (Cell.mk k value)

theorem consumes_cell (J : Junk) (key : Vari) (types : Tuple) : Consumes (getCell J key types) 1 :=
  (consumes_value J key).bind (m := 0) fun k => ((consumes_each fun p hp => by
    obtain ⟨type, -, rfl⟩ := List.mem_map.mp hp
    exact consumes_value J type).map _).mono (Nat.zero_le _)

/-- As the cells have been read from a block, they are not so many that the number of children wraps. -/
theorem numCells_lt {key : Vari} {types : Tuple} {num : ℕ} {s s' : Bytes} {cells : List (Cell Tuple)}
    (h : readEach (List.replicate num (getCell J key types)) s = .ok cells s') : num ≤ s.length := by
  have hlen := consumes_each (fun p hp => List.eq_of_mem_replicate hp ▸ consumes_cell J key types) s cells s' h
  rw [List.length_replicate, Nat.mul_one] at hlen
  exact (Nat.le_add_left ..).trans hlen

theorem agrees_cells (hb : b.length = PG_SZ) (J : Junk) (outside : Memory) (num : ℕ) (leaf : Bool) :
    Agrees OFFSET_SZ b (getCells J num leaf) (loadCells J (memory b outside) num leaf) := by
  have h : Agrees OFFSET_SZ b (do
      let key ← getType
      let numTypes ← getLE 1
      let types ← readEach (List.replicate numTypes getType)
      let cells ← readEach (List.replicate num (getCell J key types))
      if (!leaf) = true then do
        let children ← readEach (List.replicate ((num + 1) % 2 ^ 32) (getLE 4))
        pure (cells, children)
      else pure (cells, [])) (loadCells J (memory b outside) num leaf) := by
    refine (agrees_type hb outside).bind fun key => (agrees_LE hb outside 1).bind fun numTypes => ?_
    refine ((agrees_type hb outside).replicate numTypes).bind fun types => ?_
    refine ((agrees_cell hb J outside key types).replicate num).bind fun cells => ?_
    exact .ite (((agrees_LE hb outside 4).replicate _).bind fun children => agrees_pure _) (agrees_pure _)
  -- as many cells as make the number of children wrap do not fit in the block
  refine h.congr fun n => bind_congr_of_ok fun key s₁ h₁ => bind_congr_of_ok fun numTypes s₂ h₂ => ?_
  refine bind_congr_of_ok fun types s₃ h₃ => bind_congr_of_ok fun cells s₄ h₄ => ?_
  have hnum : num + 1 < 2 ^ 32 := by
    have hlen₁ := consumes_type _ _ _ h₁
    have hlen₂ := consumes_LE 1 _ _ _ h₂
    have hlen₃ := consumes_each (fun p hp => List.eq_of_mem_replicate hp ▸ consumes_type) _ _ _ h₃
    have hlen₄ := numCells_lt h₄
    rw [List.length_drop, hb, PG_SZ] at hlen₁
    omega
  rw [Nat.mod_eq_of_lt hnum]

theorem agrees_load (hb : b.length = PG_SZ) (J : Junk) (pageID : ℕ) (outside : Memory) :
    Agrees OFFSET_SZ b (parse J pageID) (load J pageID (memory b outside)) := by
  refine (agrees_header hb outside).bind fun h => .ite (agrees_pure _) ?_
  exact (agrees_cells hb J outside h.numCells h.leaf).bind fun r =>
    (agrees_offset hb _).bind fun _ => agrees_pure _

theorem takes_cell (J : Junk) (mem : Memory) (key : Vari) (types : Tuple) :
    Takes OFFSET_SZ PG_SZ (loadCell J mem key types) (db_sizeof key + (types.map db_sizeof).sum) :=
  (takes_value J mem key).bind fun _ => (takes_each fun type _ => takes_value J mem type).map _

/-- The number of cells that a block announces. -/
def numCells (b : Block) : ℕ := numberAt b 9 4

/-- The number of bytes that a block with cells announces, if these are the types. -/
def announced (b : Block) (key : Vari) (types : Tuple) : ℕ :=
  15 + types.length + numCells b * (db_sizeof key + (types.map db_sizeof).sum) +
    if numberAt b 7 1 = 0 then (numCells b + 1) % 2 ^ 32 * 4 else 0

structure Announces (b : Block) (key : Vari) (types : Tuple) : Prop where
  key : type_id_to_variant (numberAt b 13 1) = some key
  types : types.map some = typesIn b 15 (numberAt b 14 1)

theorem loadHeader_at (hb : b.length = PG_SZ) (htype : numberAt b 0 1 = 4) (outside : Memory) :
    ∃ h c, loadHeader (memory b outside) .start = .ok h c ∧ h.numCells = numCells b ∧
      h.leaf = decide (numberAt b 7 1 ≠ 0) ∧ CursorAt 13 c := by
  obtain ⟨c₁, h₁, hc₁⟩ := fetchLE_at hb Cursor.at_start (show 0 + 1 = 1 from rfl) (by decide)
  obtain ⟨c₂, h₂, hc₂⟩ := fetchLE_at hb hc₁ (show 1 + 2 = 3 from rfl) (by decide)
  obtain ⟨c₃, h₃, hc₃⟩ := fetchLE_at hb hc₂ (show 3 + 4 = 7 from rfl) (by decide)
  obtain ⟨c₄, h₄, hc₄⟩ := fetchLE_at hb hc₃ (show 7 + 1 = 8 from rfl) (by decide)
  obtain ⟨c₅, h₅, hc₅⟩ := fetchLE_at hb hc₄ (show 8 + 1 = 9 from rfl) (by decide)
  obtain ⟨c₆, h₆, hc₆⟩ := fetchLE_at hb hc₅ (show 9 + 4 = 13 from rfl) (by decide)
  refine ⟨⟨numberAt b 1 2, numberAt b 3 4, decide (numberAt b 7 1 ≠ 0), decide (numberAt b 8 1 ≠ 0),
    numCells b⟩, c₆, ?_, rfl, rfl, hc₆⟩
  rw [loadHeader, bind_ok h₁, bind_ok (require_ok _ _ (decide_eq_true htype)), bind_ok h₂, bind_ok h₃,
    bind_ok h₄, bind_ok h₅, bind_ok h₆]
  rfl

theorem type_of_loadHeader (hb : b.length = PG_SZ) {h : Header}
    (hh : loadHeader (memory b outside) .start = .ok h c) : numberAt b 0 1 = 4 := by
  obtain ⟨c₁, h₁, -⟩ := fetchLE_at hb Cursor.at_start (show 0 + 1 = 1 from rfl) (by decide)
  rw [loadHeader, bind_ok h₁] at hh
  exact of_decide_eq_true (ok_of_require hh).1

theorem numTypes_le (b : Block) : 15 + numberAt b 14 1 ≤ PG_SZ := by
  have hlt : numberAt b 14 1 < 256 ^ 1 := numberAt_lt b 14 1
  simp only [PG_SZ]
  omega

theorem Announces.length_eq (h : Announces b key types) (hb : b.length = PG_SZ) :
    types.length = numberAt b 14 1 := by
  have hlen := congrArg List.length h.types
  have hle := numTypes_le b
  rw [typesIn, List.length_map, List.length_map, List.length_take, List.length_drop, hb] at hlen
  omega

theorem loadCells_at (hb : b.length = PG_SZ) (ha : Announces b key types) (hc : CursorAt 13 c) (J : Junk)
    (outside : Memory) :
    ∃ r c', loadCells J (memory b outside) (numCells b) (decide (numberAt b 7 1 ≠ 0)) c = .ok r c' ∧
      CursorAt (announced b key types) c' := by
  obtain ⟨c₁, h₁, hc₁⟩ := fetchLE_at hb hc (show 13 + 1 = 14 from rfl) (by decide)
  obtain ⟨c₂, h₂, hc₂⟩ := fetchLE_at hb hc₁ (show 14 + 1 = 15 from rfl) (by decide)
  have hkey : fetchType (memory b outside) c = .ok key c₁ := by
    rw [fetchType, bind_ok h₁, ha.key]
    rfl
  obtain ⟨c₃, h₃, hc₃⟩ := fetchTypes_of_typesAt hc₂ (ha.types.trans (typesAt_memory hb (numTypes_le b)).symm)
  obtain ⟨cells, c₄, h₄, hc₄⟩ := (takes_cell J (memory b outside) key types).replicate (numCells b) _ _ hc₃
  rw [loadCells, bind_ok hkey, bind_ok h₂, bind_ok h₃, bind_ok h₄, announced, ha.length_eq hb]
  by_cases hleaf : numberAt b 7 1 = 0
  · obtain ⟨children, c₅, h₅, hc₅⟩ :=
      (takes_LE (memory b outside) 4).replicate ((numCells b + 1) % 2 ^ 32) _ _ hc₄
    refine ⟨(cells, children), c₅, ?_, by rwa [if_pos hleaf]⟩
    rw [if_pos (by simpa using hleaf), bind_ok h₅]
    rfl
  · refine ⟨(cells, []), c₄, ?_, by rwa [if_neg hleaf]⟩
    rw [if_neg (by simpa using hleaf)]
    rfl

theorem announces_of_loadCells (hb : b.length = PG_SZ) (hc : CursorAt 13 c) {num : ℕ} {leaf : Bool}
    {r : List (Cell Tuple) × List ℕ} (h : loadCells J (memory b outside) num leaf c = .ok r c') :
    ∃ key types, Announces b key types := by
  obtain ⟨c₁, h₁, hc₁⟩ := fetchLE_at hb hc (show 13 + 1 = 14 from rfl) (by decide)
  obtain ⟨c₂, h₂, hc₂⟩ := fetchLE_at hb hc₁ (show 14 + 1 = 15 from rfl) (by decide)
  obtain ⟨key, c₁', hkey, h⟩ := ok_of_bind h
  rw [fetchType, bind_ok h₁] at hkey
  cases hv : type_id_to_variant (numberAt b 13 1) with
  | none =>
    rw [hv] at hkey
    cases hkey
  | some v =>
    rw [hv] at hkey
    cases hkey
    rw [bind_ok h₂] at h
    obtain ⟨types, c₃, h₃, -⟩ := ok_of_bind h
    obtain ⟨htypes, -⟩ := typesAt_of_fetchTypes hc₂ h₃
    exact ⟨key, types, hv, htypes.trans (typesAt_memory hb (numTypes_le b))⟩

/-- More bytes are announced than the block has, but the offset has come round when it is checked. -/
def Wraps (b : Block) : Prop :=
  numberAt b 0 1 = 4 ∧ ∃ key types, Announces b key types ∧
    PG_SZ < announced b key types ∧ announced b key types % OFFSET_SZ ≤ PG_SZ

theorem Announces.numCells_ne (h : Announces b key types) (hb : b.length = PG_SZ)
    (hbig : PG_SZ < announced b key types) : numCells b ≠ 0 := by
  intro h0
  have hlt : numberAt b 14 1 < 256 ^ 1 := numberAt_lt b 14 1
  rw [announced, h.length_eq hb, h0, Nat.zero_mul] at hbig
  simp only [PG_SZ] at hbig
  split_ifs at hbig <;> omega

theorem at_of_load (hb : b.length = PG_SZ) {n : BtreeNodePage Tuple}
    (h : load J pageID (memory b outside) .start = .ok n c) : CursorAt 13 c ∨
      numberAt b 0 1 = 4 ∧ ∃ key types, Announces b key types ∧ CursorAt (announced b key types) c ∧
        announced b key types % OFFSET_SZ ≤ PG_SZ := by
  obtain ⟨header, c₁, hheader, h⟩ := ok_of_bind h
  have htype := type_of_loadHeader hb hheader
  obtain ⟨header', c₁', hheader', hnum, hleaf, hc₁⟩ := loadHeader_at hb htype outside
  rw [hheader] at hheader'
  cases hheader'
  dsimp only at h
  split at h
  · cases h
    exact .inl hc₁
  · right
    obtain ⟨r, c₂, hcells, h⟩ := ok_of_bind h
    obtain ⟨key, types, ha⟩ := announces_of_loadCells hb hc₁ hcells
    obtain ⟨r', c₂', hcells', hc₂⟩ := loadCells_at hb ha hc₁ J outside
    rw [hnum, hleaf, hcells'] at hcells
    cases hcells
    change (require (c₂.offset ≤ PG_SZ) _ >>= fun _ => _) c₂ = _ at h
    obtain ⟨hoffset, h⟩ := ok_of_require h
    cases h
    exact ⟨htype, key, types, ha, hc₂, hc₂.offset_eq ▸ of_decide_eq_true hoffset⟩

theorem ok_of_wraps (hb : b.length = PG_SZ) (h : Wraps b) (J : Junk) (pageID : ℕ) (outside : Memory) :
    ∃ n c, load J pageID (memory b outside) .start = .ok n c ∧ ¬c.Inside PG_SZ := by
  obtain ⟨htype, key, types, ha, hbig, hoffset⟩ := h
  obtain ⟨header, c₁, hheader, hnum, hleaf, hc₁⟩ := loadHeader_at hb htype outside
  obtain ⟨r, c₂, hcells, hc₂⟩ := loadCells_at hb ha hc₁ J outside
  have hout : ¬c₂.Inside PG_SZ := fun hin => absurd (hc₂.inside_iff.mp hin) (Nat.not_le_of_lt hbig)
  refine ⟨.mk pageID header.degree header.parentID header.leaf header.root r.2 r.1, c₂, ?_, hout⟩
  rw [load, bind_ok hheader]
  dsimp only
  rw [hnum, if_neg (ha.numCells_ne hb hbig), hleaf, bind_ok hcells]
  change (require (c₂.offset ≤ PG_SZ) _ >>= fun _ => _) c₂ = _
  rw [bind_ok (require_ok _ _ (decide_eq_true (hc₂.offset_eq ▸ hoffset)))]
  rfl

theorem inBounds_load_iff (hb : b.length = PG_SZ) (J : Junk) (pageID : ℕ) :
    InBounds (load J pageID) b ↔ ¬Wraps b := by
  constructor
  · intro h hw
    obtain ⟨n, c, hok, hout⟩ := ok_of_wraps hb hw J pageID fun _ => 0
    exact hout (h _ n c hok)
  · intro hw outside n c hok
    rcases at_of_load hb hok with hc | ⟨htype, key, types, ha, hc, hoffset⟩
    · exact hc.inside_iff.mpr (by decide)
    · rw [hc.inside_iff]
      by_contra hbig
      exact hw ⟨htype, key, types, ha, Nat.lt_of_not_le hbig, hoffset⟩

end Kndb.BtreeNodePage
