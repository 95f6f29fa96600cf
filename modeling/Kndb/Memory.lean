import Kndb.Bytes
import Kndb.Library.Cursor

namespace Kndb

open Imp Imp.Prog Codec

/-- What stands from the beginning of a buffer on. -/
abbrev Memory := ℕ → Byte

/-- A block and what stands behind it. -/
def memory (b : Block) (outside : Memory) : Memory := fun i => b.getD i (outside i)

abbrev OFFSET_SZ : ℕ := 2 ^ 16

/-- `db_deserialize` of a number of `k` bytes. -/
def fetchLE (mem : Memory) (k : ℕ) : Code Cursor ℕ := do return ofLE (← fetch OFFSET_SZ mem k)

def fetchString (J : Junk) (mem : Memory) : Code Cursor (List Byte) := do
  let buf ← fetch OFFSET_SZ mem MAX_STR_SZ
  let left ← gets fun c => PG_SZ - c.offset
  return (buf ++ J.stack left).takeWhile (· ≠ 0)

/-- `db_deserialize` with a type. -/
def fetchValue (J : Junk) (mem : Memory) : Vari → Code Cursor Vari
  | .int _ => do return .int (.ofNat 32 (← fetchLE mem 4))
  | .char _ => do return .char (.ofNat 8 (← fetchLE mem 1))
  | .bool _ => do return .bool ((← fetchLE mem 1) ≠ 0)
  | .float _ => do return .float (.ofNat 32 (← fetchLE mem 4))
  | .double _ => do return .double (.ofNat 64 (← fetchLE mem 8))
  | .string _ => do return .string (← fetchString J mem)

def fetchType (mem : Memory) : Code Cursor Vari := do
  match type_id_to_variant (← fetchLE mem 1) with
  | some v => return v
  | none => halt "type_id does not represent a valid type"

/-- A cursor after `n` bytes of a page. -/
abbrev CursorAt (n : ℕ) (c : Cursor) : Prop := c.At OFFSET_SZ PG_SZ n

variable {J : Junk} {mem : Memory} {n k : ℕ} {c c' : Cursor} {types : Tuple}

theorem PG_SZ_lt : PG_SZ < OFFSET_SZ := by decide

theorem takes_LE (mem : Memory) (k : ℕ) : Takes OFFSET_SZ PG_SZ (fetchLE mem k) k :=
  (takes_fetch PG_SZ_lt mem k).map ofLE

theorem takes_string (J : Junk) (mem : Memory) : Takes OFFSET_SZ PG_SZ (fetchString J mem) MAX_STR_SZ :=
  (takes_fetch PG_SZ_lt mem MAX_STR_SZ).bind fun _ => (takes_gets _).map _

theorem takes_value (J : Junk) (mem : Memory) (type : Vari) :
    Takes OFFSET_SZ PG_SZ (fetchValue J mem type) (db_sizeof type) := by
  cases type with
  | int _ => exact (takes_LE mem 4).map _
  | char _ => exact (takes_LE mem 1).map _
  | bool _ => exact (takes_LE mem 1).map _
  | float _ => exact (takes_LE mem 4).map _
  | double _ => exact (takes_LE mem 8).map _
  | string _ => exact (takes_string J mem).map _

/-- The type whose id stands at an address. -/
def typeAt (mem : Memory) (i : ℕ) : Option Vari := type_id_to_variant (mem i).toNat

theorem fetchLE_one : fetchLE mem 1 c = .ok (mem c.offset).toNat (c.advance OFFSET_SZ 1) := by
  change Outcome.ok (ofLE [mem (c.offset + 0)]) _ = _
  rw [ofLE, ofLE, Nat.mul_zero, Nat.add_zero]
  rfl

theorem fetchType_eq : fetchType mem c = match typeAt mem c.offset with
    | some v => .ok v (c.advance OFFSET_SZ 1)
    | none => .abort "type_id does not represent a valid type" := by
  rw [fetchType, bind_ok fetchLE_one, typeAt]
  cases type_id_to_variant (mem c.offset).toNat <;> rfl

/-- The types whose ids stand at `k` offsets from `n` on. -/
def typesAt (mem : Memory) (n k : ℕ) : List (Option Vari) :=
  (List.range k).map fun j => typeAt mem ((n + j) % OFFSET_SZ)

theorem typesAt_succ (mem : Memory) (n k : ℕ) :
    typesAt mem n (k + 1) = typeAt mem (n % OFFSET_SZ) :: typesAt mem (n + 1) k := by
  rw [typesAt, typesAt, List.range_succ_eq_map, List.map_cons, List.map_map, Nat.add_zero]
  congr 1
  apply List.map_congr_left
  intro j _
  rw [Function.comp_apply, Nat.succ_eq_add_one, Nat.add_assoc, Nat.add_comm 1 j]

theorem fetchTypes_of_typesAt (hc : CursorAt n c) (h : types.map some = typesAt mem n k) :
    ∃ c', fetchEach (List.replicate k (fetchType mem)) c = .ok types c' ∧ CursorAt (n + k) c' := by
  induction k generalizing n c types with
  | zero =>
    obtain rfl : types = [] := List.map_eq_nil_iff.mp h
    exact ⟨c, rfl, hc⟩
  | succ k ih =>
    rw [typesAt_succ] at h
    obtain _ | ⟨v, types⟩ := types
    · cases h
    rw [List.map_cons, List.cons.injEq] at h
    obtain ⟨c', hr, hc'⟩ := ih (hc.advance PG_SZ_lt 1) h.2
    refine ⟨c', ?_, by rwa [Nat.add_assoc, Nat.add_comm 1 k] at hc'⟩
    have hfirst : fetchType mem c = .ok v (c.advance OFFSET_SZ 1) := by
      rw [fetchType_eq, hc.offset_eq, ← h.1]
    rw [List.replicate_succ, fetchEach, bind_ok hfirst, bind_ok hr]
    rfl

theorem typesAt_of_fetchTypes (hc : CursorAt n c)
    (h : fetchEach (List.replicate k (fetchType mem)) c = .ok types c') :
    types.map some = typesAt mem n k ∧ CursorAt (n + k) c' := by
  induction k generalizing n c types with
  | zero =>
    cases h
    exact ⟨rfl, hc⟩
  | succ k ih =>
    rw [List.replicate_succ] at h
    obtain ⟨v, c₁, hv, h⟩ := ok_of_bind h
    obtain ⟨types', c₂, hrest, h⟩ := ok_of_bind h
    cases h
    rw [fetchType_eq, hc.offset_eq] at hv
    split at hv
    · next w hw =>
      cases hv
      obtain ⟨htypes, hc'⟩ := ih (hc.advance PG_SZ_lt 1) hrest
      refine ⟨?_, by rwa [Nat.add_assoc, Nat.add_comm 1 k] at hc'⟩
      rw [typesAt_succ, List.map_cons, htypes, hw]
    · cases hv

section Agrees

variable {b : Block}

theorem memory_eq (outside : Memory) (i : ℕ) (hi : i < b.length) : b[i] = memory b outside i := by
  rw [memory, List.getD_eq_getElem?_getD, List.getElem?_eq_getElem hi]
  rfl

theorem offset_eq (hb : b.length = PG_SZ) {n : ℕ} {c : Cursor} (hn : n ≤ b.length)
    (hc : c.At OFFSET_SZ b.length n) : c.offset = n := by
  rw [hc.offset_eq, Nat.mod_eq_of_lt (hn.trans_lt (hb ▸ PG_SZ_lt))]

theorem agrees_LE (hb : b.length = PG_SZ) (outside : Memory) (k : ℕ) :
    Agrees OFFSET_SZ b (getLE k) (fetchLE (memory b outside) k) := by
  exact (agrees_fetch (hb ▸ PG_SZ_lt) (memory_eq outside) k).bind fun l => agrees_pure (ofLE l)

theorem agrees_string (hb : b.length = PG_SZ) (J : Junk) (outside : Memory) :
    Agrees OFFSET_SZ b (getString J) (fetchString J (memory b outside)) := by
  refine (agrees_fetch (hb ▸ PG_SZ_lt) (memory_eq outside) MAX_STR_SZ).bind fun buf => ?_
  refine (agrees_gets fun n c hn hc => ?_).bind fun left => agrees_pure _
  rw [List.length_drop, offset_eq hb hn hc, hb]

theorem agrees_value (hb : b.length = PG_SZ) (J : Junk) (outside : Memory) (type : Vari) :
    Agrees OFFSET_SZ b (db_deserialize J type) (fetchValue J (memory b outside) type) := by
  cases type with
  | int _ => exact (agrees_LE hb outside 4).bind fun x => agrees_pure _
  | char _ => exact (agrees_LE hb outside 1).bind fun x => agrees_pure _
  | bool _ => exact (agrees_LE hb outside 1).bind fun x => agrees_pure _
  | float _ => exact (agrees_LE hb outside 4).bind fun x => agrees_pure _
  | double _ => exact (agrees_LE hb outside 8).bind fun x => agrees_pure _
  | string _ => exact (agrees_string hb J outside).bind fun x => agrees_pure _

theorem agrees_type (hb : b.length = PG_SZ) (outside : Memory) :
    Agrees OFFSET_SZ b getType (fetchType (memory b outside)) := by
  refine (agrees_LE hb outside 1).bind fun id => ?_
  cases type_id_to_variant id with
  | some v => exact agrees_pure v
  | none => exact agrees_halt _ _

/-- A check on the offset that readings in the block pass. -/
theorem agrees_offset (hb : b.length = PG_SZ) (m : String) : Agrees OFFSET_SZ b (pure () : Code Bytes Unit)
    (gets Cursor.offset >>= fun offset => require (offset ≤ PG_SZ) m) := by
  have hpass : Agrees OFFSET_SZ b (gets fun _ => true : Code Bytes Bool)
      (gets fun c => decide (c.offset ≤ PG_SZ)) := by
    apply agrees_gets
    intro n c hn hc
    rw [offset_eq hb hn hc]
    exact (decide_eq_true (hb ▸ hn)).symm
  exact hpass.bind fun x => agrees_require x m

end Agrees

/-- The number of `k` bytes at an offset of a block. -/
def numberAt (b : Block) (n k : ℕ) : ℕ := ofLE ((b.drop n).take k)

section Block

variable {b : Block} {outside : Memory}

theorem numberAt_lt (b : Block) (n k : ℕ) : numberAt b n k < 256 ^ k :=
  (ofLE_lt _).trans_le (Nat.pow_le_pow_right (by decide) (List.length_take_le ..))

theorem numberAt_eq (outside : Memory) (hn : n + k ≤ b.length) :
    numberAt b n k = ofLE ((List.range k).map fun i => memory b outside (n + i)) := by
  rw [numberAt, take_drop_eq (memory_eq outside) hn]

theorem fetchLE_at (hb : b.length = PG_SZ) {m : ℕ} (hc : CursorAt n c) (hm : n + k = m) (hle : m ≤ PG_SZ) :
    ∃ c', fetchLE (memory b outside) k c = .ok (numberAt b n k) c' ∧ CursorAt m c' := by
  subst hm
  refine ⟨_, ?_, hc.advance PG_SZ_lt k⟩
  have hlt : n < OFFSET_SZ := (Nat.le_of_add_right_le hle).trans_lt PG_SZ_lt
  rw [numberAt_eq outside (hb ▸ hle)]
  change Outcome.ok (ofLE ((List.range k).map fun i => memory b outside (c.offset + i))) _ = _
  rw [hc.offset_eq, Nat.mod_eq_of_lt hlt]

/-- The types whose ids stand at `k` offsets of a block from `n` on. -/
def typesIn (b : Block) (n k : ℕ) : List (Option Vari) :=
  ((b.drop n).take k).map fun x => type_id_to_variant x.toNat

theorem typesAt_memory (hb : b.length = PG_SZ) (hn : n + k ≤ PG_SZ) :
    typesAt (memory b outside) n k = typesIn b n k := by
  rw [typesIn, take_drop_eq (memory_eq outside) (hb ▸ hn), typesAt, List.map_map]
  apply List.map_congr_left
  intro j hj
  have hlt : n + j < OFFSET_SZ :=
    ((Nat.add_lt_add_left (List.mem_range.mp hj) n).trans_le hn).trans PG_SZ_lt
  rw [Nat.mod_eq_of_lt hlt, typeAt, Function.comp_apply]

theorem typeAt_memory (outside : Memory) {i : ℕ} (hi : i < b.length) :
    typeAt (memory b outside) i = type_id_to_variant b[i].toNat := by
  rw [typeAt, memory_eq outside i hi]

/-- Wherever the reader returns, every byte that it has read lies in the block. -/
def InBounds {α : Type} (load : Memory → Code Cursor α) (b : Block) : Prop :=
  ∀ outside a c, load (memory b outside) .start = .ok a c → c.Inside PG_SZ

end Block

end Kndb
