import Mathlib.Data.List.TakeWhile
import Kndb.Library.Codec
import Kndb.Utility

/-!
# Values as bytes

`db_serialize` and `db_deserialize`.  The code copies 128 bytes from the data of a string, whatever
stands behind its terminating NUL, and it writes pages to buffers that are not initialised.
-/

namespace Kndb

open Imp.Prog Codec

/-- What memory holds where the code leaves it unspecified: the bytes at each offset of a buffer, and
those behind a character array, by the number of bytes that are still to be read then. -/
structure Junk where
  buffer : ℕ → Byte
  stack : ℕ → List Byte

/-- `db_serialize` of a number of `k` bytes. -/
def putLE (k x : ℕ) : Code Bytes Unit := write PG_SZ (toLE k x)

/-- `db_deserialize` of a number of `k` bytes. -/
def getLE (k : ℕ) : Code Bytes ℕ := do return ofLE (← read k)

/-- 128 bytes from the data of a string on. -/
def stringData (J : Junk) (offset : ℕ) (val : List Byte) : List Byte :=
  (val ++ 0 :: (List.range MAX_STR_SZ).map fun i => J.buffer (offset + i)).take MAX_STR_SZ

def putString (J : Junk) (val : List Byte) : Code Bytes Unit := do
  write PG_SZ (stringData J (← gets List.length) val)

/-- `string(buf)`: the bytes before the first NUL, be it behind the end of `buf`. -/
def getString (J : Junk) : Code Bytes (List Byte) := do
  let buf ← read MAX_STR_SZ
  let left ← gets List.length
  return (buf ++ J.stack left).takeWhile (· ≠ 0)

def db_serialize (J : Junk) : Vari → Code Bytes Unit
  | .int v => putLE 4 v.toNat
  | .char v => putLE 1 v.toNat
  | .bool v => putLE 1 v.toNat
  | .float v => putLE 4 v.toNat
  | .double v => putLE 8 v.toNat
  | .string v => putString J v

/-- The last argument of the function, `type`, only tells the type. -/
def db_deserialize (J : Junk) : Vari → Code Bytes Vari
  | .int _ => do return .int (.ofNat 32 (← getLE 4))
  | .char _ => do return .char (.ofNat 8 (← getLE 1))
  | .bool _ => do return .bool ((← getLE 1) ≠ 0)
  | .float _ => do return .float (.ofNat 32 (← getLE 4))
  | .double _ => do return .double (.ofNat 64 (← getLE 8))
  | .string _ => do return .string (← getString J)

/-- `type_id_to_variant` of a byte that has been read. -/
def getType : Code Bytes Vari := do
  match type_id_to_variant (← getLE 1) with
  | some v => return v
  | none => halt "type_id does not represent a valid type"

theorem stays_putLE (k x : ℕ) : Stays PG_SZ (putLE k x) := stays_write _

theorem stays_putString (J : Junk) (val : List Byte) : Stays PG_SZ (putString J val) :=
  (stays_gets _).bind fun _ => stays_write _

theorem stays_db_serialize (J : Junk) (v : Vari) : Stays PG_SZ (db_serialize J v) := by
  cases v with
  | string s => exact stays_putString J s
  | _ => exact stays_putLE _ _

abbrev Block := List Byte

def fillBlock (J : Junk) (out : Bytes) : Block :=
  out ++ (List.range (PG_SZ - out.length)).map fun i => J.buffer (out.length + i)

theorem fillBlock_length {out : Bytes} (h : out.length ≤ PG_SZ) (J : Junk) :
    (fillBlock J out).length = PG_SZ := by
  simp [fillBlock, h]

theorem recovers_block {α : Type} {w : Code Bytes Unit} {p : Code Bytes α} {P : α → Prop} {n : ℕ}
    (h : Recovers PG_SZ w p P n) (hn : n ≤ PG_SZ) (J : Junk) : ∃ out, w [] = .ok () out ∧
      out.length = n ∧ ∃ a rest, P a ∧ p (fillBlock J out) = .ok a rest ∧ rest.length = PG_SZ - n := by
  obtain ⟨l, rfl, hw, hp⟩ := h.fits [] (by simpa using hn)
  obtain ⟨a, ha, hr⟩ := hp ((List.range (PG_SZ - l.length)).map fun i => J.buffer (l.length + i))
  exact ⟨l, hw, rfl, a, _, ha, hr, by simp⟩

/-- A string of at most 127 bytes, none of them NUL. -/
def StringOk (s : List Byte) : Prop := s.length ≤ MAX_STR_LEN ∧ 0 ∉ s

instance (s : List Byte) : Decidable (StringOk s) := inferInstanceAs (Decidable (_ ∧ _))

/-- The string that is read back when `stack` stands behind the character array. -/
def rereadString (stack s : List Byte) : List Byte :=
  (s.take MAX_STR_SZ ++ if s.length < MAX_STR_SZ then [0] else stack).takeWhile (· ≠ 0)

namespace Vari

/-- The value survives being written and read back. -/
def Storable : Vari → Prop
  | string s => StringOk s
  | _ => True

instance : DecidablePred Storable
  | string s => inferInstanceAs (Decidable (StringOk s))
  | int _ | char _ | bool _ | float _ | double _ => inferInstanceAs (Decidable True)

def reread (stack : List Byte) : Vari → Vari
  | string s => string (rereadString stack s)
  | v => v

end Vari

theorem takeWhile_append_zero {s l : List Byte} :
    (s ++ 0 :: l).takeWhile (· ≠ 0) = s.takeWhile (· ≠ 0) := by
  induction s with
  | nil => simp
  | cons b s ih => by_cases hb : b = 0 <;> simp_all

theorem takeWhile_eq_self {s : List Byte} (h : 0 ∉ s) : s.takeWhile (· ≠ 0) = s := by
  rw [List.takeWhile_eq_self_iff]
  intro b hb
  apply decide_eq_true
  rintro rfl
  exact h hb

@[simp] theorem stringData_length (J : Junk) (o : ℕ) (s : List Byte) :
    (stringData J o s).length = MAX_STR_SZ := by
  simp only [stringData, List.length_take, List.length_append, List.length_cons, List.length_map,
    List.length_range]
  omega

theorem takeWhile_stringData (J : Junk) (o : ℕ) (s stack : List Byte) :
    (stringData J o s ++ stack).takeWhile (· ≠ 0) = rereadString stack s := by
  unfold stringData rereadString
  split_ifs with h
  · obtain ⟨k, hk⟩ : ∃ k, MAX_STR_SZ - s.length = k + 1 := ⟨MAX_STR_SZ - s.length - 1, by omega⟩
    rw [List.take_append, List.take_of_length_le (by omega), hk, List.take_succ_cons,
      List.append_assoc, List.cons_append, takeWhile_append_zero, takeWhile_append_zero]
  · rw [List.take_append_of_le_length (by omega)]

theorem rereadString_of_ok {s : List Byte} (h : StringOk s) (stack : List Byte) :
    rereadString stack s = s := by
  have hlt : s.length < MAX_STR_SZ := Nat.lt_of_le_of_lt h.1 (by decide)
  rw [rereadString, if_pos hlt, List.take_of_length_le hlt.le, takeWhile_append_zero,
    takeWhile_eq_self h.2]

namespace Vari

theorem Storable.reread {v : Vari} (h : v.Storable) (stack : List Byte) : v.reread stack = v := by
  cases v with
  | string s => exact congrArg string (rereadString_of_ok h stack)
  | _ => rfl

end Vari

theorem recovers_LE (k x : ℕ) : Recovers PG_SZ (putLE k x) (getLE k) (· = x % 256 ^ k) k :=
  Codec.recovers_LE k x

theorem recovers_LE_of_lt {k x : ℕ} (h : x < 256 ^ k) :
    Recovers PG_SZ (putLE k x) (getLE k) (· = x) k := by
  have := recovers_LE k x
  rwa [Nat.mod_eq_of_lt h] at this

theorem recovers_string (J J' : Junk) (s : List Byte) : Recovers PG_SZ (putString J s) (getString J')
    (fun s' => ∃ left, s' = rereadString (J'.stack left) s) MAX_STR_SZ := by
  constructor
  · intro out hout
    refine ⟨stringData J out.length s, stringData_length .., if_pos (by simpa), fun rest => ?_⟩
    refine ⟨_, ⟨rest.length, rfl⟩, ?_⟩
    rw [getString, bind_ok (read_append (stringData_length ..) rest),
      ← takeWhile_stringData J out.length]
    rfl
  · intro out _ hout
    exact ⟨_, if_neg (by simp only [stringData_length]; omega)⟩

/-- Only the type of the last argument matters. -/
theorem db_deserialize_congr {J : Junk} {type type' : Vari}
    (ht : variant_to_type_id type = variant_to_type_id type') : db_deserialize J type = db_deserialize J type' := by
  rw [type_id_eq_iff] at ht
  cases type <;> cases type' <;> simp only [Vari.index] at ht <;> first | rfl | omega

theorem recovers_bits {k w : ℕ} (hw : 2 ^ w = 256 ^ k) (v : BitVec w) (f : BitVec w → Vari) :
    Recovers PG_SZ (putLE k v.toNat) (do return f (.ofNat w (← getLE k))) (· = f v) k := by
  refine (recovers_LE_of_lt (hw ▸ v.isLt)).map ?_
  rintro _ rfl
  rw [BitVec.ofNat_toNat, BitVec.setWidth_eq]

theorem recovers_value (J J' : Junk) {v type : Vari}
    (ht : variant_to_type_id type = variant_to_type_id v) :
    Recovers PG_SZ (db_serialize J v) (db_deserialize J' type)
      (fun v' => ∃ left, v' = v.reread (J'.stack left)) (db_sizeof v) := by
  rw [db_deserialize_congr ht]
  cases v with
  | int v => exact (recovers_bits rfl v .int).mono fun _ hv => ⟨0, hv⟩
  | char v => exact (recovers_bits rfl v .char).mono fun _ hv => ⟨0, hv⟩
  | bool v =>
    refine (recovers_LE_of_lt (k := 1) (x := v.toNat) (by cases v <;> decide)).map ?_
    rintro _ rfl
    exact ⟨0, by cases v <;> rfl⟩
  | float v => exact (recovers_bits rfl v .float).mono fun _ hv => ⟨0, hv⟩
  | double v => exact (recovers_bits rfl v .double).mono fun _ hv => ⟨0, hv⟩
  | string s =>
    refine (recovers_string J J' s).map ?_
    rintro _ ⟨left, rfl⟩
    exact ⟨left, rfl⟩

theorem recovers_type (v : Vari) : Recovers PG_SZ (putLE 1 (variant_to_type_id v)) getType
    (fun d => variant_to_type_id d = variant_to_type_id v) 1 := by
  have hlt : variant_to_type_id v < 256 ^ 1 := by
    cases v <;> simp [variant_to_type_id]
  refine ⟨fun out hout => ?_, (recovers_LE_of_lt hlt).overflows⟩
  obtain ⟨l, hl, hw, hp⟩ := (recovers_LE_of_lt hlt).fits out hout
  obtain ⟨d, hd, hid⟩ := type_id_round_trip v
  refine ⟨l, hl, hw, fun rest => ⟨d, hid, ?_⟩⟩
  obtain ⟨_, rfl, hr⟩ := hp rest
  rw [getType, bind_ok hr, hd]
  rfl

theorem consumes_LE (k : ℕ) : Consumes (getLE k) k := (consumes_read k).map ofLE

theorem consumes_type : Consumes getType 1 :=
  (consumes_LE 1).bind (m := 0) fun id => by
    cases type_id_to_variant id with
    | some v => exact consumes_pure v
    | none => exact fun s a s' h => by cases h

theorem consumes_value (J : Junk) (type : Vari) : Consumes (db_deserialize J type) 1 := by
  cases type with
  | int _ => exact ((consumes_LE 4).map _).mono (by decide)
  | char _ => exact (consumes_LE 1).map _
  | bool _ => exact (consumes_LE 1).map _
  | float _ => exact ((consumes_LE 4).map _).mono (by decide)
  | double _ => exact ((consumes_LE 8).map _).mono (by decide)
  | string _ =>
    have hstring : Consumes (getString J) MAX_STR_SZ :=
      (consumes_read MAX_STR_SZ).bind (m := 0) fun buf => (consumes_gets _).map _
    exact (hstring.map _).mono (by decide)

theorem forall₂_type_iff {a b : Tuple} :
    List.Forall₂ (fun v d => variant_to_type_id d = variant_to_type_id v) a b ↔
      b.map variant_to_type_id = a.map variant_to_type_id := by
  induction a generalizing b with
  | nil => cases b <;> simp
  | cons v a ih => cases b <;> simp [ih]

theorem recovers_types (types : Tuple) :
    Recovers PG_SZ (writeEach (fun v => putLE 1 (variant_to_type_id v)) types)
      (readEach (List.replicate types.length getType))
      (fun types' => types'.map variant_to_type_id = types.map variant_to_type_id) types.length := by
  have h := recovers_replicate (fun v (_ : v ∈ types) => recovers_type v) fun v _ => ⟨v, rfl⟩
  have hsum : (types.map fun _ => 1).sum = types.length := by simp
  rw [hsum] at h
  exact h.mono fun types' htypes => forall₂_type_iff.mp htypes

end Kndb
