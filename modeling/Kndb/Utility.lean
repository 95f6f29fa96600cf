import Mathlib.Algebra.GroupWithZero.Nat
import Kndb.Types

namespace Kndb

abbrev Tuple := List Vari

/-- `db_sizeof` of the alternative that the variant holds. -/
def db_sizeof : Vari → ℕ
  | .int _ => 4
  | .char _ => 1
  | .bool _ => 1
  | .float _ => 4
  | .double _ => 8
  | .string _ => MAX_STR_SZ

/-- `variant_to_type_id`; every alternative has one. -/
def variant_to_type_id : Vari → ℕ
  | .char _ => 1
  | .int _ => 2
  | .bool _ => 3
  | .string _ => 4
  | .float _ => 5
  | .double _ => 6

/-- `type_id_to_variant`: the default value of the type, if the id is that of a type. -/
def type_id_to_variant : ℕ → Option Vari
  | 1 => some (.char 0)
  | 2 => some (.int 0)
  | 3 => some (.bool false)
  | 4 => some (.string [])
  | 5 => some (.float 0)
  | 6 => some (.double 0)
  | _ => none

/-- The types of two rows are the same, as `insertTuple` and `updateTuple` check them. -/
def sameTypes (vec1 vec2 : Tuple) : Bool :=
  vec1.map variant_to_type_id == vec2.map variant_to_type_id

/-- The sizes are added up in an `offset_t`. -/
def cellSize (key : Vari) (values : Tuple) : ℕ :=
  (db_sizeof key + (values.map db_sizeof).sum) % 2 ^ 16

/-- `calculateDegree`: `(free_space + cell_size) / (2 * (cell_size + page_ptr_size))`, with the
free space `PG_SZ - 100`. -/
def calculateDegree (key : Vari) (values : Tuple) : ℕ :=
  (PG_SZ - 100 + cellSize key values) / (2 * (cellSize key values + 4))

theorem type_id_eq_iff {a b : Vari} :
    variant_to_type_id a = variant_to_type_id b ↔ a.index = b.index := by
  cases a <;> cases b <;> simp [variant_to_type_id, Vari.index]

/-- The id of a value leads back to the default value of its type. -/
theorem type_id_round_trip (v : Vari) :
    ∃ d, type_id_to_variant (variant_to_type_id v) = some d ∧
      variant_to_type_id d = variant_to_type_id v := by
  cases v <;> exact ⟨_, rfl, rfl⟩

theorem db_sizeof_congr {a b : Vari} (h : variant_to_type_id a = variant_to_type_id b) :
    db_sizeof a = db_sizeof b := by
  cases a <;> cases b <;> simp_all [variant_to_type_id, db_sizeof]

theorem sameTypes_iff {a b : Tuple} :
    sameTypes a b = true ↔ a.map variant_to_type_id = b.map variant_to_type_id := by
  simp [sameTypes]

theorem sameTypes_cons (x y : Vari) (a b : Tuple) : sameTypes (x :: a) (y :: b) =
    (decide (variant_to_type_id x = variant_to_type_id y) && sameTypes a b) := by
  rw [Bool.eq_iff_iff]
  simp [sameTypes]

theorem map_db_sizeof_congr {a b : Tuple} (h : sameTypes a b = true) :
    a.map db_sizeof = b.map db_sizeof := by
  rw [sameTypes_iff] at h
  induction a generalizing b with
  | nil => simp_all
  | cons x a ih =>
    cases b with
    | nil => simp at h
    | cons y b =>
      rw [List.map_cons, List.map_cons, List.cons.injEq] at h
      rw [List.map_cons, List.map_cons, db_sizeof_congr h.1, ih h.2]

theorem calculateDegree_congr {k k' : Vari} {a b : Tuple}
    (hk : variant_to_type_id k = variant_to_type_id k') (h : sameTypes a b = true) :
    calculateDegree k a = calculateDegree k' b := by
  rw [calculateDegree, calculateDegree, cellSize, cellSize, db_sizeof_congr hk,
    map_db_sizeof_congr h]

theorem calculateDegree_le (key : Vari) (values : Tuple) : calculateDegree key values ≤ 500 := by
  refine Nat.div_le_of_le_mul ?_
  simp only [PG_SZ]
  omega

/-- The rows so wide that a node has room for a single key. -/
theorem calculateDegree_eq_one_iff (key : Vari) (values : Tuple) :
    calculateDegree key values = 1 ↔ 1327 ≤ cellSize key values ∧ cellSize key values ≤ 3988 := by
  rw [calculateDegree, PG_SZ, Nat.div_eq_iff (by omega)]
  omega

example : calculateDegree (.int 0) [.int 0, .int 0, .double 0] = 83 := by decide

end Kndb
