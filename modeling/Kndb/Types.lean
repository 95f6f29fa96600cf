import Mathlib.Algebra.Group.Nat.Defs
import Mathlib.Data.Int.ConditionallyCompleteOrder
import Mathlib.Data.List.Lex
import Mathlib.Data.Prod.Lex
import Mathlib.Order.WithBot
import Mathlib.Order.BoundedOrder.Basic
import Mathlib.Order.ConditionallyCompleteLattice.Basic
import Kndb.Library.Program

namespace Kndb

abbrev Byte := BitVec 8

def MAX_STR_SZ : ℕ := 128
def MAX_STR_LEN : ℕ := MAX_STR_SZ - 1
def PG_SZ : ℕ := 4096
def MAX_FSMPAGES : ℕ := 2
def PGID_INVALID : ℕ := 2 ^ 32 - 1

/-- The exceptions the backend throws. -/
inductive Exn where
  | runtimeError (what : String)
  | invalidArgument (what : String)
  | badCast
deriving DecidableEq, Repr

abbrev Code (σ α : Type) := Imp.Prog Exn σ α

/-- `std::variant<int, char, bool, float, double, std::string>`; numbers are their bit patterns. -/
inductive Vari where
  | int (v : BitVec 32)
  | char (v : BitVec 8)
  | bool (v : Bool)
  | float (v : BitVec 32)
  | double (v : BitVec 64)
  | string (v : List Byte)
deriving DecidableEq, Repr

/-- The number without its sign bit. -/
def magnitude {w : ℕ} (v : BitVec w) : ℕ := v.toNat % 2 ^ (w - 1)

/-- Sign and magnitude; the two zeros are one value. -/
def signedMagnitude {w : ℕ} (v : BitVec w) : ℤ :=
  if v.msb then -(magnitude v : ℤ) else (magnitude v : ℤ)

def floatNaN (v : BitVec 32) : Bool := 0x7F800000 < magnitude v
def doubleNaN (v : BitVec 64) : Bool := 0x7FF0000000000000 < magnitude v

/-- `std::string`'s `<`: lexicographic by unsigned bytes. -/
def bytesLt : List Byte → List Byte → Bool
  | [], [] => false
  | [], _ :: _ => true
  | _ :: _, [] => false
  | a :: as, b :: bs =>
    if a.toNat < b.toNat then true else if b.toNat < a.toNat then false else bytesLt as bs

namespace Vari

/-- `std::variant::index`. -/
def index : Vari → ℕ
  | int _ => 0
  | char _ => 1
  | bool _ => 2
  | float _ => 3
  | double _ => 4
  | string _ => 5

/-- A floating point alternative that holds a NaN. -/
def isNaN : Vari → Bool
  | float v => floatNaN v
  | double v => doubleNaN v
  | _ => false

/-- `operator<` of two variants. -/
def lt : Vari → Vari → Bool
  | int a, int b => a.toInt < b.toInt
  | char a, char b => a.toInt < b.toInt
  | bool a, bool b => !a && b
  | float a, float b => !floatNaN a && !floatNaN b && signedMagnitude a < signedMagnitude b
  | double a, double b => !doubleNaN a && !doubleNaN b && signedMagnitude a < signedMagnitude b
  | string a, string b => bytesLt a b
  | a, b => a.index < b.index

/-- `operator==` of two variants. -/
def eq : Vari → Vari → Bool
  | int a, int b => a == b
  | char a, char b => a == b
  | bool a, bool b => a == b
  | float a, float b => !floatNaN a && !floatNaN b && signedMagnitude a == signedMagnitude b
  | double a, double b => !doubleNaN a && !doubleNaN b && signedMagnitude a == signedMagnitude b
  | string a, string b => a == b
  | _, _ => false

end Vari

/-- Where a value stands among all values: its alternative, then its number or its bytes. -/
abbrev Rank := ℕ ×ₗ ℤ ×ₗ List ℕ

abbrev Bound := WithBot (WithTop Rank)

namespace Vari

def rank : Vari → Rank
  | int v => toLex (0, toLex (v.toInt, []))
  | char v => toLex (1, toLex (v.toInt, []))
  | bool v => toLex (2, toLex ((v.toNat : ℤ), []))
  | float v => toLex (3, toLex (signedMagnitude v, []))
  | double v => toLex (4, toLex (signedMagnitude v, []))
  | string v => toLex (5, toLex (0, v.map BitVec.toNat))

def bound (k : Vari) : Bound := ((k.rank : WithTop Rank) : Bound)

@[simp] theorem bound_lt_bound {a b : Vari} : a.bound < b.bound ↔ a.rank < b.rank := by
  simp [bound]

@[simp] theorem bound_inj {a b : Vari} : a.bound = b.bound ↔ a.rank = b.rank := by
  simp [bound]

@[simp] theorem bot_lt_bound (a : Vari) : (⊥ : Bound) < a.bound := WithBot.bot_lt_coe _

@[simp] theorem bound_lt_top (a : Vari) : a.bound < (⊤ : Bound) :=
  WithBot.coe_lt_coe.mpr (WithTop.coe_lt_top _)

end Vari

theorem bytesLt_iff (a b : List Byte) :
    bytesLt a b = true ↔ a.map BitVec.toNat < b.map BitVec.toNat := by
  induction a generalizing b with
  | nil => cases b <;> simp [bytesLt]
  | cons x a ih =>
    cases b with
    | nil => simp [bytesLt]
    | cons y b =>
      simp only [bytesLt, List.map_cons, List.cons_lt_cons_iff]
      split_ifs with h1 h2
      · simp [h1]
      · simp only [false_iff, not_or, not_and]
        exact ⟨h1, fun h => absurd h h2.ne'⟩
      · rw [ih]
        have : x.toNat = y.toNat := by omega
        simp [this]

theorem toLex_lt {a b : ℕ} {x y : ℤ ×ₗ List ℕ} :
    (toLex (a, x) : Rank) < toLex (b, y) ↔ a < b ∨ a = b ∧ x < y := Prod.Lex.toLex_lt_toLex

theorem toLex_lt' {a b : ℤ} {x y : List ℕ} :
    (toLex (a, x) : ℤ ×ₗ List ℕ) < toLex (b, y) ↔ a < b ∨ a = b ∧ x < y :=
  Prod.Lex.toLex_lt_toLex

theorem map_toNat_inj {a b : List Byte} : a.map BitVec.toNat = b.map BitVec.toNat ↔ a = b :=
  (List.map_injective_iff.mpr fun _ _ h => BitVec.eq_of_toNat_eq h).eq_iff

namespace Vari

/-- Away from NaN, `operator<` is the order of the ranks. -/
theorem lt_iff {a b : Vari} (ha : a.isNaN = false) (hb : b.isNaN = false) :
    a.lt b = true ↔ a.rank < b.rank := by
  cases a <;> cases b <;>
    simp_all [lt, rank, index, isNaN, toLex_lt, toLex_lt', bytesLt_iff]
  case bool.bool x y => cases x <;> cases y <;> simp

/-- Away from NaN, `operator==` is equality of the ranks. -/
theorem eq_iff {a b : Vari} (ha : a.isNaN = false) (hb : b.isNaN = false) :
    a.eq b = true ↔ a.rank = b.rank := by
  cases a <;> cases b <;>
    simp_all [eq, rank, isNaN, BitVec.toInt_inj, map_toNat_inj]
  case bool.bool x y => cases x <;> cases y <;> simp

theorem index_eq_of_rank_eq {a b : Vari} (h : a.rank = b.rank) : a.index = b.index := by
  cases a <;> cases b <;> simp_all [rank, index]

example : (float 0x80000000).eq (float 0) = true ∧ (float 0x7FC00000).eq (float 0x7FC00000) = false := by
  decide

end Vari
end Kndb
