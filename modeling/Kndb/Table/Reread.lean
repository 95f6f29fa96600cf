import Kndb.Btree.Patched
import Kndb.Table.Columns
import Kndb.Table.DegreeOne
import Kndb.Table.Unordered
import Kndb.MemCache

namespace Kndb.Table

open Imp Imp.Prog Btree LawfulCache Pager BtreeNodePage Codec

variable {σ : Type} {C : LawfulCache σ} {m : Mem} {N p : ℕ} {st : TableState σ} {t : Table}
variable {types values : Tuple} {L : Layout} {M : Rank → Option Tuple} {n n' : BtreeNodePage Tuple}
variable {c : Cell Tuple} {key : Vari} {J J' : Junk}

theorem TableOk.mem_of_inTree (h : TableOk m t types L M) (hp : InTree (nodeAt m) t.rootPageID p) :
    p ∈ L.pages :=
  Table.mem_of_inTree h.tree.toLinked hp

theorem TableOk.encodable (h : TableOk m t types L M) (hinv : Inv m N)
    (hdeg : 2 ≤ effectiveDegree (tableDegree types)) (hp : p ∈ L.pages) (hn : nodeAt m p = some n) :
    (n.setParent (n.parentID % 2 ^ 32)).Encodable :=
  h.typed.encodable hinv hdeg hp hn

theorem storable_of_rank_eq {a b : Vari} (h : a.rank = b.rank) (hb : b.Storable) : a.Storable := by
  cases a with
  | string s =>
    cases b with
    | string s' =>
      have heq : s = s' := by simpa [Vari.rank, map_toNat_inj] using h
      rw [heq]
      exact hb
    | _ => cases Vari.index_eq_of_rank_eq h
  | _ => trivial

def KeyIn (C : LawfulCache σ) (K : Vari → Prop) (st : TableState σ) (op : TupleOp) : Prop :=
  K op.key ∧ ¬Gives C st op (.error sizeLimit)

def IsNumber (key : Vari) : Prop := key.isNaN = false

theorem Calls.returns {K : Vari → Prop} {op : TupleOp} {fuel : ℕ} {r : Reply Tuple} {st' : TableState σ}
    (h : Calls C types (KeyIn C K) st) (hkey : K op.key) (hrun : op.run C.toCacheOps fuel st = .ok r st') :
    Calls C types (KeyIn C K) st' := by
  have hanswer : op.run C.toCacheOps fuel st = .answer (.ok r) st' := hrun
  refine h.call ⟨hkey, fun hlimit => ?_⟩ hanswer
  cases hlimit.unique ⟨fuel, st', hanswer⟩

theorem Calls.ordered {K : Vari → Prop} (h : Calls C types (KeyIn C K) st) (hK : ∀ key, K key → IsNumber key) :
    Run C types st := by
  induction h with
  | create hrun hcreate => exact .create hrun hcreate
  | @call st st' op fuel x _ hop hrun ih =>
    cases x with
    | ok r => exact ih.returns (hK _ hop.1) hrun
    | error e =>
      refine ih.throws (hK _ hop.1) hrun ?_
      rintro rfl
      exact hop.2 ⟨fuel, st', hrun⟩

end Kndb.Table
