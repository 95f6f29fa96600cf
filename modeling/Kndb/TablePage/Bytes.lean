import Kndb.Bytes
import Kndb.TablePage

namespace Kndb.TablePage

open Imp.Prog Codec

def toBytes (p : TablePage) : Code Bytes Unit := do
  putLE 1 3
  putLE 2 p.types.length
  writeEach (fun v => putLE 1 (variant_to_type_id v)) (p.types.take (p.types.length % 2 ^ 16))
  putLE 4 p.btreePageID
  putLE 8 p.numTuples

/-- The constructor from a block. -/
def parse (pageID : ℕ) : Code Bytes TablePage := do
  require ((← getLE 1) = 3) "Invalid page_type_id"
  let num_types ← getLE 2
  require (num_types ≠ 0) "Page contains zero types (likely has not been initialized yet)"
  let types ← readEach (List.replicate num_types getType)
  let btreePageID ← getLE 4
  let numTuples ← getLE 8
  return { pageID, types, btreePageID, numTuples }

/-- What the constructors and the members of the class maintain. -/
structure Sound (p : TablePage) : Prop where
  accepts : Accepts p.types
  btreePageID_lt : p.btreePageID < 2 ^ 32
  numTuples_lt : p.numTuples < 2 ^ 64

/-- `q` is `p` with the defaults of its types. -/
structure Same (p q : TablePage) : Prop where
  pageID : q.pageID = p.pageID
  types : q.types.map variant_to_type_id = p.types.map variant_to_type_id
  btreePageID : q.btreePageID = p.btreePageID
  numTuples : q.numTuples = p.numTuples

theorem Same.sound {p q : TablePage} (h : Same p q) (hp : p.Sound) : q.Sound := by
  have hlen : q.types.length = p.types.length := by simpa using congrArg List.length h.types
  refine ⟨⟨fun hnil => hp.accepts.1 ?_, hlen ▸ hp.accepts.2⟩, h.btreePageID ▸ hp.btreePageID_lt,
    h.numTuples ▸ hp.numTuples_lt⟩
  rw [hnil] at hlen
  exact List.length_eq_zero_iff.mp hlen.symm

theorem Sound.recovers {p : TablePage} (h : p.Sound) :
    Recovers PG_SZ p.toBytes (parse p.pageID) (Same p) (15 + p.types.length) := by
  have hlen : p.types.length < 2 ^ 16 := h.accepts.2.trans_lt (by decide)
  have hne : p.types.length ≠ 0 := fun h0 => h.accepts.1 (List.length_eq_zero_iff.mp h0)
  unfold toBytes parse
  rw [Nat.mod_eq_of_lt hlen, List.take_length]
  rw [show 15 + p.types.length = 1 + (2 + (p.types.length + (4 + 8))) by omega]
  refine (recovers_LE_of_lt (k := 1) (by decide)).bind ?_ ⟨_, rfl⟩
  rintro _ rfl
  refine Recovers.require _ (decide_eq_true rfl) ?_
  refine (recovers_LE_of_lt (k := 2) hlen).bind ?_ ⟨_, rfl⟩
  rintro _ rfl
  refine Recovers.require _ (decide_eq_true hne) ?_
  refine (recovers_types p.types).bind (fun types htypes => ?_) ⟨p.types, rfl⟩
  refine (recovers_LE_of_lt (k := 4) h.btreePageID_lt).bind ?_ ⟨_, rfl⟩
  rintro _ rfl
  refine (recovers_LE_of_lt (k := 8) h.numTuples_lt).map ?_
  rintro _ rfl
  exact ⟨rfl, htypes, rfl, rfl⟩

end Kndb.TablePage
