import Kndb.TablePage.Load

namespace Kndb.TablePage

open Imp.Prog Codec

/-- The pages that calls which passed their checks have made of `p₀`. -/
inductive Run (p₀ : TablePage) : TablePage → Prop
  | new : Run p₀ p₀
  | added {p : TablePage} (h : Run p₀ p) : Run p₀ p.addTuple
  | removed {p p' : TablePage} (h : Run p₀ p) (hr : removeTuple p = .ok () p') : Run p₀ p'
  | moved {p : TablePage} {id : ℕ} (h : Run p₀ p) (hid : id < 2 ^ 32) : Run p₀ (p.setBtreePageID id)

variable {p p' p₀ : TablePage} {types : Tuple} {id pageID : ℕ}

theorem ok_of_removeTuple (h : removeTuple p = .ok () p') :
    0 < p.numTuples ∧ p' = { p with numTuples := p.numTuples - 1 } := by
  change (require (0 < p.numTuples) _ >>= fun _ => _) p = _ at h
  obtain ⟨hpos, h⟩ := ok_of_require h
  cases h
  exact ⟨of_decide_eq_true hpos, rfl⟩

/-- A count is a `u64`, and the types stay. -/
theorem Run.sound (h : Run p₀ p) (h₀ : p₀.Sound) : p.Sound := by
  induction h with
  | new => exact h₀
  | added _ ih => exact ⟨ih.accepts, ih.btreePageID_lt, Nat.mod_lt _ (Nat.two_pow_pos 64)⟩
  | removed _ hr ih =>
    obtain ⟨-, rfl⟩ := ok_of_removeTuple hr
    exact ⟨ih.accepts, ih.btreePageID_lt, (Nat.sub_le ..).trans_lt ih.numTuples_lt⟩
  | moved _ hid ih => exact ⟨ih.accepts, hid, ih.numTuples_lt⟩

/-- The same page, but for the values that stand for the types. -/
structure SameColumns (p q : TablePage) : Prop where
  pageID : q.pageID = p.pageID
  types : q.types.map Vari.index = p.types.map Vari.index
  btreePageID : q.btreePageID = p.btreePageID
  numTuples : q.numTuples = p.numTuples

theorem map_type_id_eq_iff {l l' : Tuple} :
    l.map variant_to_type_id = l'.map variant_to_type_id ↔ l.map Vari.index = l'.map Vari.index := by
  induction l generalizing l' with
  | nil => cases l' <;> simp
  | cons v l ih =>
    cases l' with
    | nil => simp
    | cons v' l' =>
      rw [List.map_cons, List.map_cons, List.cons.injEq, List.map_cons, List.map_cons, List.cons.injEq,
        type_id_eq_iff, ih]

theorem Sound.reread (h : p.Sound) (J : Junk) (outside : Memory) : ∃ out, p.toBytes [] = .ok () out ∧
    out.length ≤ PG_SZ ∧ ∃ q c, load p.pageID (memory (fillBlock J out) outside) .start = .ok q c ∧
      SameColumns p q := by
  have hfits : 15 + p.types.length ≤ PG_SZ := (Nat.add_le_add_left h.accepts.2 15).trans (by decide)
  obtain ⟨out, hw, hlen, q, rest, hsame, hr, -⟩ := recovers_block h.recovers hfits J
  have hout : out.length ≤ PG_SZ := hlen ▸ hfits
  obtain ⟨c, hload, -⟩ := ((agrees_load (fillBlock_length hout J) p.pageID outside).ok_iff q).mpr ⟨rest, hr⟩
  exact ⟨out, hw, hout, q, c, hload, hsame.pageID, map_type_id_eq_iff.mp hsame.types, hsame.btreePageID,
    hsame.numTuples⟩

/-- A page with 1 to 3996 columns is made, and whatever calls have made of it, it takes at most one block,
and the constructor gives it back from there, whatever stood in the buffer and stands behind it. -/
theorem rereads_of_calls (hmin : 1 ≤ types.length) (hmax : types.length ≤ 3996) (hid : id < 2 ^ 32) :
    ∃ p₀, new types id pageID () = .ok p₀ () ∧ p₀.types = types ∧ ∀ p, Run p₀ p → ∀ (J : Junk) (outside : Memory),
      ∃ out, p.toBytes [] = .ok () out ∧ out.length ≤ PG_SZ ∧
        ∃ q c, load p.pageID (memory (fillBlock J out) outside) .start = .ok q c ∧ SameColumns p q := by
  have hacc : Accepts types := ⟨List.ne_nil_of_length_pos hmin, hmax⟩
  refine ⟨_, new_of_accepts hacc id pageID (), rfl, fun p h J outside => Sound.reread (h.sound ?_) J outside⟩
  exact ⟨hacc, hid, Nat.two_pow_pos 64⟩

theorem rereads_of_calls_two : ∃ p₀, new [.int 0, .string []] 5 1 () = .ok p₀ () ∧
    p₀.types = [.int 0, .string []] ∧ ∀ p, Run p₀ p → ∀ (J : Junk) (outside : Memory),
      ∃ out, p.toBytes [] = .ok () out ∧ out.length ≤ PG_SZ ∧
        ∃ q c, load p.pageID (memory (fillBlock J out) outside) .start = .ok q c ∧ SameColumns p q :=
  rereads_of_calls (by decide) (by decide) (by decide)

end Kndb.TablePage
