import Kndb.BtreeNodePage.RoundTrip
import Kndb.TablePage

namespace Kndb

open Imp.Prog BtreeNodePage Codec

structure HoldsOnly (n : BtreeNodePage Tuple) (key : Vari) (columns : Tuple) : Prop where
  leaf : n.leaf = true
  children : n.children = []
  cells : n.cells = [⟨key, key :: columns⟩]
  degree_lt : n.degree < 2 ^ 16
  parentID_lt : n.parentID < 2 ^ 32

/-- Every row of these types can be written in a leaf of its own and read back. -/
def LeafSurvives (types : Tuple) : Prop :=
  ∀ n key columns, HoldsOnly n key columns → sameTypes (key :: columns) types = true →
    (∀ v ∈ key :: columns, v.Storable) → ∀ J, ∃ out, n.toBytes J [] = .ok () out ∧
      out.length ≤ PG_SZ ∧ ∀ J', ∃ n' rest, parse J' n.pageID (fillBlock J out) = .ok n' rest ∧
        n'.cells = n.cells

/-- The bytes of a leaf with one row: header, types, key and values. -/
def leafBytes : Tuple → ℕ
  | [] => 13
  | key :: columns => 15 + (key :: columns).length + (db_sizeof key + ((key :: columns).map db_sizeof).sum)

namespace HoldsOnly

variable {n : BtreeNodePage Tuple} {key : Vari} {columns types : Tuple}

theorem encodable (h : HoldsOnly n key columns) : n.Encodable where
  degree_lt := h.degree_lt
  parentID_lt := h.parentID_lt
  numCells_lt := by
    rw [h.cells]
    exact Nat.one_lt_two_pow (by decide)
  children_lt := by
    rw [h.children]
    exact fun c hc => absurd hc List.not_mem_nil
  leaf _ := h.children
  inner hleaf := by
    rw [h.leaf] at hleaf
    cases hleaf
  empty hleaf := by
    rw [h.leaf] at hleaf
    cases hleaf
  keys := by
    rw [h.cells]
    rintro c hc c' hc'
    rw [List.mem_singleton.mp hc, List.mem_singleton.mp hc']
  values := by
    rw [h.cells]
    rintro c hc c' hc'
    rw [List.mem_singleton.mp hc, List.mem_singleton.mp hc']
    exact sameTypes_iff.mpr rfl

theorem bytes_eq (h : HoldsOnly n key columns) : n.bytes = leafBytes (key :: columns) := by
  rw [bytes, h.cells]
  simp only [cellsBytes, h.leaf, h.cells, if_true, cellBytes, List.map_cons, List.map_nil,
    List.sum_cons, List.sum_nil, leafBytes]
  omega

end HoldsOnly

theorem leafBytes_congr {a b : Tuple} (h : sameTypes a b = true) : leafBytes a = leafBytes b := by
  have hsize := map_db_sizeof_congr h
  have hlen : a.length = b.length := by simpa using congrArg List.length hsize
  cases a with
  | nil =>
    obtain rfl : b = [] := List.length_eq_zero_iff.mp hlen.symm
    rfl
  | cons x a =>
    obtain _ | ⟨y, b⟩ := b
    · cases hlen
    · have hxy : db_sizeof x = db_sizeof y := (List.cons.inj hsize).1
      rw [leafBytes, leafBytes, hlen, hsize, hxy]

theorem leafSurvives_of_fits {types : Tuple} (hlen : types.length ≤ 255) (hfits : leafBytes types ≤ PG_SZ) :
    LeafSurvives types := by
  intro n key columns hn htypes hstorable J
  have hlen' : (key :: columns).length ≤ 255 := by
    have : (key :: columns).length = types.length := by
      simpa using congrArg List.length (sameTypes_iff.mp htypes)
    omega
  have hbytes : n.bytes ≤ PG_SZ := by rwa [hn.bytes_eq, leafBytes_congr htypes]
  have hcolumns : ∀ c ∈ n.cells, c.value.length ≤ 255 := by
    rw [hn.cells]
    rintro c hc
    rw [List.mem_singleton.mp hc]
    exact hlen'
  have hs : ∀ c ∈ n.cells, c.key.Storable ∧ ∀ v ∈ c.value, v.Storable := by
    rw [hn.cells]
    rintro c hc
    rw [List.mem_singleton.mp hc]
    exact ⟨hstorable _ (List.mem_cons_self ..), hstorable⟩
  obtain ⟨out, hw, hout, hr⟩ := hn.encodable.reread hcolumns hs hbytes J
  refine ⟨out, hw, hout, fun J' => ?_⟩
  obtain ⟨rest, hr⟩ := hr J'
  exact ⟨n, rest, hr, rfl⟩

def Vari.blank : Vari → Vari
  | .int _ => .int 0
  | .char _ => .char 0
  | .bool _ => .bool false
  | .float _ => .float 0
  | .double _ => .double 0
  | .string _ => .string []

theorem Vari.blank_type_id (v : Vari) : variant_to_type_id v.blank = variant_to_type_id v := by
  cases v <;> rfl

theorem Vari.blank_storable (v : Vari) : v.blank.Storable := by
  cases v with
  | string s => exact ⟨Nat.zero_le _, List.not_mem_nil⟩
  | _ => trivial

theorem fits_of_leafSurvives {types : Tuple} (hne : types ≠ []) (h : LeafSurvives types) :
    types.length ≤ 255 ∧ leafBytes types ≤ PG_SZ := by
  obtain ⟨t, ts, rfl⟩ := List.exists_cons_of_ne_nil hne
  have hblank : sameTypes (t.blank :: ts.map Vari.blank) (t :: ts) = true := by
    rw [sameTypes_iff, ← List.map_cons (f := Vari.blank), List.map_map]
    exact List.map_congr_left fun v _ => v.blank_type_id
  let J : Junk := ⟨fun _ => 0, fun _ => []⟩
  let n : BtreeNodePage Tuple := ⟨0, 2, 0, true, true, [], [⟨t.blank, t.blank :: ts.map Vari.blank⟩]⟩
  have hn : HoldsOnly n t.blank (ts.map Vari.blank) := ⟨rfl, rfl, rfl, by simp [n], by simp [n]⟩
  obtain ⟨out, hw, hout, hread⟩ := h n _ _ hn hblank (fun v hv => by
    rw [← List.map_cons (f := Vari.blank)] at hv
    obtain ⟨u, -, rfl⟩ := List.mem_map.mp hv
    exact u.blank_storable) J
  have hlen : (t :: ts).length ≤ 255 := by
    obtain ⟨n', rest, hr, hcells⟩ := hread J
    obtain ⟨-, -, hwidth⟩ := hn.encodable.length_of_parse hn.cells hw hr
    have := hwidth ⟨t.blank, t.blank :: ts.map Vari.blank⟩ (by rw [hcells]; exact List.mem_cons_self ..)
    simp only [List.length_cons, List.length_map] at this ⊢
    omega
  refine ⟨hlen, ?_⟩
  -- were the leaf too large for a block, writing it would have failed
  by_contra hbig
  have hrec := hn.encodable.recovers J J (by
    rintro c hc
    rw [List.mem_singleton.mp hc]
    simpa using hlen)
  obtain ⟨m, hm⟩ := hrec.overflows [] (Nat.zero_le _) (by
    rw [List.length_nil, Nat.zero_add, hn.bytes_eq, leafBytes_congr hblank]
    omega)
  rw [hw] at hm
  cases hm

/-- The column lists whose rows survive are those of at most 255 columns whose row fits in a page. -/
theorem leafSurvives_iff {types : Tuple} (h : TablePage.Accepts types) :
    LeafSurvives types ↔ types.length ≤ 255 ∧ leafBytes types ≤ PG_SZ :=
  ⟨fits_of_leafSurvives h.1, fun hfits => leafSurvives_of_fits hfits.1 hfits.2⟩

theorem leafSurvives_iff_char : LeafSurvives [.char 0, .string []] ↔
    [Vari.char 0, Vari.string []].length ≤ 255 ∧ leafBytes [.char 0, .string []] ≤ PG_SZ :=
  leafSurvives_iff ⟨by simp, by decide⟩

/-- A row of 256 characters is read back without its values, and one of 32 strings does not fit. -/
theorem leafSurvives_counterexample :
    TablePage.Accepts (List.replicate 256 (.char 0)) ∧ ¬LeafSurvives (List.replicate 256 (.char 0)) ∧
      TablePage.Accepts (List.replicate 32 (.string [])) ∧
        ¬LeafSurvives (List.replicate 32 (.string [])) := by
  have haccepts : ∀ {k : ℕ} {v : Vari}, 0 < k → k ≤ 3996 → TablePage.Accepts (List.replicate k v) := by
    intro k v hpos hle
    refine ⟨List.ne_nil_of_length_pos ?_, ?_⟩
    · rwa [List.length_replicate]
    · rwa [List.length_replicate]
  refine ⟨haccepts (by decide) (by decide), fun h => ?_, haccepts (by decide) (by decide), fun h => ?_⟩
  · have := (fits_of_leafSurvives (haccepts (by decide) (by decide)).1 h).1
    rw [List.length_replicate] at this
    omega
  · have := (fits_of_leafSurvives (haccepts (by decide) (by decide)).1 h).2
    revert this
    decide

end Kndb
