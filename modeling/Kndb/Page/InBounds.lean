import Kndb.BtreeNodePage.Load
import Kndb.SchemaPage.Load
import Kndb.TablePage.Load

namespace Kndb

open Imp.Prog Codec

variable {b : Block}

/-- Where a constructor stays in the block, it makes the same page as the one that stops at the end. -/
theorem load_iff_parse (hb : b.length = PG_SZ) (J : Junk) (pageID : ℕ) (outside : Memory) :
    (∀ p, (∃ c, SchemaPage.load J pageID (memory b outside) .start = .ok p c ∧ c.Inside PG_SZ) ↔
      ∃ rest, SchemaPage.parse J pageID b = .ok p rest) ∧
    (∀ p, (∃ c, TablePage.load pageID (memory b outside) .start = .ok p c ∧ c.Inside PG_SZ) ↔
      ∃ rest, TablePage.parse pageID b = .ok p rest) ∧
    ∀ n, (∃ c, BtreeNodePage.load J pageID (memory b outside) .start = .ok n c ∧ c.Inside PG_SZ) ↔
      ∃ rest, BtreeNodePage.parse J pageID b = .ok n rest := by
  rw [← hb]
  exact ⟨(SchemaPage.agrees_load hb J pageID outside).ok_iff, (TablePage.agrees_load hb pageID outside).ok_iff,
    (BtreeNodePage.agrees_load hb J pageID outside).ok_iff⟩

def twoColumns : Block := [3, 2, 0, 2, 2] ++ List.replicate 4091 7

theorem length_twoColumns : twoColumns.length = PG_SZ := by
  rw [twoColumns, List.length_append, List.length_replicate, PG_SZ]
  rfl

/-- A table page with two columns. -/
theorem load_iff_parse_twoColumns : ∃ p, (∃ rest, TablePage.parse 0 twoColumns = .ok p rest) ∧
    p.types = [.int 0, .int 0] ∧
    ∃ c, TablePage.load 0 (memory twoColumns fun _ => 0) .start = .ok p c ∧ c.Inside PG_SZ := by
  obtain ⟨-, htable, -⟩ := load_iff_parse length_twoColumns ⟨fun _ => 0, fun _ => []⟩ 0 fun _ => 0
  have hvalue : (TablePage.parse 0 twoColumns).value? =
      some ⟨0, [.int 0, .int 0], 0x07070707, 0x0707070707070707⟩ := by
    decide +kernel
  have hparse := Imp.Outcome.eq_ok hvalue []
  exact ⟨_, ⟨_, hparse⟩, rfl, (htable _).mpr ⟨_, hparse⟩⟩

/-- A schema page is never read past its end; a table page or a node exactly if what it announces
makes the offset come round. -/
theorem inBounds_iff (hb : b.length = PG_SZ) (J : Junk) (pageID : ℕ) :
    InBounds (SchemaPage.load J pageID) b ∧
    (InBounds (TablePage.load pageID) b ↔ ¬TablePage.Wraps b) ∧
    (InBounds (BtreeNodePage.load J pageID) b ↔ ¬BtreeNodePage.Wraps b) :=
  ⟨SchemaPage.inBounds_load hb J pageID, TablePage.inBounds_load_iff hb pageID,
    BtreeNodePage.inBounds_load_iff hb J pageID⟩

def wideTable : Block := 3 :: 0xF1 :: 0xFF :: List.replicate 4093 2

def longLeaf : Block := [4, 2, 0, 0, 0, 0, 0, 1, 1, 0xF1, 0xFF, 0, 0, 1, 0] ++ List.replicate 4081 0

theorem wraps_wideTable : TablePage.Wraps wideTable := by
  refine ⟨rfl, ⟨?_, ?_⟩, fun x hx => ?_⟩
  · decide
  · decide
  · rw [List.eq_of_mem_replicate hx]
    rfl

theorem wraps_longLeaf : BtreeNodePage.Wraps longLeaf := by
  refine ⟨rfl, .char 0, [], ⟨rfl, rfl⟩, ?_, ?_⟩ <;> decide

theorem length_wideTable : wideTable.length = PG_SZ := by
  rw [wideTable, List.length_cons, List.length_cons, List.length_cons, List.length_replicate, PG_SZ]

theorem length_longLeaf : longLeaf.length = PG_SZ := by
  rw [longLeaf, List.length_append, List.length_replicate, PG_SZ]
  rfl

/-- Two columns are read within the block, but not 65521 of them, nor 65521 cells. -/
theorem inBounds_iff_tables : InBounds (SchemaPage.load ⟨fun _ => 0, fun _ => []⟩ 0) twoColumns ∧
    InBounds (TablePage.load 0) twoColumns ∧ InBounds (BtreeNodePage.load ⟨fun _ => 0, fun _ => []⟩ 0) twoColumns ∧
    ¬InBounds (TablePage.load 0) wideTable ∧ InBounds (BtreeNodePage.load ⟨fun _ => 0, fun _ => []⟩ 0) wideTable ∧
    InBounds (TablePage.load 0) longLeaf ∧ ¬InBounds (BtreeNodePage.load ⟨fun _ => 0, fun _ => []⟩ 0) longLeaf := by
  obtain ⟨hschema, htable, hnode⟩ := inBounds_iff length_twoColumns ⟨fun _ => 0, fun _ => []⟩ 0
  obtain ⟨-, htable', hnode'⟩ := inBounds_iff length_wideTable ⟨fun _ => 0, fun _ => []⟩ 0
  obtain ⟨-, htable'', hnode''⟩ := inBounds_iff length_longLeaf ⟨fun _ => 0, fun _ => []⟩ 0
  refine ⟨hschema, htable.mpr fun h => ?_, hnode.mpr fun h => ?_, fun h => htable'.mp h wraps_wideTable,
    hnode'.mpr fun h => ?_, htable''.mpr fun h => ?_, fun h => hnode''.mp h wraps_longLeaf⟩
  · exact absurd h.count.1 (by decide)
  · exact absurd h.1 (by decide)
  · exact absurd h.1 (by decide)
  · exact absurd h.type (by decide)

theorem inBounds_counterexample : (wideTable.length = PG_SZ ∧ ¬InBounds (TablePage.load 0) wideTable) ∧
    longLeaf.length = PG_SZ ∧ ¬InBounds (BtreeNodePage.load ⟨fun _ => 0, fun _ => []⟩ 0) longLeaf := by
  refine ⟨⟨length_wideTable, ?_⟩, length_longLeaf, ?_⟩
  · rw [TablePage.inBounds_load_iff length_wideTable, not_not]
    exact wraps_wideTable
  · rw [BtreeNodePage.inBounds_load_iff length_longLeaf, not_not]
    exact wraps_longLeaf

end Kndb
