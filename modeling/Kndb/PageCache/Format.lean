import Kndb.BtreeNodePage.RoundTrip
import Kndb.FSMPage.Bytes
import Kndb.PageCache
import Kndb.SchemaPage.Bytes
import Kndb.Table.Columns
import Kndb.TablePage.Bytes

namespace Kndb

open Imp Imp.Prog Codec

namespace PageFormat

variable {P B : Type}

/-- Good pages can be written, and what is read back is good and related to what was written. -/
def Recovers (F : PageFormat P B) (Good : P → Prop) (Again : P → P → Prop) : Prop :=
  ∀ J p, Good p → ∃ b, F.toBytes J p = some b ∧ ∃ q, Again p q ∧ Good q ∧
    ∀ J', F.ofBytes J' (F.type p) (F.pageID p) b = some q

def RecoversAt (F : PageFormat P B) (Good : P → Prop) (Again : P → P → Prop) (p : P) : Prop :=
  ∀ J, ∃ b, F.toBytes J p = some b ∧ ∃ q, Again p q ∧ Good q ∧
    ∀ J', F.ofBytes J' (F.type p) (F.pageID p) b = some q

end PageFormat

namespace Page

def toBytes (J : Junk) : Page → Code Bytes Unit
  | schema p => p.toBytes J
  | fsm p => p.toBytes
  | table p => p.toBytes
  | node p => p.toBytes J

/-- The constructor of the class from a block. -/
def parse (J : Junk) (pageID : ℕ) : PageType → Code Bytes Page
  | .schema => do return .schema (← SchemaPage.parse J pageID)
  | .fsm => do return .fsm (← FSMPage.parse pageID)
  | .table => do return .table (← TablePage.parse pageID)
  | .node => do return .node (← BtreeNodePage.parse J pageID)

def returned {α : Type} : Outcome Exn Bytes α → Option α
  | .ok a _ => some a
  | _ => none

theorem returned_eq_some {α : Type} {o : Outcome Exn Bytes α} {a : α} :
    returned o = some a ↔ ∃ s, o = .ok a s := by
  cases o <;> simp [returned]

theorem wp_parse (J : Junk) (pageID : ℕ) (T : PageType) (s : Bytes) :
    (parse J pageID T).wp s (fun p _ => p.pageID = pageID ∧ p.type = T) (fun _ _ => True) fun _ => True := by
  cases T with
  | schema =>
    apply wp_bind.mpr
    iterate 3 refine wp_bind_of_forall fun _ _ => ?_
    exact ⟨rfl, rfl⟩
  | fsm =>
    apply wp_bind.mpr
    iterate 5 refine wp_bind_of_forall fun _ _ => ?_
    exact ⟨rfl, rfl⟩
  | table =>
    apply wp_bind.mpr
    iterate 7 refine wp_bind_of_forall fun _ _ => ?_
    exact ⟨rfl, rfl⟩
  | node =>
    apply wp_bind.mpr
    refine wp_bind_of_forall fun _ _ => ?_
    dsimp only
    split
    · exact ⟨rfl, rfl⟩
    · refine wp_bind_of_forall fun _ _ => ?_
      exact ⟨rfl, rfl⟩

/-- The pages of the database in blocks. -/
def format : PageFormat Page Block where
  pageID := pageID
  type := type
  toBytes J p := match p.toBytes J [] with
    | .ok _ out => some (fillBlock J out)
    | _ => none
  ofBytes J T pageID b := returned (parse J pageID T b)
  pageID_ofBytes h := by
    obtain ⟨s, hs⟩ := returned_eq_some.mp h
    exact ((wp_of_ok hs).mp (wp_parse ..)).1
  type_ofBytes h := by
    obtain ⟨s, hs⟩ := returned_eq_some.mp h
    exact ((wp_of_ok hs).mp (wp_parse ..)).2

/-- Nodes whose values survive and that fit in a page. -/
structure NodeSound (n : BtreeNodePage Tuple) : Prop where
  encodable : n.Encodable
  columns : ∀ c ∈ n.cells, c.value.length ≤ 255
  storable : ∀ c ∈ n.cells, c.key.Storable ∧ ∀ v ∈ c.value, v.Storable
  fits : n.bytes ≤ PG_SZ

theorem nodeSound_new {deg parentID pageID : ℕ} {is_root is_leaf : Bool} (hdeg : deg < 2 ^ 16)
    (hparent : parentID < 2 ^ 32) (h : is_leaf = true ∨ is_root = true) :
    NodeSound (.new deg parentID is_root is_leaf pageID) := by
  have hnot : ∀ {c : Cell Tuple}, c ∉ (BtreeNodePage.new deg parentID is_root is_leaf pageID).cells :=
    List.not_mem_nil
  refine ⟨⟨hdeg, hparent, Nat.two_pow_pos 32, fun c hc => absurd hc List.not_mem_nil, fun _ => rfl,
    fun _ hne => absurd rfl hne, fun hleaf _ => ⟨h.resolve_left ?_, rfl⟩, fun c hc => absurd hc hnot,
    fun c hc => absurd hc hnot⟩, fun c hc => absurd hc hnot, fun c hc => absurd hc hnot, ?_⟩
  · rw [show is_leaf = false from hleaf]
    exact Bool.false_ne_true
  · exact Nat.le_add_left ..

/-- Pages that can be written and read back. -/
def Sound : Page → Prop
  | schema p => p.Sound
  | fsm p => p.Sound
  | table p => p.Sound
  | node n => NodeSound n

/-- What is read back of a sound page. -/
def Again : Page → Page → Prop
  | fsm p, fsm q => FSMPage.Extends p q
  | table p, table q => TablePage.Same p q
  | p, q => p = q

theorem format_ofBytes {J : Junk} {T : PageType} {id : ℕ} {b : Block} {p : Page} {s : Bytes}
    (h : parse J id T b = .ok p s) : format.ofBytes J T id b = some p :=
  returned_eq_some.mpr ⟨s, h⟩

theorem format_toBytes_congr {J : Junk} {p q : Page} (h : p.toBytes J [] = q.toBytes J []) :
    format.toBytes J p = format.toBytes J q := by
  unfold format
  dsimp only
  rw [h]

theorem format_toBytes {J : Junk} {p : Page} {out : Bytes} (h : p.toBytes J [] = .ok () out) :
    format.toBytes J p = some (fillBlock J out) := by
  change (match p.toBytes J [] with
    | .ok _ out => some (fillBlock J out)
    | _ => none) = _
  rw [h]

theorem stays_toBytes (J : Junk) (p : Page) : Stays PG_SZ (p.toBytes J) := by
  cases p with
  | schema p =>
    refine (stays_putLE 1 _).bind fun _ => (stays_putLE 1 _).bind fun _ => stays_each (fun e => ?_) _
    exact (stays_putString J e.1).bind fun _ => stays_putLE 4 _
  | fsm p =>
    refine (stays_putLE 1 _).bind fun _ => (stays_putLE 4 _).bind fun _ => ?_
    exact (stays_putLE 4 _).bind fun _ => stays_write _
  | table p =>
    refine (stays_putLE 1 _).bind fun _ => (stays_putLE 2 _).bind fun _ => ?_
    refine (stays_each (fun _ => stays_putLE 1 _) _).bind fun _ => ?_
    exact (stays_putLE 4 _).bind fun _ => stays_putLE 8 _
  | node n =>
    refine (stays_require _ _).bind fun _ => (stays_require _ _).bind fun _ => (stays_require _ _).bind fun _ => ?_
    refine Stays.bind ?_ fun _ => ?_
    · refine (stays_putLE 1 _).bind fun _ => (stays_putLE 2 _).bind fun _ => (stays_putLE 4 _).bind fun _ => ?_
      exact (stays_putLE 1 _).bind fun _ => (stays_putLE 1 _).bind fun _ => stays_putLE 4 _
    · split
      · exact stays_pure ()
      · exact BtreeNodePage.stays_putCells J _ n

theorem format_length {J : Junk} {p : Page} {b : Block} (h : format.toBytes J p = some b) : b.length = PG_SZ := by
  change (match p.toBytes J [] with
    | .ok _ out => some (fillBlock J out)
    | _ => none) = _ at h
  split at h
  · rename_i out hw
    cases h
    exact fillBlock_length (stays_toBytes J p [] _ out (Nat.zero_le _) hw) J
  · cases h

/-- A sound page is read back, whatever memory held when it was written and when it is read. -/
theorem format_recovers : format.Recovers Sound Again := by
  intro J p hp
  cases p with
  | schema p =>
    have hp : p.Sound := hp
    obtain ⟨out, hw, -⟩ := hp.reread J J
    refine ⟨_, format_toBytes hw, .schema p, rfl, hp, fun J' => ?_⟩
    obtain ⟨out', hw', -, rest, hr⟩ := hp.reread J J'
    rw [hw] at hw'
    cases hw'
    exact format_ofBytes (T := .schema) (by rw [parse]; exact bind_ok hr)
  | fsm p =>
    have hp : p.Sound := hp
    -- a bitmap comes back longer, with the bytes that follow it in the block
    obtain ⟨out, hw, -, q, hr, hext, hq⟩ := hp.reread J
    refine ⟨_, format_toBytes hw, .fsm q, hext, hq, fun J' => ?_⟩
    exact format_ofBytes (T := .fsm) (by rw [parse]; exact bind_ok hr)
  | table p =>
    have hp : p.Sound := hp
    have hfits : 15 + p.types.length ≤ PG_SZ := by
      have := hp.accepts.2
      simp only [PG_SZ] at this ⊢
      omega
    obtain ⟨out, hw, -, q, rest, hsame, hr, -⟩ := recovers_block hp.recovers hfits J
    refine ⟨_, format_toBytes hw, .table q, hsame, hsame.sound hp, fun J' => ?_⟩
    exact format_ofBytes (T := .table) (by rw [parse]; exact bind_ok hr)
  | node n =>
    have hp : NodeSound n := hp
    obtain ⟨out, hw, -, hr⟩ := hp.encodable.reread hp.columns hp.storable hp.fits J
    refine ⟨_, format_toBytes hw, .node n, rfl, hp, fun J' => ?_⟩
    obtain ⟨rest, hr⟩ := hr J'
    exact format_ofBytes (T := .node) (by rw [parse]; exact bind_ok hr)

end Page
end Kndb
