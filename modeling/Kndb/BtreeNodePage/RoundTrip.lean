import Kndb.BtreeNodePage.Bytes

namespace Kndb.BtreeNodePage

open Imp.Prog Codec

theorem values_eq_of_reread {J : Junk} {value value' : Tuple}
    (h : List.Forall₂ (fun v v' : Vari => ∃ left, v' = v.reread (J.stack left)) value value')
    (hs : ∀ v ∈ value, v.Storable) : value' = value := by
  induction h with
  | nil => rfl
  | @cons v v' l l' hv _ ih =>
    obtain ⟨left, rfl⟩ := hv
    rw [(hs v (List.mem_cons_self ..)).reread, ih fun x hx => hs x (List.mem_cons_of_mem _ hx)]

theorem eq_of_rereadCell {J : Junk} {c c' : Cell Tuple} (h : RereadCell J c c') (hkey : c.key.Storable)
    (hvalue : ∀ v ∈ c.value, v.Storable) : c' = c := by
  obtain ⟨left, hk⟩ := h.key
  have hv := values_eq_of_reread h.value hvalue
  rw [hkey.reread] at hk
  cases c
  cases c'
  cases hk
  cases hv
  rfl

theorem cells_eq_of_reread {J : Junk} {cells cells' : List (Cell Tuple)}
    (h : List.Forall₂ (RereadCell J) cells cells')
    (hs : ∀ c ∈ cells, c.key.Storable ∧ ∀ v ∈ c.value, v.Storable) : cells' = cells := by
  induction h with
  | nil => rfl
  | @cons c c' l l' hc _ ih =>
    obtain ⟨hk, hv⟩ := hs c (List.mem_cons_self ..)
    rw [eq_of_rereadCell hc hk hv, ih fun x hx => hs x (List.mem_cons_of_mem _ hx)]

variable {J : Junk} {n : BtreeNodePage Tuple}

/-- A node of storable values that fits in a block comes back, whatever memory held. -/
theorem Encodable.reread (h : n.Encodable) (hcolumns : ∀ c ∈ n.cells, c.value.length ≤ 255)
    (hs : ∀ c ∈ n.cells, c.key.Storable ∧ ∀ v ∈ c.value, v.Storable) (hfits : n.bytes ≤ PG_SZ) (J : Junk) :
    ∃ out, n.toBytes J [] = .ok () out ∧ out.length ≤ PG_SZ ∧
      ∀ J', ∃ rest, parse J' n.pageID (fillBlock J out) = .ok n rest := by
  obtain ⟨out, hw, hlen, -⟩ := recovers_block (h.recovers J J hcolumns) hfits J
  refine ⟨out, hw, hlen ▸ hfits, fun J' => ?_⟩
  obtain ⟨out', hw', -, n', rest, hre, hr, -⟩ := recovers_block (h.recovers J J' hcolumns) hfits J
  obtain rfl : out = out' := by
    rw [hw] at hw'
    cases hw'
    rfl
  have heq : n' = n := by
    rw [hre.eq, cells_eq_of_reread hre.cells hs]
  exact ⟨rest, heq ▸ hr⟩

/-- What the types of the members say and the class comment takes for granted of a node; an inner
node has no cells only as the root, which then has no children either. -/
structure WellFormed (n : BtreeNodePage Tuple) : Prop where
  degree_lt : n.degree < 2 ^ 16
  parentID_lt : n.parentID < 2 ^ 32
  children_lt : ∀ c ∈ n.children, c < 2 ^ 32
  leaf : n.leaf = true → n.children = []
  inner : n.leaf = false → n.cells ≠ [] ∧ n.children.length = n.cells.length + 1 ∨
    n.root = true ∧ n.cells = [] ∧ n.children = []
  keys : ∀ c ∈ n.cells, ∀ c' ∈ n.cells, variant_to_type_id c.key = variant_to_type_id c'.key
  values : ∀ c ∈ n.cells, ∀ c' ∈ n.cells, sameTypes c.value c'.value = true
  columns : ∀ c ∈ n.cells, c.value.length ≤ 255
  storable : ∀ c ∈ n.cells, c.key.Storable ∧ ∀ v ∈ c.value, v.Storable
  fits : n.bytes ≤ PG_SZ

theorem cellBytes_pos (c : Cell Tuple) : 0 < cellBytes c := by
  have hkey : 0 < db_sizeof c.key := by cases c.key <;> exact Nat.succ_pos _
  exact Nat.add_pos_left hkey _

theorem numCells_le_bytes (n : BtreeNodePage Tuple) : n.cells.length ≤ n.bytes := by
  have hsum : n.cells.length ≤ (n.cells.map cellBytes).sum := by
    have h := List.length_le_sum_of_one_le (n.cells.map cellBytes) fun k hk => by
      obtain ⟨c, -, rfl⟩ := List.mem_map.mp hk
      exact cellBytes_pos c
    rwa [List.length_map] at h
  unfold bytes
  split
  · next hcells => simp [hcells]
  · rw [cellsBytes]
    omega

theorem WellFormed.encodable (h : n.WellFormed) : n.Encodable where
  degree_lt := h.degree_lt
  parentID_lt := h.parentID_lt
  numCells_lt := (n.numCells_le_bytes.trans h.fits).trans_lt (by decide)
  children_lt := h.children_lt
  leaf := h.leaf
  inner := fun hleaf hne => by
    rcases h.inner hleaf with ⟨-, hlen⟩ | ⟨-, hnil, -⟩
    · exact hlen
    · exact absurd hnil hne
  empty := fun hleaf hnil => by
    rcases h.inner hleaf with ⟨hne, -⟩ | ⟨hroot, -, hchildren⟩
    · exact absurd hnil hne
    · exact ⟨hroot, hchildren⟩
  keys := h.keys
  values := h.values

/-- The constructor undoes `toBytes`, whatever the buffer held before and whatever stands behind the
character array that strings are read to. -/
theorem roundTrip_of_wellFormed (h : n.WellFormed) (J J' : Junk) :
    ∃ out, n.toBytes J [] = .ok () out ∧ out.length ≤ PG_SZ ∧
      ∃ rest, parse J' n.pageID (fillBlock J out) = .ok n rest := by
  obtain ⟨out, hw, hlen, hr⟩ := h.encodable.reread h.columns h.storable h.fits J
  exact ⟨out, hw, hlen, hr J'⟩

def twoCells : BtreeNodePage Tuple :=
  { pageID := 9, degree := 2, parentID := 5, leaf := false, root := false, children := [6, 7, 8],
    cells := [⟨.int 3, [.int 3, .string [65, 66]]⟩, ⟨.int 4, [.int 4, .string []]⟩] }

theorem roundTrip_twoCells : ∃ out, twoCells.toBytes ⟨fun _ => 1, fun _ => []⟩ [] = .ok () out ∧
    out.length ≤ PG_SZ ∧ ∃ rest, parse ⟨fun _ => 2, fun _ => [7]⟩ twoCells.pageID
      (fillBlock ⟨fun _ => 1, fun _ => []⟩ out) = .ok twoCells rest :=
  roundTrip_of_wellFormed ⟨by decide, by decide, by decide, by decide, by decide, by decide, by decide,
    by decide, by decide, by decide⟩ _ _

def oneChild : BtreeNodePage Tuple :=
  { pageID := 9, degree := 2, parentID := 5, leaf := false, root := true, children := [6], cells := [] }

def nothing : BtreeNodePage Tuple := oneChild.setChildren [] |>.setRoot false

/-- Without cells nothing is written after the header. -/
theorem reread_oneChild (J J' : Junk) : ∃ out, oneChild.toBytes J [] = .ok () out ∧
    ∃ rest, parse J' oneChild.pageID (fillBlock J out) = .ok (oneChild.setChildren []) rest := by
  have henc : (oneChild.setChildren []).Encodable := ⟨by decide, by decide, by decide, by decide, by decide,
    by decide, by decide, by decide, by decide⟩
  obtain ⟨out, hw, -, hr⟩ := henc.reread (by decide) (by decide) (by decide) J
  exact ⟨out, hw, hr J'⟩

/-- A root with a child more than cells loses it, and an inner node with neither is refused. -/
theorem roundTrip_counterexample :
    (oneChild.children.length = oneChild.cells.length + 1 ∧ ∃ out,
      oneChild.toBytes ⟨fun _ => 0, fun _ => []⟩ [] = .ok () out ∧
        ¬∃ rest, parse ⟨fun _ => 0, fun _ => []⟩ oneChild.pageID
          (fillBlock ⟨fun _ => 0, fun _ => []⟩ out) = .ok oneChild rest) ∧
    nothing.children = [] ∧ nothing.cells = [] ∧
      ¬∃ out, nothing.toBytes ⟨fun _ => 0, fun _ => []⟩ [] = .ok () out := by
  refine ⟨⟨rfl, ?_⟩, rfl, rfl, fun ⟨out, hw⟩ => by cases hw⟩
  obtain ⟨out, hw, rest, hr⟩ := reread_oneChild ⟨fun _ => 0, fun _ => []⟩ ⟨fun _ => 0, fun _ => []⟩
  refine ⟨out, hw, fun ⟨rest', hr'⟩ => ?_⟩
  rw [hr] at hr'
  cases hr'

end Kndb.BtreeNodePage
