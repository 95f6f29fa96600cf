import Kndb.BtreeNodePage
import Kndb.Bytes

namespace Kndb.BtreeNodePage

open Imp.Prog Codec

/-- One round of the loop that writes the cells; the other cells have as many values as the first. -/
def putCell (J : Junk) (numValues : ℕ) (cell : Cell Tuple) : Code Bytes Unit := do
  db_serialize J cell.key
  require (numValues ≤ cell.value.length) "index out of range"
  writeEach (db_serialize J) (cell.value.take numValues)

/-- What is written of a node that has cells, the first of which is `first`. -/
def putCells (J : Junk) (first : Cell Tuple) (n : BtreeNodePage Tuple) : Code Bytes Unit := do
  putLE 1 (variant_to_type_id first.key)
  putLE 1 first.value.length
  writeEach (fun v => putLE 1 (variant_to_type_id v)) first.value
  writeEach (putCell J first.value.length) n.cells
  if !n.leaf then
    require (n.cells.length + 1 ≤ n.children.length) "index out of range"
    writeEach (putLE 4) (n.children.take (n.cells.length + 1))

def putHeader (n : BtreeNodePage Tuple) : Code Bytes Unit := do
  putLE 1 4
  putLE 2 n.degree
  putLE 4 n.parentID
  putLE 1 n.leaf.toNat
  putLE 1 n.root.toNat
  putLE 4 n.cells.length

def toBytes (J : Junk) (n : BtreeNodePage Tuple) : Code Bytes Unit := do
  require (!n.leaf || n.children.isEmpty) "Leaf node should have no children"
  require (!(!n.leaf && n.root) || n.cells.isEmpty || n.children.length == n.cells.length + 1)
    "Root node has incorrect number of cells"
  require (!(!n.leaf && !n.root) || (n.children.length == n.cells.length + 1 && !n.cells.isEmpty))
    "Intermediate node has incorrect number of cells, or is empty (intermediate nodes cannot be empty)"
  putHeader n
  match n.cells with
  | [] => return ()
  | first :: _ => putCells J first n

def getCell (J : Junk) (key : Vari) (types : Tuple) : Code Bytes (Cell Tuple) := do
  let k ← db_deserialize J key
  let value ← readEach (types.map (db_deserialize J))
  return { key := k, value }

/-- The cells and the children of a node that has cells. -/
def getCells (J : Junk) (numCells : ℕ) (leaf : Bool) : Code Bytes (List (Cell Tuple) × List ℕ) := do
  let key ← getType
  let numTypes ← getLE 1
  let types ← readEach (List.replicate numTypes getType)
  let cells ← readEach (List.replicate numCells (getCell J key types))
  if !leaf then
    let children ← readEach (List.replicate (numCells + 1) (getLE 4))
    return (cells, children)
  else
    return (cells, [])

structure Header where
  degree : ℕ
  parentID : ℕ
  leaf : Bool
  root : Bool
  numCells : ℕ

def getHeader : Code Bytes Header := do
  require ((← getLE 1) = 4) "Page_type_id is incorrect type"
  let degree ← getLE 2
  let parentID ← getLE 4
  let leaf ← getLE 1
  let root ← getLE 1
  let numCells ← getLE 4
  return { degree, parentID, leaf := leaf ≠ 0, root := root ≠ 0, numCells }

/-- The constructor from a block. -/
def parse (J : Junk) (pageID : ℕ) : Code Bytes (BtreeNodePage Tuple) := do
  let h ← getHeader
  let node := fun children cells => BtreeNodePage.mk pageID h.degree h.parentID h.leaf h.root children cells
  if h.numCells = 0 then
    return node [] []
  else
    let r ← getCells J h.numCells h.leaf
    return node r.2 r.1

def cellBytes (c : Cell Tuple) : ℕ := db_sizeof c.key + (c.value.map db_sizeof).sum

def cellsBytes (first : Cell Tuple) (n : BtreeNodePage Tuple) : ℕ :=
  2 + first.value.length + (n.cells.map cellBytes).sum +
    if n.leaf then 0 else 4 * (n.cells.length + 1)

/-- The number of bytes that `toBytes` needs. -/
def bytes (n : BtreeNodePage Tuple) : ℕ :=
  13 + match n.cells with
    | [] => 0
    | first :: _ => cellsBytes first n

/-- What the format takes for granted of a node, apart from the number of columns. -/
structure Encodable (n : BtreeNodePage Tuple) : Prop where
  degree_lt : n.degree < 2 ^ 16
  parentID_lt : n.parentID < 2 ^ 32
  numCells_lt : n.cells.length < 2 ^ 32
  children_lt : ∀ c ∈ n.children, c < 2 ^ 32
  leaf : n.leaf = true → n.children = []
  inner : n.leaf = false → n.cells ≠ [] → n.children.length = n.cells.length + 1
  empty : n.leaf = false → n.cells = [] → n.root = true ∧ n.children = []
  keys : ∀ c ∈ n.cells, ∀ c' ∈ n.cells, variant_to_type_id c.key = variant_to_type_id c'.key
  values : ∀ c ∈ n.cells, ∀ c' ∈ n.cells, sameTypes c.value c'.value = true

/-- `c'` is what the constructor makes of `c`. -/
structure RereadCell (J : Junk) (c c' : Cell Tuple) : Prop where
  key : ∃ left, c'.key = c.key.reread (J.stack left)
  value : List.Forall₂ (fun v v' : Vari => ∃ left, v' = v.reread (J.stack left)) c.value c'.value

/-- `n'` is what the constructor makes of `n`. -/
structure Reread (J : Junk) (n n' : BtreeNodePage Tuple) : Prop where
  eq : n' = { n with cells := n'.cells }
  cells : List.Forall₂ (RereadCell J) n.cells n'.cells

variable {J J' : Junk} {n : BtreeNodePage Tuple} {first : Cell Tuple} {rest : List (Cell Tuple)}

theorem recovers_bool (b : Bool) : Recovers PG_SZ (putLE 1 b.toNat) (getLE 1) (· = b.toNat) 1 :=
  recovers_LE_of_lt (by cases b <;> decide)

theorem toNat_ne_zero (b : Bool) : decide (b.toNat ≠ 0) = b := by cases b <;> rfl

theorem Encodable.recovers_header (h : n.Encodable) : Recovers PG_SZ n.putHeader getHeader
    (· = ⟨n.degree, n.parentID, n.leaf, n.root, n.cells.length⟩) 13 := by
  unfold putHeader getHeader
  rw [show 13 = 1 + (2 + (4 + (1 + (1 + 4)))) by rfl]
  refine (recovers_LE_of_lt (k := 1) (by decide)).bind ?_ ⟨_, rfl⟩
  rintro _ rfl
  refine Recovers.require _ (decide_eq_true rfl) ?_
  refine (recovers_LE_of_lt (k := 2) h.degree_lt).bind ?_ ⟨_, rfl⟩
  rintro _ rfl
  refine (recovers_LE_of_lt (k := 4) h.parentID_lt).bind ?_ ⟨_, rfl⟩
  rintro _ rfl
  refine (recovers_bool n.leaf).bind ?_ ⟨_, rfl⟩
  rintro _ rfl
  refine (recovers_bool n.root).bind ?_ ⟨_, rfl⟩
  rintro _ rfl
  refine (recovers_LE_of_lt (k := 4) h.numCells_lt).map ?_
  rintro _ rfl
  rw [toNat_ne_zero, toNat_ne_zero]

theorem recovers_values {types value : Tuple}
    (h : types.map variant_to_type_id = value.map variant_to_type_id) :
    Recovers PG_SZ (writeEach (db_serialize J) value) (readEach (types.map (db_deserialize J')))
      (List.Forall₂ (fun v v' : Vari => ∃ left, v' = v.reread (J'.stack left)) value)
      (value.map db_sizeof).sum := by
  induction value generalizing types with
  | nil =>
    obtain rfl : types = [] := by simpa using h
    exact recovers_pure .nil
  | cons v value ih =>
    obtain _ | ⟨type, types⟩ := types
    · simp at h
    rw [List.map_cons, List.map_cons, List.cons.injEq] at h
    rw [List.map_cons, List.map_cons, List.sum_cons]
    refine (recovers_value J J' h.1).bind (fun v' hv => ?_) ⟨_, 0, rfl⟩
    exact (ih h.2).map fun vs hvs => .cons hv hvs

theorem exists_rereadCell (c : Cell Tuple) : ∃ c', RereadCell J c c' := by
  refine ⟨⟨c.key.reread (J.stack 0), c.value.map (·.reread (J.stack 0))⟩, ⟨0, rfl⟩, ?_⟩
  rw [List.forall₂_map_right_iff, List.forall₂_same]
  exact fun v _ => ⟨0, rfl⟩

theorem recovers_cell {c : Cell Tuple} {key : Vari} {types : Tuple}
    (hkey : variant_to_type_id key = variant_to_type_id c.key)
    (htypes : types.map variant_to_type_id = c.value.map variant_to_type_id) :
    Recovers PG_SZ (putCell J c.value.length c) (getCell J' key types) (RereadCell J' c)
      (cellBytes c) := by
  refine (recovers_value J J' hkey).bind (fun k hk => ?_) ⟨_, 0, rfl⟩
  refine Recovers.checked _ (decide_eq_true le_rfl) ?_
  rw [List.take_length]
  exact (recovers_values htypes).map fun vs hvs => ⟨hk, hvs⟩

theorem Encodable.length_eq (h : n.Encodable) {c c' : Cell Tuple} (hc : c ∈ n.cells)
    (hc' : c' ∈ n.cells) : c.value.length = c'.value.length := by
  simpa using congrArg List.length (sameTypes_iff.mp (h.values c hc c' hc'))

theorem Encodable.recovers_children (h : n.Encodable) (hne : n.cells ≠ []) (cells : List (Cell Tuple)) :
    Recovers PG_SZ (if (!n.leaf) = true then do
        require (n.cells.length + 1 ≤ n.children.length) "index out of range"
        writeEach (putLE 4) (n.children.take (n.cells.length + 1))
      else pure ())
      (if (!n.leaf) = true then do
        let children ← readEach (List.replicate (n.cells.length + 1) (getLE 4))
        return (cells, children)
      else return (cells, [])) (· = (cells, n.children))
      (if n.leaf then 0 else 4 * (n.cells.length + 1)) := by
  cases hleaf : n.leaf with
  | true => exact recovers_pure (by rw [h.leaf hleaf])
  | false =>
    have hlen := h.inner hleaf hne
    have hsum : (n.children.map fun _ => 4).sum = 4 * n.children.length := by simp [mul_comm]
    have heach := recovers_replicate (R := fun c c' => c = c') (fun c hc => (recovers_LE_of_lt (k := 4)
      (h.children_lt c hc)).mono fun _ hc' => hc'.symm) fun c _ => ⟨c, rfl⟩
    rw [hsum] at heach
    rw [← hlen, List.take_length]
    refine Recovers.checked _ (decide_eq_true le_rfl) (heach.map fun children hchildren => ?_)
    have heq : n.children = children := List.forall₂_eq_eq_eq ▸ hchildren
    rw [heq]

theorem Encodable.recovers_cells (h : n.Encodable) (J J' : Junk) (hcells : n.cells = first :: rest)
    (hcolumns : first.value.length ≤ 255) : Recovers PG_SZ (putCells J first n)
      (getCells J' n.cells.length n.leaf)
      (fun r => List.Forall₂ (RereadCell J') n.cells r.1 ∧ r.2 = n.children) (cellsBytes first n) := by
  have hfirst : first ∈ n.cells := hcells ▸ List.mem_cons_self ..
  unfold putCells getCells cellsBytes
  rw [show 2 + first.value.length + (n.cells.map cellBytes).sum +
      (if n.leaf then 0 else 4 * (n.cells.length + 1)) =
    1 + (1 + (first.value.length + ((n.cells.map cellBytes).sum +
      if n.leaf then 0 else 4 * (n.cells.length + 1)))) by omega]
  refine (recovers_type first.key).bind (fun key hkey => ?_) ⟨first.key, rfl⟩
  refine (recovers_LE_of_lt (k := 1) (x := first.value.length) (by omega)).bind ?_ ⟨_, rfl⟩
  rintro _ rfl
  refine (recovers_types first.value).bind (fun types htypes => ?_) ⟨first.value, rfl⟩
  have hcell : ∀ c ∈ n.cells, Recovers PG_SZ (putCell J first.value.length c) (getCell J' key types)
      (RereadCell J' c) (cellBytes c) := by
    intro c hc
    rw [← h.length_eq hc hfirst]
    refine recovers_cell (hkey.trans (h.keys _ hfirst _ hc)) (htypes.trans ?_)
    exact sameTypes_iff.mp (h.values _ hfirst _ hc)
  refine (recovers_replicate hcell fun c _ => exists_rereadCell c).bind (fun cells hcells' => ?_) ?_
  · refine (h.recovers_children (List.ne_nil_of_mem hfirst) cells).mono ?_
    rintro _ rfl
    exact ⟨hcells', rfl⟩
  · refine ⟨n.cells.map fun c => (exists_rereadCell (J := J') c).choose, ?_⟩
    rw [List.forall₂_map_right_iff, List.forall₂_same]
    exact fun c _ => (exists_rereadCell c).choose_spec

theorem Encodable.checks (h : n.Encodable) : (!n.leaf || n.children.isEmpty) = true ∧
    (!(!n.leaf && n.root) || n.cells.isEmpty || n.children.length == n.cells.length + 1) = true ∧
    (!(!n.leaf && !n.root) || (n.children.length == n.cells.length + 1 && !n.cells.isEmpty)) = true := by
  cases hleaf : n.leaf with
  | true =>
    rw [h.leaf hleaf]
    exact ⟨rfl, rfl, rfl⟩
  | false =>
    by_cases hcells : n.cells = []
    · obtain ⟨hroot, -⟩ := h.empty hleaf hcells
      rw [hroot, hcells]
      exact ⟨rfl, rfl, rfl⟩
    · simp [h.inner hleaf hcells, hcells]

/-- A node with at most 255 columns is read back up to what the format does to strings. -/
theorem Encodable.recovers (h : n.Encodable) (J J' : Junk)
    (hcolumns : ∀ c ∈ n.cells, c.value.length ≤ 255) :
    Recovers PG_SZ (n.toBytes J) (parse J' n.pageID) (Reread J' n) n.bytes := by
  obtain ⟨h1, h2, h3⟩ := h.checks
  unfold toBytes
  refine Recovers.checked _ h1 (Recovers.checked _ h2 (Recovers.checked _ h3 ?_))
  refine h.recovers_header.bind ?_ ⟨_, rfl⟩
  rintro _ rfl
  cases hcells : n.cells with
  | nil =>
    have hchildren : n.children = [] := by
      cases hleaf : n.leaf with
      | true => exact h.leaf hleaf
      | false => exact (h.empty hleaf hcells).2
    refine recovers_pure ⟨?_, ?_⟩
    · rw [← hchildren]
    · rw [hcells]
      exact .nil
  | cons first rest =>
    have hread := h.recovers_cells J J' hcells (hcolumns _ (hcells ▸ List.mem_cons_self ..))
    rw [hcells] at hread
    refine hread.map ?_
    rintro ⟨cells, children⟩ ⟨hcells', rfl⟩
    exact ⟨rfl, hcells ▸ hcells'⟩

theorem toBytes_setParent (J : Junk) (n : BtreeNodePage Tuple) :
    (n.setParent (n.parentID % 2 ^ 32)).toBytes J = n.toBytes J := by
  have hput : putLE 4 (n.parentID % 2 ^ 32) = putLE 4 n.parentID := by
    rw [putLE, putLE, show (2 : ℕ) ^ 32 = 256 ^ 4 by norm_num, toLE_mod]
  have hheader : (n.setParent (n.parentID % 2 ^ 32)).putHeader = n.putHeader := by
    unfold putHeader
    rw [show (n.setParent (n.parentID % 2 ^ 32)).parentID = n.parentID % 2 ^ 32 from rfl, hput]
    rfl
  unfold toBytes
  rw [hheader]
  rfl

theorem writes_putLE (k x : ℕ) : Writes PG_SZ (putLE k x) k := (recovers_LE k x).writes

theorem writes_db_serialize (J : Junk) (v : Vari) : Writes PG_SZ (db_serialize J v) (db_sizeof v) :=
  (recovers_value J J (rfl : variant_to_type_id v = variant_to_type_id v)).writes

/-- The size of a node does not depend on what its `u8` holds of the number of columns. -/
theorem Encodable.writes (h : n.Encodable) (J : Junk) : Writes PG_SZ (n.toBytes J) n.bytes := by
  obtain ⟨h1, h2, h3⟩ := h.checks
  unfold toBytes bytes
  refine Writes.checked _ h1 (Writes.checked _ h2 (Writes.checked _ h3 (h.recovers_header.writes.bind ?_)))
  cases hcells : n.cells with
  | nil => exact writes_pure
  | cons first rest =>
    have hfirst : first ∈ n.cells := hcells ▸ List.mem_cons_self ..
    have htypes : Writes PG_SZ (writeEach (fun v => putLE 1 (variant_to_type_id v)) first.value)
        (first.value.map fun _ => 1).sum := writes_each fun v _ => writes_putLE 1 _
    have hcell : ∀ c ∈ n.cells, Writes PG_SZ (putCell J first.value.length c) (cellBytes c) := by
      intro c hc
      refine (writes_db_serialize J c.key).bind (Writes.checked _ (decide_eq_true (h.length_eq hfirst hc).le) ?_)
      rw [h.length_eq hfirst hc, List.take_length]
      exact writes_each fun v _ => writes_db_serialize J v
    have hchildren := (h.recovers_children (List.ne_nil_of_mem hfirst) []).writes
    have hall := (writes_putLE 1 (variant_to_type_id first.key)).bind
      ((writes_putLE 1 first.value.length).bind (htypes.bind ((writes_each hcell).bind hchildren)))
    rw [show (first.value.map fun _ => 1).sum = first.value.length by simp] at hall
    have hsize : cellsBytes first n = 1 + (1 + (first.value.length + ((n.cells.map cellBytes).sum +
        if n.leaf then 0 else 4 * (n.cells.length + 1)))) := by
      rw [cellsBytes]
      omega
    change Writes PG_SZ (putCells J first n) (cellsBytes first n)
    rw [hsize]
    exact hall

theorem Encodable.bytes_le (h : n.Encodable) {out : Bytes} (hw : n.toBytes J [] = .ok () out) : n.bytes ≤ PG_SZ := by
  by_contra hbig
  obtain ⟨m, hm⟩ := (h.writes J).overflows [] (Nat.zero_le _) (by rw [List.length_nil]; omega)
  rw [hw] at hm
  cases hm

theorem stays_putCells (J : Junk) (first : Cell Tuple) (n : BtreeNodePage Tuple) :
    Stays PG_SZ (putCells J first n) := by
  refine (stays_putLE 1 _).bind fun _ => (stays_putLE 1 _).bind fun _ => ?_
  refine (stays_each (fun _ => stays_putLE 1 _) _).bind fun _ => (stays_each (fun c => ?_) _).bind fun _ => ?_
  · refine (stays_db_serialize J c.key).bind fun _ => (stays_require _ _).bind fun _ => ?_
    exact stays_each (stays_db_serialize J) _
  · split
    · exact (stays_require _ _).bind fun _ => stays_each (stays_putLE 4) _
    · exact stays_pure ()

theorem appends_putLE (k x : ℕ) : Appends (putLE k x) := appends_write _ _

theorem appends_db_serialize (J : Junk) (v : Vari) : Appends (db_serialize J v) := by
  cases v with
  | string s => exact fun out out' h => appends_write PG_SZ (stringData J out.length s) out out' h
  | _ => exact appends_putLE _ _

theorem appends_putCell (J : Junk) (k : ℕ) (c : Cell Tuple) : Appends (putCell J k c) :=
  (appends_db_serialize J c.key).bind (.checked _ _ (.each (appends_db_serialize J) _))

/-- The number of values of a row that is read is what a `u8` holds of the number of columns. -/
theorem Encodable.length_of_parse (h : n.Encodable) (hcells : n.cells = first :: rest) {out left : Bytes}
    {n' : BtreeNodePage Tuple} (hw : n.toBytes J [] = .ok () out)
    (hr : parse J' n.pageID (fillBlock J out) = .ok n' left) :
    n'.leaf = n.leaf ∧ n'.cells.length = n.cells.length ∧
      ∀ c ∈ n'.cells, c.value.length = first.value.length % 256 := by
  obtain ⟨h1, h2, h3⟩ := h.checks
  obtain ⟨l₁, hl₁, hw₁, hr₁⟩ := h.recovers_header.fits [] (by decide)
  obtain ⟨l₂, hl₂, hw₂, hr₂⟩ := (recovers_type first.key).fits ([] ++ l₁) (by simp [hl₁, PG_SZ])
  obtain ⟨l₃, hl₃, hw₃, hr₃⟩ := (recovers_LE 1 first.value.length).fits ([] ++ l₁ ++ l₂)
    (by simp [hl₁, hl₂, PG_SZ])
  obtain ⟨l₄, rfl⟩ : [] ++ l₁ ++ l₂ ++ l₃ <+: out := by
    unfold toBytes at hw
    rw [bind_ok (require_ok _ _ h1), bind_ok (require_ok _ _ h2), bind_ok (require_ok _ _ h3),
      bind_ok hw₁, hcells] at hw
    change putCells J first n ([] ++ l₁) = _ at hw
    unfold putCells at hw
    rw [bind_ok hw₂, bind_ok hw₃] at hw
    refine Appends.bind (.each (fun v => appends_putLE 1 _) _)
      (Appends.bind (.each (appends_putCell J _) _) ?_) _ _ hw
    split
    · exact .checked _ _ (.each (fun c => appends_putLE 4 c) _)
    · exact appends_pure
  unfold fillBlock at hr
  generalize (List.range _).map _ = tail at hr
  obtain ⟨_, rfl, hr₁⟩ := hr₁ (l₂ ++ (l₃ ++ (l₄ ++ tail)))
  obtain ⟨key, -, hr₂⟩ := hr₂ (l₃ ++ (l₄ ++ tail))
  obtain ⟨_, rfl, hr₃⟩ := hr₃ (l₄ ++ tail)
  rw [List.nil_append, List.append_assoc, List.append_assoc, List.append_assoc, parse, bind_ok hr₁,
    if_neg (by simp [hcells])] at hr
  obtain ⟨⟨cells, children⟩, t, hget, hr⟩ := ok_of_bind hr
  cases hr
  rw [getCells, bind_ok hr₂, bind_ok hr₃] at hget
  obtain ⟨types, t₁, htypes, hget⟩ := ok_of_bind hget
  obtain ⟨cells', t₂, hread, hget⟩ := ok_of_bind hget
  obtain rfl : cells' = cells := by
    split at hget
    · obtain ⟨children', t₃, -, hget⟩ := ok_of_bind hget
      cases hget
      rfl
    · cases hget
      rfl
  have hlen := readEach_length htypes
  rw [List.length_replicate] at hlen
  refine ⟨rfl, (readEach_length hread).trans List.length_replicate, ?_⟩
  refine forall_of_readEach (P := fun c : Cell Tuple => c.value.length = first.value.length % 256) ?_ hread
  intro p hp s c s' hc
  rw [List.eq_of_mem_replicate hp] at hc
  obtain ⟨k, s₁, -, hc⟩ := ok_of_bind hc
  obtain ⟨value, s₂, hvalue, hc⟩ := ok_of_bind hc
  cases hc
  change value.length = _
  rw [readEach_length hvalue, List.length_map, hlen, pow_one]

end Kndb.BtreeNodePage
