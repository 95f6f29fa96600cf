import Kndb.Btree.Invariant

namespace Kndb.Btree

open Ascending Imp.Prog

variable {σ T : Type}

theorem scan_le (key : Vari) (cells : List (Cell T)) : scan key cells ≤ cells.length := by
  induction cells with
  | nil => simp [scan]
  | cons c cs ih =>
    simp only [scan, List.length_cons]
    split_ifs <;> omega

theorem lt_of_mem_take_scan {key : Vari} {cells : List (Cell T)} {c : Cell T}
    (hc : c ∈ cells.take (scan key cells)) : c.key.lt key = true := by
  induction cells with
  | nil => simp at hc
  | cons d cs ih =>
    simp only [scan] at hc
    split_ifs at hc with hd
    · rw [List.take_succ_cons, List.mem_cons] at hc
      rcases hc with rfl | hc
      · exact hd
      · exact ih hc
    · simp at hc

theorem not_lt_of_getElem?_scan {key : Vari} {cells : List (Cell T)} {c : Cell T}
    (hc : cells[scan key cells]? = some c) : c.key.lt key = false := by
  induction cells with
  | nil => simp at hc
  | cons d cs ih =>
    simp only [scan] at hc
    split_ifs at hc with hd
    · exact ih (by simpa using hc)
    · obtain rfl : d = c := by simpa using hc
      simpa using hd

section Scan

variable {L : Layout} {p : ℕ} {n : BtreeNodePage T} {key : Vari}

theorem Ordered.take_scan (h : Ordered L p n) (hkey : key.isNaN = false)
    {c : Cell T} (hc : c ∈ n.cells.take (scan key n.cells)) : c.key.rank < key.rank :=
  (Vari.lt_iff (h.keys c (List.mem_of_mem_take hc)) hkey).mp (lt_of_mem_take_scan hc)

theorem Ordered.drop_scan (h : Ordered L p n) (hkey : key.isNaN = false)
    {c : Cell T} (hc : c ∈ n.cells.drop (scan key n.cells)) : key.rank ≤ c.key.rank := by
  obtain ⟨i, hi, rfl⟩ := List.mem_iff_getElem.mp hc
  simp only [List.length_drop] at hi
  have hs : scan key n.cells < n.cells.length := by omega
  have hfirst := not_lt_of_getElem?_scan (List.getElem?_eq_getElem hs)
  have hle : key.rank ≤ n.cells[scan key n.cells].key.rank := by
    rw [← not_lt, ← Vari.lt_iff (h.keys _ (List.getElem_mem hs)) hkey, hfirst]
    simp
  rw [List.getElem_drop]
  rcases Nat.eq_zero_or_pos i with rfl | hi0
  · exact hle
  · exact hle.trans (List.pairwise_iff_getElem.mp h.sorted _ _ hs (by omega) (by omega)).le

theorem Ordered.not_mem_of_scan (h : Ordered L p n) (hkey : key.isNaN = false)
    (hno : ∀ c, n.cells[scan key n.cells]? = some c → c.key.rank ≠ key.rank) :
    ∀ c ∈ n.cells, c.key.rank ≠ key.rank := by
  intro c hc he
  rw [← List.take_append_drop (scan key n.cells) n.cells, List.mem_append] at hc
  rcases hc with hc | hc
  · exact absurd he (h.take_scan hkey hc).ne
  · obtain ⟨i, hi, rfl⟩ := List.mem_drop_iff_getElem.mp hc
    have hs : scan key n.cells < n.cells.length := by omega
    have hle := h.drop_scan hkey (c := n.cells[scan key n.cells])
      (List.mem_drop_iff_getElem.mpr ⟨0, by omega, by simp⟩)
    rcases Nat.eq_zero_or_pos i with rfl | hi0
    · exact hno _ (List.getElem?_eq_getElem hs) (by simpa using he)
    · have hlt := List.pairwise_iff_getElem.mp h.sorted (scan key n.cells)
        (scan key n.cells + i) hs (by omega) (by omega)
      exact absurd he (hle.trans_lt hlt).ne'

/-- The child at the scanned index is the one whose interval contains the key. -/
theorem Ordered.child_scan (h : Ordered L p n) (hkey : key.isNaN = false)
    (hl : n.leaf = false) (hlo : L.lo p < key.bound) (hhi : key.bound < L.hi p)
    (hno : ∀ c ∈ n.cells, c.key.rank ≠ key.rank) :
    ∃ q, n.children[scan key n.cells]? = some q ∧ L.lo q < key.bound ∧ key.bound < L.hi q := by
  have hlen := h.children_length hl
  have hs := scan_le key n.cells
  obtain ⟨q, hq⟩ : ∃ q, n.children[scan key n.cells]? = some q :=
    ⟨_, List.getElem?_eq_getElem (by omega)⟩
  obtain ⟨h1, h2⟩ := kid_at (h.kids_lo hl) (h.kids_hi hl) hq
  refine ⟨q, hq, ?_, ?_⟩
  -- the bound below the child is the key before the place where the scan stops
  · rcases hidx : scan key n.cells with _ | i
    · rw [hidx] at h1
      have hq' : L.lo p = L.lo q := by simpa using h1
      rwa [← hq']
    · have hc : i < n.cells.length := by omega
      have hq' : n.cells[i].key.bound = L.lo q := by simpa [hidx, keyBounds, hc] using h1
      have hlt := h.take_scan hkey (c := n.cells[i])
        (List.mem_take_iff_getElem.mpr ⟨i, by omega, rfl⟩)
      rwa [← hq', Vari.bound_lt_bound]
  · rcases hs.lt_or_eq with hc | heq
    · have hq' : n.cells[scan key n.cells].key.bound = L.hi q := by
        rw [List.getElem?_append_left (by simpa [keyBounds] using hc)] at h2
        simpa [keyBounds, hc] using h2
      have hge := h.drop_scan hkey (c := n.cells[scan key n.cells])
        (List.mem_drop_iff_getElem.mpr ⟨0, by omega, by simp⟩)
      rw [← hq', Vari.bound_lt_bound]
      exact lt_of_le_of_ne hge (hno _ (List.getElem_mem hc)).symm
    · rw [List.getElem?_append_right (by simp [keyBounds, heq])] at h2
      have hq' : L.hi p = L.hi q := by simpa [keyBounds, heq] using h2
      rwa [← hq']

end Scan

/-- What the checks of `searchRowPtr` need beyond `Linked`. -/
structure Searchable (nodes : ℕ → Option (BtreeNodePage T)) (root : ℕ) (L : Layout) : Prop where
  arity : ∀ p ∈ L.pages, ∀ n, nodes p = some n → n.leaf = false →
    n.children.length = n.cells.length + 1
  nonempty : ∀ p ∈ L.pages, p ≠ root → ∀ n, nodes p = some n → n.cells ≠ []
  few : ∀ p ∈ L.pages, ∀ n, nodes p = some n → n.cells.length < CELLID_INVALID

theorem Sized.searchable {t : ℕ} {nodes : ℕ → Option (BtreeNodePage T)} {root : ℕ} {L : Layout}
    {ovf : Option ℕ} (h : Sized t nodes root L ovf) (ht : 2 ≤ t) (ht' : t ≤ 2 ^ 15) :
    Searchable nodes root L where
  arity := h.arity
  nonempty p hp hr n hn := by
    have := h.lower p hp hr n hn
    exact List.ne_nil_of_length_pos (by omega)
  few p hp n hn := by
    have := h.upper p hp n hn
    simp only [CELLID_INVALID]
    split_ifs at this <;> omega

/-- The leaf where the walk for a key ends, unless it meets the key. -/
def leafOf (nodes : ℕ → Option (BtreeNodePage T)) (key : Vari) : ℕ → ℕ → Option ℕ
  | 0, _ => none
  | fuel + 1, id => (nodes id).bind fun n =>
    if n.cells[scan key n.cells]?.any (fun c => key.eq c.key) then none
    else if n.leaf then some id
    else n.children[scan key n.cells]?.bind (leafOf nodes key fuel)

/-- A walk that is no longer than the tree is high does not come to a leaf. -/
theorem Linked.leafOf_eq_none {nodes : ℕ → Option (BtreeNodePage T)} {root p : ℕ} {deg : ℕ} {L : Layout}
    (h : Linked deg nodes root L) (key : Vari) {f : ℕ} (hp : p ∈ L.pages) (hf : f ≤ L.height p) :
    leafOf nodes key f p = none := by
  induction f generalizing p with
  | zero => rfl
  | succ f ih =>
    obtain ⟨n, hn, ok⟩ := h.link p hp
    rw [leafOf, hn, Option.bind_some, ok.leaf_eq_false (by omega), if_neg (c := false = true) (by simp)]
    split_ifs with hfound
    · rfl
    · refine Option.bind_eq_none_iff.mpr fun q hq => ?_
      obtain ⟨hmem, hheight, -⟩ := ok.kids q (List.mem_of_getElem? hq)
      exact ih hmem (by omega)

/-- Where a search that started at page `p` ended, and, in an ordered tree, why. -/
def SearchPost (o : Prop) (nodes : ℕ → Option (BtreeNodePage T)) (L : Layout) (key : Vari)
    (f p : ℕ) (row : RowPos) (n : BtreeNodePage T) : Prop :=
  (row.cellID ≠ CELLID_INVALID ∧ leafOf nodes key f p = none ∧
      ∃ c, n.cells[row.cellID]? = some c ∧ (o → c.key.rank = key.rank)) ∨
    (row.cellID = CELLID_INVALID ∧ leafOf nodes key f p = some row.pageID ∧ n.leaf = true ∧
      (o → L.lo row.pageID < key.bound ∧ key.bound < L.hi row.pageID ∧
        ∀ c ∈ inorder nodes (L.height p) p, c.key.rank ≠ key.rank))

/-- The key may be searched for below `p` in an ordered tree. -/
structure Within (deg : ℕ) (nodes : ℕ → Option (BtreeNodePage T)) (root : ℕ) (L : Layout)
    (key : Vari) (p : ℕ) : Prop where
  tree : Tree deg nodes root L
  not_nan : key.isNaN = false
  lo : L.lo p < key.bound
  hi : key.bound < L.hi p

theorem Within.not_mem {deg p root : ℕ} {nodes : ℕ → Option (BtreeNodePage T)} {L : Layout}
    {key : Vari} (h : Within deg nodes root L key p) (hp : p ∈ L.pages) {n : BtreeNodePage T}
    (hn : nodes p = some n)
    (hno : ¬(n.cells[scan key n.cells]?.any fun c => key.eq c.key) = true) :
    ∀ c ∈ n.cells, c.key.rank ≠ key.rank := by
  have ok := h.tree.node_of hp hn
  refine ok.not_mem_of_scan h.not_nan fun c hc he => hno ?_
  refine (Option.any_eq_true _ _).mpr ⟨c, hc, ?_⟩
  exact (Vari.eq_iff h.not_nan (ok.keys c (List.mem_of_getElem? hc))).mpr he.symm

theorem Within.child {deg p root q : ℕ} {nodes : ℕ → Option (BtreeNodePage T)} {L : Layout}
    {key : Vari} (h : Within deg nodes root L key p) (hp : p ∈ L.pages) {n : BtreeNodePage T}
    (hn : nodes p = some n) (hl : n.leaf = false)
    (hno : ¬(n.cells[scan key n.cells]?.any fun c => key.eq c.key) = true)
    (hq : n.children[scan key n.cells]? = some q) : Within deg nodes root L key q := by
  obtain ⟨q', hq', hlo, hhi⟩ :=
    (h.tree.node_of hp hn).child_scan h.not_nan hl h.lo h.hi (h.not_mem hp hn hno)
  obtain rfl : q = q' := Option.some.inj (hq.symm.trans hq')
  exact ⟨h.tree, h.not_nan, hlo, hhi⟩

variable {P : LawfulPager σ T} {s₀ : σ} {h : Heap T} {R : Heap T → Prop} {A : Imp.Stop → Prop}
variable {o : Prop} {deg : ℕ} {L : Layout}

theorem runs_searchRowPtr (hlink : Linked deg h.nodes h.root L)
    (hA : ¬Searchable h.nodes h.root L → A .abort) {key : Vari} (fuel f p : ℕ) (hp : p ∈ L.pages)
    (hfuel : L.height p < fuel) (hf : L.height p < f) (hw : o → Within deg h.nodes h.root L key p) :
    Runs P s₀ (searchRowPtr P.toPagerOps key fuel p) h
      (fun row h' => h' = h ∧ row.pageID ∈ L.pages ∧ ∃ n, h.nodes row.pageID = some n ∧
        (Searchable h.nodes h.root L → SearchPost o h.nodes L key f p row n)) R A := by
  induction fuel generalizing p f with
  | zero => omega
  | succ fuel ih =>
    obtain ⟨f, rfl⟩ : ∃ g, f = g + 1 := ⟨f - 1, by omega⟩
    obtain ⟨n, hn, ok⟩ := hlink.link p hp
    rw [searchRowPtr]
    refine runs_bind (runs_node hn (runs_bind (runs_deref hn fun _ => ?_)))
    refine runs_bind (runs_require ?_ ?_)
    · rcases hl : n.leaf with _ | _
      · simp
      · simp [ok.leaf_children hl]
    refine runs_bind (runs_check (fun _ => ?_) fun hf => hA fun hS => ?_)
    swap
    · rcases hl : n.leaf with _ | _
      · simp [hl, hS.arity p hp n hn hl] at hf
      · simp [hl] at hf
    refine runs_bind (runs_check (fun _ => ?_) fun hf => hA fun hS => ?_)
    swap
    · rcases hl : n.leaf with _ | _
      · rcases hr : n.root with _ | _
        · have hne : p ≠ h.root := fun he => by simpa [hr] using ok.root_iff.mpr he
          simp [hl, hr, hS.arity p hp n hn hl, hS.nonempty p hp hne n hn] at hf
        · simp [hr] at hf
      · simp [hl] at hf
    -- the scan stops at an equal key, or the search goes on in the child it stops at
    by_cases hfound : (n.cells[scan key n.cells]?.any fun c => key.eq c.key) = true
    · have hpath : leafOf h.nodes key (f + 1) p = none := by
        rw [leafOf, hn, Option.bind_some, if_pos hfound]
      rw [if_pos hfound]
      obtain ⟨c, hc, heq⟩ := (Option.any_eq_true _ _).mp hfound
      refine runs_pure ⟨rfl, hp, n, hn, fun hS => .inl ⟨?_, hpath, c, hc, fun ho => ?_⟩⟩
      · have hlt : scan key n.cells < n.cells.length := (List.getElem?_eq_some_iff.mp hc).1
        have hfew := hS.few p hp n hn
        simp only
        omega
      · have hc' := ((hw ho).tree.node_of hp hn).keys c (List.mem_of_getElem? hc)
        exact ((Vari.eq_iff (hw ho).not_nan hc').mp heq).symm
    · rw [if_neg hfound]
      rcases hl : n.leaf with _ | _
      · rw [if_neg (by simp)]
        refine runs_bind (runs_index (fun q hq => ?_) fun hnone => hA fun hS => ?_)
        swap
        · have hlen := hS.arity p hp n hn hl
          have := List.getElem?_eq_none_iff.mp hnone
          have := scan_le key n.cells
          omega
        have hqm : q ∈ n.children := List.mem_of_getElem? hq
        obtain ⟨hqp, hh, -⟩ := ok.kids q hqm
        have hw' : o → Within deg h.nodes h.root L key q :=
          fun ho => (hw ho).child hp hn hl hfound hq
        have hpath : leafOf h.nodes key (f + 1) p = leafOf h.nodes key f q := by
          rw [leafOf, hn, Option.bind_some, if_neg hfound, hl, if_neg (by simp), hq, Option.bind_some]
        refine runs_mono (ih f q hqp (by omega) (by omega) hw') ?_ (fun _ hr => hr) fun _ hA => hA
        rintro row h' ⟨rfl, hrow, m, hm, hpost⟩
        refine ⟨rfl, hrow, m, hm, fun hS => (hpost hS).imp (fun ⟨hv, hp', hc⟩ => ⟨hv, hpath.trans hp', hc⟩) ?_⟩
        rintro ⟨hinv, hp', hleaf, hord⟩
        refine ⟨hinv, hpath.trans hp', hleaf, fun ho => ?_⟩
        obtain ⟨hl1, hl2, hnone⟩ := hord ho
        refine ⟨hl1, hl2, fun c hc he => hnone c ?_ he⟩
        rw [← hh] at hc
        exact (hw ho).tree.child_of_key hp hh.symm hn hqm (hw' ho).lo (hw' ho).hi
          ((hw ho).not_mem hp hn hfound) hc he
      · have hpath : leafOf h.nodes key (f + 1) p = some p := by
          rw [leafOf, hn, Option.bind_some, if_neg hfound, if_pos hl]
        rw [if_pos rfl]
        refine runs_pure ⟨rfl, hp, n, hn, fun _ => .inr ⟨rfl, hpath, hl, fun ho => ?_⟩⟩
        refine ⟨(hw ho).lo, (hw ho).hi, ?_⟩
        rw [ok.leaf_iff.mp hl, inorder_zero p hn]
        exact (hw ho).not_mem hp hn hfound

end Kndb.Btree
