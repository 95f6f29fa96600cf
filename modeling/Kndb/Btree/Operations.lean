import Kndb.Btree.Search
import Kndb.Btree.Cascade

namespace Kndb.Btree

open Ascending Imp.Prog

variable {σ T : Type} {P : LawfulPager σ T} {s₀ : σ} {h : Heap T} {A : Imp.Stop → Prop}
variable {o : Prop} {deg u : ℕ} {L : Layout} {ovf : Option ℕ}

def HasKey (nodes : ℕ → Option (BtreeNodePage T)) (L : Layout) (key : Vari) : Prop :=
  ∃ c, CellIn nodes L c ∧ c.key.rank = key.rank

/-- Where a search of the whole tree ended: at a cell, or at a leaf. -/
def Located (o : Prop) (h : Heap T) (L : Layout) (key : Vari) (f : ℕ) (row : RowPos)
    (n : BtreeNodePage T) : Prop :=
  (row.cellID ≠ CELLID_INVALID ∧ leafOf h.nodes key f h.root = none ∧
      ∃ c, n.cells[row.cellID]? = some c ∧ (o → c.key.rank = key.rank)) ∨
    (row.cellID = CELLID_INVALID ∧ leafOf h.nodes key f h.root = some row.pageID ∧ n.leaf = true ∧
      (o → L.lo row.pageID < key.bound ∧ key.bound < L.hi row.pageID ∧ ¬HasKey h.nodes L key))

theorem Balanced.runs_searchRowPtr {R : Heap T → Prop} (hb : Balanced o deg u h L ovf)
    (hS : Searchable h.nodes h.root L) {key : Vari} (hkey : o → key.isNaN = false) {fuel f : ℕ}
    (hfuel : L.height h.root < fuel) (hf : L.height h.root < f) :
    Runs P s₀ (searchRowPtr P.toPagerOps key fuel h.root) h
      (fun row h' => h' = h ∧ row.pageID ∈ L.pages ∧ ∃ n, h.nodes row.pageID = some n ∧
        Located o h L key f row n) R A := by
  have hw : o → Within deg h.nodes h.root L key h.root := by
    intro ho
    refine ⟨hb.tree ho, hkey ho, ?_, ?_⟩
    · rw [(hb.tree ho).root_lo]
      exact Vari.bot_lt_bound key
    · rw [(hb.tree ho).root_hi]
      exact Vari.bound_lt_top key
  refine runs_mono (Btree.runs_searchRowPtr hb.linked (fun hno => absurd hS hno) fuel f h.root
    hb.linked.root_mem hfuel hf hw) ?_ (fun _ hr => hr) fun _ hA => hA
  rintro row h' ⟨rfl, hm, n, hn, hpost⟩
  refine ⟨rfl, hm, n, hn, (hpost hS).imp id ?_⟩
  rintro ⟨hv, hpath, hl, hord⟩
  refine ⟨hv, hpath, hl, fun ho => ?_⟩
  obtain ⟨hlo, hhi, hno⟩ := hord ho
  refine ⟨hlo, hhi, ?_⟩
  rintro ⟨c, hc, hr⟩
  exact hno c (((hb.tree ho).mem_inorder_root c).mpr hc) hr

theorem runs_search {R : Heap T → Prop} (hb : Balanced o deg u h L ovf)
    (hS : Searchable h.nodes h.root L) {key : Vari} (hkey : o → key.isNaN = false) {fuel : ℕ}
    (hfuel : L.height h.root < fuel) :
    Runs P s₀ (search P.toPagerOps fuel key) h (fun r h' => h' = h ∧ (o →
      (∃ c, CellIn h.nodes L c ∧ c.key.rank = key.rank ∧ r = some c.value) ∨
        (¬HasKey h.nodes L key ∧ r = none))) R A := by
  refine runs_bind (runs_rootPageID (Runs.bind (hb.runs_searchRowPtr hS hkey hfuel hfuel) ?_))
  rintro row h' ⟨rfl, hm, n, hn, ⟨hv, -, c, hc, hr⟩ | ⟨hv, -, -, hno⟩⟩
  · rw [if_neg hv]
    refine runs_bind (runs_node hn (runs_bind (runs_deref hn fun _ => ?_)))
    refine runs_bind (runs_at? hc (runs_pure ⟨rfl, fun ho => .inl ⟨c, ?_, hr ho, rfl⟩⟩))
    exact ⟨_, hm, n, hn, List.mem_of_getElem? hc⟩
  · rw [if_pos hv]
    exact runs_pure ⟨rfl, fun ho => .inr ⟨(hno ho).2.2, rfl⟩⟩

section SetCells

variable {nodes : ℕ → Option (BtreeNodePage T)} {root p : ℕ} {n : BtreeNodePage T}
variable {cs : List (Cell T)}

theorem Linked.setCells (ht : Linked deg nodes root L) (hn : nodes p = some n) :
    Linked deg (Function.update nodes p (some (n.setCells cs))) root L where
  root_mem := ht.root_mem
  top := ht.top
  link q hq := by
    have hsame : ∀ r m, nodes r = some m →
        ∃ m', Function.update nodes p (some (n.setCells cs)) r = some m' ∧
          m'.parentID = m.parentID ∧ m'.children = m.children := by
      intro r m hm
      by_cases hr : r = p
      · subst hr
        obtain rfl := Option.some.inj (hn.symm.trans hm)
        exact ⟨_, Function.update_self .., rfl, rfl⟩
      · exact ⟨m, (Function.update_of_ne hr ..).trans hm, rfl, rfl⟩
    have hmove : ∀ m, LinkOk deg nodes root L q m →
        LinkOk deg (Function.update nodes p (some (n.setCells cs))) root L q m := by
      intro m ok
      refine { ok with kids := fun c hc => ?_, listed := fun hr => ?_ }
      · obtain ⟨hm, hh, o, ho, hpar⟩ := ok.kids c hc
        obtain ⟨o', ho', hpar', -⟩ := hsame c o ho
        exact ⟨hm, hh, o', ho', hpar'.trans hpar⟩
      · obtain ⟨hm, o, ho, hmem⟩ := ok.listed hr
        obtain ⟨o', ho', -, hch⟩ := hsame _ o ho
        exact ⟨hm, o', ho', hch ▸ hmem⟩
    by_cases hqp : q = p
    · subst hqp
      have ok := ht.link_of hq hn
      refine ⟨_, Function.update_self .., hmove _ ?_⟩
      exact ⟨ok.degree, ok.leaf_iff, ok.leaf_children, ok.children_nodup, ok.kids, ok.root_iff,
        ok.listed⟩
    · obtain ⟨m, hm, ok⟩ := ht.link q hq
      exact ⟨m, (Function.update_of_ne hqp ..).trans hm, hmove m ok⟩

theorem Tree.setCells (ht : Tree deg nodes root L) (hn : nodes p = some n)
    (hok : Ordered L p (n.setCells cs)) :
    Tree deg (Function.update nodes p (some (n.setCells cs))) root L where
  toLinked := ht.toLinked.setCells hn
  root_lo := ht.root_lo
  root_hi := ht.root_hi
  ordered q hq m hm := by
    by_cases hqp : q = p
    · subst hqp
      rw [Function.update_self, Option.some.injEq] at hm
      exact hm ▸ hok
    · rw [Function.update_of_ne hqp] at hm
      exact ht.ordered q hq m hm

theorem cellIn_setCells (hp : p ∈ L.pages) (d : Cell T) :
    CellIn (Function.update nodes p (some (n.setCells cs))) L d ↔
      d ∈ cs ∨ ∃ q ∈ L.pages, q ≠ p ∧ ∃ m, nodes q = some m ∧ d ∈ m.cells := by
  constructor
  · rintro ⟨q, hq, m, hm, hd⟩
    by_cases hqp : q = p
    · subst hqp
      rw [Function.update_self, Option.some.injEq] at hm
      subst hm
      exact .inl hd
    · rw [Function.update_of_ne hqp] at hm
      exact .inr ⟨q, hq, hqp, m, hm, hd⟩
  · rintro (hd | ⟨q, hq, hqp, m, hm, hd⟩)
    · exact ⟨p, hp, _, Function.update_self .., hd⟩
    · exact ⟨q, hq, m, (Function.update_of_ne hqp ..).trans hm, hd⟩

theorem cellIn_iff (hp : p ∈ L.pages) (hn : nodes p = some n) (d : Cell T) :
    CellIn nodes L d ↔ d ∈ n.cells ∨ ∃ q ∈ L.pages, q ≠ p ∧ ∃ m, nodes q = some m ∧ d ∈ m.cells := by
  have hself : Function.update nodes p (some (n.setCells n.cells)) = nodes := by
    rw [show n.setCells n.cells = n from rfl, ← hn]
    exact Function.update_eq_self ..
  rw [← cellIn_setCells hp, hself]

theorem Ordered.setValue (hok : Ordered L p n) {i : ℕ} {c : Cell T} (hc : n.cells[i]? = some c)
    (v : T) : Ordered L p (n.setCells (n.cells.set i { c with value := v })) := by
  have hkb : keyBounds (n.cells.set i { c with value := v }) = keyBounds n.cells := by
    obtain ⟨hi, rfl⟩ := List.getElem?_eq_some_iff.mp hc
    rw [keyBounds, List.map_set, keyBounds]
    have hi' : i < (n.cells.map fun c => c.key.bound).length := by simpa using hi
    convert List.set_getElem_self hi'
    simp
  refine ⟨fun d hd => ?_, ?_, ?_, ?_⟩
  · rcases List.mem_or_eq_of_mem_set hd with hd | rfl
    · exact hok.keys d hd
    · exact hok.keys c (List.mem_of_getElem? hc)
  · rw [BtreeNodePage.setCells_cells, hkb]
    exact hok.between
  · rw [BtreeNodePage.setCells_cells, hkb]
    exact hok.kids_lo
  · rw [BtreeNodePage.setCells_cells, hkb]
    exact hok.kids_hi

theorem Ordered.insertCell (hok : Ordered L p n) (hl : n.leaf = true) {c : Cell T}
    (hkey : c.key.isNaN = false) (hlo : L.lo p < c.key.bound) (hhi : c.key.bound < L.hi p)
    (hno : ∀ d ∈ n.cells, d.key.rank ≠ c.key.rank) :
    Ordered L p (n.setCells (n.cells.insertIdx (scan c.key n.cells) c)) := by
  have hins := insertIdx_eq c (scan_le c.key n.cells)
  refine ⟨fun d hd => ?_, ?_, ?_, ?_⟩
  · rcases List.eq_or_mem_of_mem_insertIdx hd with rfl | hd
    · exact hkey
    · exact hok.keys d hd
  · have hb := hok.between
    rw [← List.take_append_drop (scan c.key n.cells) n.cells, keyBounds, List.map_append] at hb
    rw [BtreeNodePage.setCells_cells, hins, keyBounds, List.map_append, List.map_cons]
    refine hb.insert_of_forall hlo hhi ?_ ?_
    · intro x hx
      obtain ⟨d, hd, rfl⟩ := List.mem_map.mp hx
      exact Vari.bound_lt_bound.mpr (hok.take_scan hkey hd)
    · intro x hx
      obtain ⟨d, hd, rfl⟩ := List.mem_map.mp hx
      exact Vari.bound_lt_bound.mpr
        (lt_of_le_of_ne (hok.drop_scan hkey hd) (hno d (List.mem_of_mem_drop hd)).symm)
  · exact fun hf => absurd (hl.symm.trans hf) (by simp)
  · exact fun hf => absurd (hl.symm.trans hf) (by simp)

theorem Sized.setCells {t : ℕ} {ovf' : Option ℕ} (hs : Sized t nodes root L ovf)
    (hn : nodes p = some n) (hlen : n.cells.length ≤ cs.length)
    (hup : cs.length ≤ 2 * t - 2 + if ovf' = some p then 1 else 0)
    (hleaf : n.leaf = false → cs.length = n.cells.length)
    (hover : ∀ q, q ≠ p → ovf = some q → ovf' = some q) :
    Sized t (Function.update nodes p (some (n.setCells cs))) root L ovf' where
  lower q hq hqr m hm := by
    by_cases hqp : q = p
    · subst hqp
      rw [Function.update_self, Option.some.injEq] at hm
      subst hm
      exact (hs.lower q hq hqr n hn).trans hlen
    · rw [Function.update_of_ne hqp] at hm
      exact hs.lower q hq hqr m hm
  upper q hq m hm := by
    by_cases hqp : q = p
    · subst hqp
      rw [Function.update_self, Option.some.injEq] at hm
      subst hm
      exact hup
    · rw [Function.update_of_ne hqp] at hm
      have hle := hs.upper q hq m hm
      by_cases ho : ovf = some q
      · rw [if_pos ho] at hle
        rwa [if_pos (hover q hqp ho)]
      · rw [if_neg ho] at hle
        exact hle.trans (Nat.le_add_right _ _)
  arity q hq m hm hl := by
    by_cases hqp : q = p
    · subst hqp
      rw [Function.update_self, Option.some.injEq] at hm
      subst hm
      rw [BtreeNodePage.setCells_children, BtreeNodePage.setCells_cells, hleaf hl]
      exact hs.arity q hq n hn hl
    · rw [Function.update_of_ne hqp] at hm
      exact hs.arity q hq m hm hl
  root_nonempty m hm hl := by
    by_cases hqp : root = p
    · subst hqp
      rw [Function.update_self, Option.some.injEq] at hm
      subst hm
      exact (hs.root_nonempty n hn hl).trans hlen
    · rw [Function.update_of_ne hqp] at hm
      exact hs.root_nonempty m hm hl

end SetCells

theorem runs_update {R : Heap T → Prop} (hb : Balanced o deg u h L none) (hu : 2 ≤ u)
    (hu' : u ≤ 2 ^ 15) {key : Vari} (hkey : o → key.isNaN = false) {v : T} {fuel : ℕ}
    (hfuel : L.height h.root < fuel) :
    Runs P s₀ (update P.toPagerOps fuel v key) h (fun r h' =>
      (r = true ∧ Balanced o deg u h' L none ∧ h'.root = h.root ∧ h'.avail = h.avail ∧
        (∀ q ∉ L.pages, h'.nodes q = h.nodes q) ∧
        (∀ d, CellIn h'.nodes L d → CellIn h.nodes L d ∨ ∃ c, CellIn h.nodes L c ∧ d = ⟨c.key, v⟩) ∧
        (o → HasKey h.nodes L key ∧ ∃ k, k.rank = key.rank ∧ ∀ d, CellIn h'.nodes L d ↔
            d = ⟨k, v⟩ ∨ CellIn h.nodes L d ∧ d.key.rank ≠ key.rank)) ∨
      (r = false ∧ h' = h ∧ (o → ¬HasKey h.nodes L key))) R A := by
  refine runs_bind (runs_rootPageID (Runs.bind (hb.runs_searchRowPtr (hb.sized.searchable hu hu') hkey hfuel hfuel) ?_))
  rintro row h' ⟨rfl, hm, n, hn, ⟨hv, -, c, hc, hr⟩ | ⟨hv, -, -, hno⟩⟩
  swap
  · rw [if_pos hv]
    exact runs_pure (.inr ⟨rfl, rfl, fun ho => (hno ho).2.2⟩)
  rw [if_neg hv]
  have ht := fun ho => (hb.tree ho).setCells hn (((hb.tree ho).ordered _ hm n hn).setValue hc v)
  refine runs_bind (runs_node hn (runs_bind (runs_deref hn fun _ => ?_)))
  refine runs_bind (runs_at? hc (runs_bind (runs_modify hn rfl (runs_pure (.inl ?_)))))
  have hmem : CellIn h'.nodes L c := ⟨_, hm, n, hn, List.mem_of_getElem? hc⟩
  refine ⟨rfl, ⟨hb.linked.setCells hn, ?_, ht⟩, rfl, rfl, ?_, ?_, fun ho => ⟨⟨c, hmem, hr ho⟩, c.key, hr ho,
    fun d => ?_⟩⟩
  · exact hb.sized.setCells hn (by simp) (by simpa using hb.sized.upper _ hm n hn) (by simp) (by simp)
  · intro q hq
    have hne : q ≠ row.pageID := fun he => hq (he ▸ hm)
    exact Function.update_of_ne hne ..
  · intro d hd
    rcases (cellIn_setCells hm d).mp hd with hd | hd
    · rcases List.mem_or_eq_of_mem_set hd with hd | rfl
      · exact .inl ⟨_, hm, n, hn, hd⟩
      · exact .inr ⟨c, hmem, rfl⟩
    · exact .inl ((cellIn_iff hm hn d).mpr (.inr hd))
  have hset : (⟨c.key, v⟩ : Cell T) ∈ n.cells.set row.cellID { c with value := v } :=
    List.mem_set (List.getElem?_eq_some_iff.mp hc).1 _
  have hnew : CellIn (Function.update h'.nodes row.pageID (some (n.setCells
      (n.cells.set row.cellID { c with value := v })))) L ⟨c.key, v⟩ :=
    (cellIn_setCells hm _).mpr (.inl hset)
  rw [Heap.set_nodes]
  constructor
  · intro hd
    by_cases hdr : d.key.rank = key.rank
    · exact .inl ((ht ho).cell_unique hd hnew (hdr.trans (hr ho).symm))
    · refine .inr ⟨(cellIn_iff hm hn d).mpr (((cellIn_setCells hm d).mp hd).imp_left fun hd => ?_), hdr⟩
      refine (List.mem_or_eq_of_mem_set hd).resolve_right ?_
      rintro rfl
      exact hdr (hr ho)
  · rintro (rfl | ⟨hd, hdr⟩)
    · exact hnew
    · refine (cellIn_setCells hm d).mpr (((cellIn_iff hm hn d).mp hd).imp_left fun hd => ?_)
      obtain ⟨j, hj, rfl⟩ := List.mem_iff_getElem.mp hd
      have hij : row.cellID ≠ j := by
        rintro rfl
        rw [List.getElem?_eq_getElem hj, Option.some.injEq] at hc
        exact hdr (hc ▸ hr ho)
      exact List.mem_iff_getElem.mpr ⟨j, by simpa using hj, List.getElem_set_ne hij _⟩

structure InsertAt (o : Prop) (deg u : ℕ) (h : Heap T) (L : Layout) (c : Cell T) (id : ℕ)
    (g : Heap T) : Prop where
  mem : id ∈ L.pages
  leaf : L.height id = 0
  lo : o → L.lo id < c.key.bound
  hi : o → c.key.bound < L.hi id
  root_eq : g.root = h.root
  avail_eq : g.avail = h.avail
  frame : ∀ q, q ≠ id → g.nodes q = h.nodes q
  balanced : Balanced o deg u g L (some id)
  cells : ∀ d, CellIn g.nodes L d ↔ d = c ∨ CellIn h.nodes L d
  pending : ∀ k, splitsPending g.nodes k id = splitsNeeded h.nodes (k + 1) id

theorem Linked.splitsPending_setCells {id : ℕ} {n : BtreeNodePage T} {cs : List (Cell T)}
    (hl : Linked deg h.nodes h.root L) (hid : id ∈ L.pages) (hn : h.nodes id = some n)
    (hlen : cs.length = n.cells.length + 1) (k : ℕ) :
    splitsPending (h.set id (n.setCells cs)).nodes k id = splitsNeeded h.nodes (k + 1) id := by
  have hok := hl.link_of hid hn
  rw [splitsPending, splitsNeeded, Heap.set_nodes, Function.update_self, hn, Option.elim_some,
    Option.elim_some, BtreeNodePage.setCells_cells, hlen,
    rootSplitNeeds_congr (BtreeNodePage.setCells_maxKeys ..), BtreeNodePage.setCells_maxKeys,
    BtreeNodePage.setCells_root, BtreeNodePage.setCells_parentID]
  by_cases hr : n.root = true
  · simp only [hr, if_true]
  · have hne : id ≠ h.root := fun he => hr (hok.root_iff.mpr he)
    obtain ⟨-, -, -, hh⟩ := hl.attached hid hne hn
    rw [hl.splitsNeeded_congr k (hok.listed hne).1 fun q hq hle => ?_]
    refine Function.update_of_ne ?_ ..
    rintro rfl
    omega

theorem Balanced.insertAt (hb : Balanced o deg u h L none) {c : Cell T}
    (hkey : o → c.key.isNaN = false) {id : ℕ} (hid : id ∈ L.pages) {n : BtreeNodePage T}
    (hn : h.nodes id = some n) (hl : n.leaf = true)
    (hord : o → L.lo id < c.key.bound ∧ c.key.bound < L.hi id ∧ ¬HasKey h.nodes L c.key) :
    InsertAt o deg u h L c id
      (h.set id (n.setCells (n.cells.insertIdx (scan c.key n.cells) c))) := by
  have hleaf := (hb.linked.link_of hid hn).leaf_iff.mp hl
  have hlen : (n.cells.insertIdx (scan c.key n.cells) c).length = n.cells.length + 1 :=
    List.length_insertIdx_of_le_length (scan_le ..) _
  have hmem : ∀ d, d ∈ n.cells.insertIdx (scan c.key n.cells) c ↔ d = c ∨ d ∈ n.cells :=
    fun d => List.mem_insertIdx (scan_le ..)
  refine ⟨hid, hleaf, fun ho => (hord ho).1, fun ho => (hord ho).2.1, rfl, rfl,
    fun q hq => Function.update_of_ne hq .., ⟨hb.linked.setCells hn, ?_, fun ho => ?_⟩, fun d => ?_,
    hb.linked.splitsPending_setCells hid hn hlen⟩
  · refine hb.sized.setCells hn (by omega) ?_ (fun hf => absurd (hl.symm.trans hf) (by simp))
      (by simp)
    have := hb.sized.upper id hid n hn
    rw [if_neg (by simp)] at this
    rw [if_pos rfl]
    omega
  · obtain ⟨hlo, hhi, hno⟩ := hord ho
    refine (hb.tree ho).setCells hn (((hb.tree ho).ordered _ hid n hn).insertCell hl (hkey ho) hlo
      hhi fun d hd hr => hno ⟨d, ⟨id, hid, n, hn, hd⟩, hr⟩)
  · rw [Heap.set_nodes, cellIn_setCells hid, hmem, cellIn_iff hid hn, or_assoc]

/-- How many pages an `insert` creates. -/
def insertNeeds (nodes : ℕ → Option (BtreeNodePage T)) (root : ℕ) (key : Vari) (f : ℕ) : ℕ∞ :=
  (leafOf nodes key f root).elim 0 (splitsNeeded nodes f)

/-- `insert` adds the cell to the leaf where the search for its key ends, and splits. -/
theorem runs_insert (hb : Balanced o deg u h L none) (hdeg : effectiveDegree deg = u) (hu : 2 ≤ u)
    {key : Vari} (hkey : o → key.isNaN = false) {v : T} {fuel k : ℕ}
    (hfuel : L.height h.root + 2 ≤ fuel) (hk : L.height h.root ≤ k) :
    Runs P s₀ (insert P.toPagerOps deg fuel v key) h
      (fun r h' => (r = false ∧ h' = h ∧ insertNeeds h.nodes h.root key (k + 1) = 0 ∧
          (o → HasKey h.nodes L key)) ∨
        (r = true ∧ (o → ¬HasKey h.nodes L key) ∧ ∃ id g, InsertAt o deg u h L ⟨key, v⟩ id g ∧
          insertNeeds h.nodes h.root key (k + 1) = splitsPending g.nodes k id ∧
          SplitPost o deg u k id g L h'))
      (fun h' => (o → ¬HasKey h.nodes L key) ∧ ∃ id g, InsertAt o deg u h L ⟨key, v⟩ id g ∧
        insertNeeds h.nodes h.root key (k + 1) = splitsPending g.nodes k id ∧
        SplitThrows o deg u k id g L h') A := by
  have hu' : u ≤ 2 ^ 15 := hdeg ▸ effectiveDegree_le deg
  refine runs_bind (runs_rootPageID (Runs.bind
    (hb.runs_searchRowPtr (hb.sized.searchable hu hu') hkey (by omega) (Nat.lt_succ_of_le hk)) ?_))
  rintro row h' ⟨rfl, hm, n, hn, ⟨hv, hpath, c, hc, hr⟩ | ⟨hv, hpath, hl, hord⟩⟩
  · rw [if_pos hv]
    refine runs_pure (.inl ⟨rfl, rfl, by rw [insertNeeds, hpath, Option.elim_none],
      fun ho => ⟨c, ?_, hr ho⟩⟩)
    exact ⟨_, hm, n, hn, List.mem_of_getElem? hc⟩
  -- the key is new, and its place is in the leaf where the search has ended
  rw [if_neg (not_not.mpr hv)]
  have hno := fun ho => (hord ho).2.2
  have hins := hb.insertAt (c := ⟨key, v⟩) hkey hm hn hl hord
  have hneeds : insertNeeds h'.nodes h'.root key (k + 1) =
      splitsNeeded h'.nodes (k + 1) row.pageID := by
    rw [insertNeeds, hpath, Option.elim_some]
  refine runs_bind (runs_node hn (runs_bind (runs_deref hn fun _ => ?_)))
  refine runs_bind (runs_require hl (runs_bind (runs_node hn (runs_bind (runs_modify hn rfl ?_)))))
  refine runs_bind (runs_mono (runs_split hu hdeg (L.height h'.root) (k := k) hins.balanced hm ?_ hfuel hk)
    ?_ ?_ fun _ hA => hA)
  · rw [hins.leaf, hins.root_eq, zero_add]
  · exact fun _ g' hg' => runs_pure (.inr ⟨rfl, hno, _, _, hins, hneeds.trans (hins.pending k).symm, hg'⟩)
  · exact fun g' hg' => ⟨hno, _, _, hins, hneeds.trans (hins.pending k).symm, hg'⟩

end Kndb.Btree
