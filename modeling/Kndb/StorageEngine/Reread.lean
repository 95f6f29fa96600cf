import Kndb.StorageEngine.Lasting

namespace Kndb

open Imp Imp.Prog Btree LawfulCache Pager FreeSpaceMap

namespace Btree

variable {nodes nodes' : ℕ → Option (BtreeNodePage Tuple)} {deg u root : ℕ} {L : Layout} {o : Prop}
variable {n n' : BtreeNodePage Tuple} {M : Rank → Option Tuple} {S : Set ℕ}

/-- The nodes that come back. -/
def NodesBack (nodes nodes' : ℕ → Option (BtreeNodePage Tuple)) : Prop :=
  ∀ x, Option.Rel Page.NodeBack (nodes x) (nodes' x)

theorem NodesBack.exists_back {x : ℕ} (h : NodesBack nodes nodes') (hn : nodes x = some n) :
    ∃ n', nodes' x = some n' ∧ Page.NodeBack n n' := by
  have hx := h x
  rw [hn] at hx
  generalize nodes' x = o at hx
  cases hx with
  | some hb => exact ⟨_, rfl, hb⟩

theorem NodesBack.exists_of_back {x : ℕ} (h : NodesBack nodes nodes') (hn : nodes' x = some n') :
    ∃ n, nodes x = some n ∧ Page.NodeBack n n' := by
  have hx := h x
  rw [hn] at hx
  generalize nodes x = o at hx
  cases hx with
  | some hb => exact ⟨_, rfl, hb⟩

theorem NodesBack.ordered {x : ℕ} (hb : Page.NodeBack n n') (h : Ordered L x n) : Ordered L x n' := by
  obtain ⟨id, rfl, -⟩ := hb
  exact ⟨h.keys, h.between, h.kids_lo, h.kids_hi⟩

/-- The ids of pages have no more than four bytes, so that the links stay. -/
theorem NodesBack.linked (h : NodesBack nodes nodes') (hl : Linked deg nodes root L)
    (hlt : ∀ x ∈ L.pages, x < 2 ^ 32) : Linked deg nodes' root L where
  root_mem := hl.root_mem
  top := hl.top
  link x hx := by
    obtain ⟨n, hn, ok⟩ := hl.link x hx
    obtain ⟨n', hn', id, rfl, hid⟩ := h.exists_back hn
    refine ⟨_, hn', ok.degree, ok.leaf_iff, ok.leaf_children, ok.children_nodup, fun c hc => ?_, ok.root_iff,
      fun hne => ?_⟩
    · obtain ⟨hmem, hheight, k, hk, hparent⟩ := ok.kids c hc
      obtain ⟨k', hk', idk, rfl, hidk⟩ := h.exists_back hk
      exact ⟨hmem, hheight, _, hk', (hidk (hparent ▸ hlt x hx)).trans hparent⟩
    · obtain ⟨hmem, q, hq, hxq⟩ := ok.listed hne
      obtain rfl := hid (hlt _ hmem)
      obtain ⟨q', hq', idq, rfl, -⟩ := h.exists_back hq
      exact ⟨hmem, _, hq', hxq⟩

theorem NodesBack.sized (h : NodesBack nodes nodes') {ovf : Option ℕ} (hs : Sized u nodes root L ovf) :
    Sized u nodes' root L ovf where
  lower x hx hne n' hn' := by
    obtain ⟨n, hn, id, rfl, -⟩ := h.exists_of_back hn'
    exact hs.lower x hx hne n hn
  upper x hx n' hn' := by
    obtain ⟨n, hn, id, rfl, -⟩ := h.exists_of_back hn'
    exact hs.upper x hx n hn
  arity x hx n' hn' := by
    obtain ⟨n, hn, id, rfl, -⟩ := h.exists_of_back hn'
    exact hs.arity x hx n hn
  root_nonempty n' hn' := by
    obtain ⟨n, hn, id, rfl, -⟩ := h.exists_of_back hn'
    exact hs.root_nonempty n hn

theorem NodesBack.balanced (h : NodesBack nodes nodes') {a a' : ℕ∞}
    (hb : Balanced o deg u ⟨nodes, root, a⟩ L none) (hlt : ∀ x ∈ L.pages, x < 2 ^ 32) :
    Balanced o deg u ⟨nodes', root, a'⟩ L none where
  linked := h.linked hb.linked hlt
  sized := h.sized hb.sized
  tree ho := by
    have ht := hb.tree ho
    refine ⟨h.linked hb.linked hlt, ht.root_lo, ht.root_hi, fun x hx n' hn' => ?_⟩
    obtain ⟨n, hn, hback⟩ := h.exists_of_back hn'
    exact NodesBack.ordered hback (ht.ordered x hx n hn)

theorem NodesBack.cellIn_iff (h : NodesBack nodes nodes') (c : Cell Tuple) : CellIn nodes' L c ↔ CellIn nodes L c := by
  constructor
  · rintro ⟨x, hx, n', hn', hc⟩
    obtain ⟨n, hn, id, rfl, -⟩ := h.exists_of_back hn'
    exact ⟨x, hx, n, hn, hc⟩
  · rintro ⟨x, hx, n, hn, hc⟩
    obtain ⟨n', hn', id, rfl, -⟩ := h.exists_back hn
    exact ⟨x, hx, _, hn', hc⟩

theorem NodesBack.represents (h : NodesBack nodes nodes') (hM : Represents nodes L M) : Represents nodes' L M := by
  intro r v
  rw [hM r v]
  exact exists_congr fun c => and_congr_left fun _ => (h.cellIn_iff c).symm

theorem NodesBack.leafOf_eq (h : NodesBack nodes nodes') (key : Vari) (f : ℕ) :
    leafOf nodes' key f = leafOf nodes key f := by
  induction f with
  | zero => rfl
  | succ f ih =>
    funext x
    rw [leafOf, leafOf, ih]
    have hx := h x
    generalize nodes x = a at hx
    generalize nodes' x = b at hx
    cases hx with
    | none => rfl
    | some hb =>
      obtain ⟨id, rfl, -⟩ := hb
      rfl

theorem NodesBack.splitsNeeded_eq (h : NodesBack nodes nodes') (hl : Linked deg nodes root L)
    (hlt : ∀ x ∈ L.pages, x < 2 ^ 32) (f : ℕ) {x : ℕ} (hx : x ∈ L.pages) :
    splitsNeeded nodes' f x = splitsNeeded nodes f x := by
  induction f generalizing x with
  | zero => rfl
  | succ f ih =>
    obtain ⟨n, hn, ok⟩ := hl.link x hx
    obtain ⟨n', hn', id, rfl, hid⟩ := h.exists_back hn
    rw [splitsNeeded, splitsNeeded, hn, hn', Option.elim_some, Option.elim_some]
    by_cases hroot : n.root = true
    · rw [if_pos hroot, if_pos (show (n.setParent id).root = true from hroot)]
      rfl
    · have hmem := (ok.listed fun heq => hroot (ok.root_iff.mpr heq)).1
      obtain rfl := hid (hlt _ hmem)
      rw [if_neg hroot, if_neg (show ¬(n.setParent n.parentID).root = true from hroot)]
      change (if _ then 0 else splitsNeeded nodes' f n.parentID + 1) = _
      rw [ih hmem]
      rfl

theorem NodesBack.insertNeeds_eq (h : NodesBack nodes nodes') (hl : Linked deg nodes root L)
    (hlt : ∀ x ∈ L.pages, x < 2 ^ 32) (key : Vari) (f : ℕ) :
    insertNeeds nodes' root key f = insertNeeds nodes root key f := by
  rw [insertNeeds, insertNeeds, h.leafOf_eq]
  cases hleaf : leafOf nodes key f root with
  | none => rfl
  | some id => exact h.splitsNeeded_eq hl hlt f (leafOf_mem hl hl.root_mem hleaf).1

end Btree

/-- `m'` has the pages that come back of those of `m`. -/
structure Mem.Back (m m' : Mem) : Prop where
  blocks : m'.blocks = m.blocks
  page : ∀ x, Option.Rel Page.Back (m.view x) (m'.view x)
  lasts : ∀ x p, m'.view x = some p → p.Lasts

namespace Mem.Back

variable {m m' : Mem} {N x : ℕ} {p : Page}

theorem exists_back (h : Back m m') (hp : m.view x = some p) : ∃ q, m'.view x = some q ∧ p.Back q := by
  have hx := h.page x
  rw [hp] at hx
  generalize m'.view x = o at hx
  cases hx with
  | some hb => exact ⟨_, rfl, hb⟩

theorem fsm (h : Back m m') {b : FSMPage} (hp : m.view x = some (.fsm b)) :
    m'.view x = some (.fsm (fsmAt m'.view x)) ∧ FSMPage.Extends b (fsmAt m'.view x) ∧
      (fsmAt m'.view x).Sound := by
  obtain ⟨q, hq, hb⟩ := h.exists_back hp
  cases q with
  | fsm q =>
    rw [fsmAt_of_eq hq]
    exact ⟨hq, hb, h.lasts x _ hq⟩
  | _ => cases hb

theorem table (h : Back m m') {t : TablePage} (hp : m.view x = some (.table t)) :
    ∃ t', m'.view x = some (.table t') ∧ TablePage.Same t t' := by
  obtain ⟨q, hq, hb⟩ := h.exists_back hp
  cases q with
  | table t' => exact ⟨t', hq, hb⟩
  | _ => cases hb

theorem schema (h : Back m m') {s : SchemaPage} (hp : m.view x = some (.schema s)) :
    m'.view x = some (.schema s) := by
  obtain ⟨q, hq, hb⟩ := h.exists_back hp
  cases q with
  | schema s' =>
    obtain rfl : s' = s := hb
    exact hq
  | _ => cases hb

theorem inv (h : Back m m') (hinv : Inv m N) : Inv m' N ∧ liveIds m' = liveIds m := by
  have hblocks : m'.blocks = N * FSMPage.getBlocksInPage := h.blocks.trans hinv.blocks
  have hfsm : ∀ {q}, IsFSM N q → m'.view q = some (.fsm (fsmAt m'.view q)) ∧
      FSMPage.Extends (fsmAt m.view q) (fsmAt m'.view q) ∧ (fsmAt m'.view q).Sound := by
    intro q hq
    obtain ⟨chain, hchain⟩ := hinv.fsm_of_lt hq.2
    exact h.fsm (hchain.page q hq)
  have hbits : ∀ q, IsFSM N q → (fsmAt m'.view q).freeBits = (fsmAt m.view q).freeBits := by
    intro q hq
    obtain ⟨chain, hchain⟩ := hinv.fsm_of_lt hq.2
    exact (hfsm hq).2.1.freeBits (hchain.sound q hq)
  have hfree : freeIds m'.view N = freeIds m.view N := freeIds_congr hbits
  refine ⟨⟨hblocks, hinv.le, fun hN => ?_⟩, ?_⟩
  · obtain ⟨chain, hchain⟩ := hinv.fsm hN
    have hnext : ∀ q, IsFSM N q → next m'.view q = next m.view q := fun q hq => (hfsm hq).2.1.nextPageID
    refine ⟨chain, ⟨hchain.pos, hchain.id_lt, fun q hq => (hfsm hq).1, fun q hq => (hfsm hq).2.2, fun q hq => ?_⟩,
      hchain.lists.congr (hnext 0 hchain.isFSM_zero) fun q hq => hnext q ((hchain.mem_chain q).mp hq).1, fun q => ?_⟩
    · exact (hfsm hq).2.1.pageID.trans (hchain.pageID_eq q hq)
    · rw [hchain.mem_chain]
      refine and_congr_right fun hq => ?_
      rw [(hfsm hq).2.1.freeBlocks]
  · ext y
    rw [mem_liveIds hblocks, mem_liveIds hinv.blocks, hfree]

theorem nodes (h : Back m m') (hinv : Inv m N) : NodesBack (nodeAt m) (nodeAt m') := by
  intro y
  have hlive := (h.inv hinv).2
  by_cases hy : y ∈ liveIds m
  · rw [nodeAt, nodeAt, hlive, if_pos hy, if_pos hy]
    have hpage := h.page y
    generalize m.view y = a at hpage
    generalize m'.view y = b at hpage
    cases hpage with
    | none => exact .none
    | @some p q hb =>
      cases p <;> cases q <;> first | exact .some hb | exact .none | cases hb
  · rw [nodeAt, nodeAt, hlive, if_neg hy, if_neg hy]
    exact .none

end Mem.Back

namespace Table

variable {m m' : Mem} {N id : ℕ} {p : TablePage} {t : Table} {types types' : Tuple} {L : Layout} {S : Set ℕ}
variable {M : Rank → Option Tuple}

def SameTags (types types' : Tuple) : Prop := types'.map variant_to_type_id = types.map variant_to_type_id

theorem SameTags.sameTypes_iff (h : SameTags types types') (v : Tuple) :
    sameTypes v types' = true ↔ sameTypes v types = true := by
  rw [Kndb.sameTypes_iff, Kndb.sameTypes_iff, h]

theorem SameTags.length_eq (h : SameTags types types') : types'.length = types.length := by
  simpa using congrArg List.length h

theorem SameTags.ne_nil (h : SameTags types types') (hne : types ≠ []) : types' ≠ [] := by
  rw [← List.length_pos_iff] at hne ⊢
  exact h.length_eq ▸ hne

theorem SameTags.tableDegree_eq (h : SameTags types types') : tableDegree types' = tableDegree types := by
  cases types with
  | nil =>
    obtain rfl := List.map_eq_nil_iff.mp h
    rfl
  | cons type types =>
    cases types' with
    | nil => cases h
    | cons type' types' => exact calculateDegree_congr (List.cons.inj h).1 (Kndb.sameTypes_iff.mpr h)

theorem TableAt.back (h : TableAt m id p) (hb : m.Back m') (hinv : Inv m N) :
    ∃ p', TableAt m' id p' ∧ TablePage.Same p p' := by
  obtain ⟨p', hp', hsame⟩ := hb.table h.2
  exact ⟨p', ⟨(hb.inv hinv).2 ▸ h.1, hp'⟩, hsame⟩

theorem TableOk.back (h : TableOk m t types L M) (hb : m.Back m') (hinv : Inv m N) :
    ∃ types', SameTags types types' ∧ TableOk m' t types' L M := by
  obtain ⟨⟨pageID, types', btreePageID, numTuples⟩, hp', hid, htags, hroot, hnum⟩ := h.page.back hb hinv
  have hsame : SameTags types types' := htags
  obtain rfl : pageID = t.tablePageID := hid
  obtain rfl : btreePageID = t.rootPageID := hroot
  obtain rfl : numTuples = (keys M).ncard := hnum
  have hnodes := hb.nodes hinv
  refine ⟨types', hsame, hp', hsame.ne_nil h.types_ne, h.degree.trans hsame.tableDegree_eq.symm, ?_,
    hnodes.represents h.represents, fun r v hv => ?_⟩
  · exact hnodes.balanced h.balanced fun x hx => lt_of_mem_liveIds hinv (h.live hx)
  · obtain ⟨hrow, hkey⟩ := h.rows r v hv
    exact ⟨(hsame.sameTypes_iff v).mpr hrow, hkey⟩

theorem TableOk.pagesSuffice_back (h : TableOk m t types L M) (hb : m.Back m') (hinv : Inv m N) (op : TupleOp) :
    PagesSuffice m' t.rootPageID op ↔ PagesSuffice m t.rootPageID op := by
  have hneeds : ∀ key f, insertNeeds (nodeAt m') t.rootPageID key f = insertNeeds (nodeAt m) t.rootPageID key f :=
    (hb.nodes hinv).insertNeeds_eq h.balanced.linked fun x hx => lt_of_mem_liveIds hinv (h.live hx)
  rw [PagesSuffice, PagesSuffice, remaining, remaining, (hb.inv hinv).2]
  simp only [hneeds]

theorem Nodes.back (h : Nodes m S) (hb : m.Back m') (hinv : Inv m N) : Nodes m' S where
  node x hx := by
    obtain ⟨n, hn⟩ := h.node x hx
    obtain ⟨n', hn', -⟩ := (hb.nodes hinv).exists_back hn
    exact ⟨n', hn'⟩
  links x hx n' hn' := by
    obtain ⟨n, hn, id, rfl, hid⟩ := (hb.nodes hinv).exists_of_back hn'
    have hlinks := h.links x hx n hn
    refine ⟨hlinks.children, fun hroot => ?_⟩
    have hmem := hlinks.parent hroot
    obtain ⟨k, hk⟩ := h.node _ hmem
    obtain rfl := hid (lt_of_mem_liveIds hinv (nodeAt_eq_some.mp hk).1)
    exact hmem

theorem Rooted.back (h : Rooted m S t) (hb : m.Back m') (hinv : Inv m N) : Rooted m' S t := by
  obtain ⟨hroot, p, hp, hne, hmem⟩ := h
  obtain ⟨p', hp', hsame⟩ := hp.back hb hinv
  exact ⟨hroot, p', hp', SameTags.ne_nil hsame.types hne, hsame.btreePageID ▸ hmem⟩

end Table
end Kndb
