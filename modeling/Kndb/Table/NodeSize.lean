import Kndb.Table.Typed

namespace Kndb

namespace Btree

open Imp Imp.Prog

variable {σ T : Type} {P : LawfulPager σ T} {s₀ : σ} {h : Heap T} {A : Stop → Prop} {deg : ℕ}
variable {key : Vari} {n : BtreeNodePage T} {cs : List (Cell T)}

theorem scan_eq_length (hlt : ∀ c ∈ cs, c.key.lt key = true) : scan key cs = cs.length := by
  induction cs with
  | nil => rfl
  | cons c cs ih =>
    rw [scan, if_pos (hlt c (List.mem_cons_self ..)), ih fun d hd => hlt d (List.mem_cons_of_mem _ hd)]
    rfl

theorem runs_searchRowPtr_behind {R : Heap T → Prop} {fuel p : ℕ} (hn : h.nodes p = some n)
    (hleaf : n.leaf = true) (hkids : n.children = []) (hlt : ∀ c ∈ n.cells, c.key.lt key = true) :
    Runs P s₀ (searchRowPtr P.toPagerOps key (fuel + 1) p) h (fun row h' => h' = h ∧ row = ⟨p, CELLID_INVALID⟩)
      R A := by
  have hnone : n.cells[scan key n.cells]? = none := by
    rw [scan_eq_length hlt]
    exact List.getElem?_eq_none_iff.mpr le_rfl
  rw [searchRowPtr]
  refine runs_bind (runs_node hn (runs_bind (runs_deref hn fun _ => ?_)))
  refine runs_bind (runs_require (by simp [hkids]) (runs_bind (runs_require (by simp [hleaf])
    (runs_bind (runs_require (by simp [hleaf]) ?_)))))
  dsimp only
  rw [hnone, if_neg (by simp), if_pos hleaf]
  exact runs_pure ⟨rfl, rfl⟩

/-- Without a page left the cell is put behind the others, whether `insert` returns or throws. -/
theorem runs_insert_behind {fuel : ℕ} (v : T) (hn : h.nodes h.root = some n) (hroot : n.root = true)
    (hleaf : n.leaf = true) (hkids : n.children = []) (hlt : ∀ c ∈ n.cells, c.key.lt key = true)
    (havail : h.avail = 0) : Runs P s₀ (insert P.toPagerOps deg (fuel + 1) v key) h
      (fun r h' => r = true ∧ h' = h.set h.root (n.setCells (n.cells ++ [⟨key, v⟩])))
      (fun h' => h' = h.set h.root (n.setCells (n.cells ++ [⟨key, v⟩]))) A := by
  refine runs_bind (runs_rootPageID (Runs.bind (runs_searchRowPtr_behind hn hleaf hkids hlt) ?_))
  rintro row h' ⟨rfl, rfl⟩
  rw [if_neg (by simp)]
  refine runs_bind (runs_node hn (runs_bind (runs_deref hn fun _ => ?_)))
  refine runs_bind (runs_require hleaf (runs_bind (runs_node hn (runs_bind (runs_modify hn rfl ?_)))))
  have hins : n.cells.insertIdx (scan key n.cells) ⟨key, v⟩ = n.cells ++ [⟨key, v⟩] := by
    rw [scan_eq_length hlt, List.insertIdx_length_self]
  rw [hins]
  have hat : (h'.set h'.root (n.setCells (n.cells ++ [⟨key, v⟩]))).nodes h'.root = some _ := Function.update_self ..
  by_cases hlen : (n.setCells (n.cells ++ [⟨key, v⟩])).cells.length < (n.setCells (n.cells ++ [⟨key, v⟩])).maxKeys
  · exact runs_bind (runs_split_of_lt hat hlen (runs_pure ⟨rfl, rfl⟩))
  · rw [split]
    refine runs_bind (runs_bind (runs_node hat (runs_bind (runs_deref hat fun _ => ?_))))
    rw [if_neg hlen]
    refine runs_bind ?_
    rw [splitFull, if_neg (by simp [hroot]), splitRoot]
    refine runs_bind (runs_new (fun id a _ ha => ?_) fun _ => rfl)
    rw [Heap.set_avail, havail] at ha
    exact absurd ha.symm (by simp)

end Btree

namespace Table

open Imp Imp.Prog Btree LawfulCache Pager BtreeNodePage Codec

variable {σ : Type} {C : LawfulCache σ} {m m' : Mem} {N p : ℕ} {st st' : TableState σ} {t : Table}
variable {types values : Tuple} {L L' : Layout} {n : BtreeNodePage Tuple} {x : Except Exn (Reply Tuple)}
variable {op : TupleOp} {fuel : ℕ}

/-- The states that calls lead to on a new table with the columns `types`, all of them such that `cond` holds. -/
inductive Calls (C : LawfulCache σ) (types : Tuple) (cond : TableState σ → TupleOp → Prop) : TableState σ → Prop
  | create {s s' : σ} {live : Finset ℕ} {name : List Byte} {t : Table} : Pager.Run C s live →
      create C.toCacheOps name types s = .ok t s' → Calls C types cond ⟨s', t⟩
  | call {st st' : TableState σ} {op : TupleOp} {fuel : ℕ} {x : Except Exn (Reply Tuple)} :
      Calls C types cond st → cond st op → op.run C.toCacheOps fuel st = .answer x st' → Calls C types cond st'

/-- A call that passes the checks finds the pages it needs. -/
def Supplied (C : LawfulCache σ) (types : Tuple) (st : TableState σ) (op : TupleOp) : Prop :=
  op.error types = none → PagesSuffice (C.mem st.pager) st.table.rootPageID op

/-- `toBytes` writes every node of the tree, within a page. -/
def NodesFit (C : LawfulCache σ) (st : TableState σ) : Prop :=
  ∀ p n, InTree (nodeAt (C.mem st.pager)) st.table.rootPageID p → nodeAt (C.mem st.pager) p = some n →
    ∀ J, ∃ out, n.toBytes J [] = .ok () out ∧ out.length = n.bytes ∧ out.length ≤ PG_SZ

theorem recordInsert_page {b : BtreeState σ} {root k : ℕ} (st : TableState σ) (ok : C.Ok b.pager)
    (hinv : Inv (C.mem b.pager) N) (hpage : TableAt (C.mem b.pager) st.table.tablePageID
      ⟨st.table.tablePageID, types, root, k⟩) :
    ∃ s' k', C.Ok s' ∧ Inv (C.mem s') N ∧ nodeAt (C.mem s') = nodeAt (C.mem b.pager) ∧
      liveIds (C.mem s') = liveIds (C.mem b.pager) ∧
      TableAt (C.mem s') st.table.tablePageID ⟨st.table.tablePageID, types, b.rootPageID, k'⟩ ∧
      recordInsert C.toCacheOps root (TupleOp.afterTree st b) =
        .ok () { TupleOp.afterTree st b with pager := s' } := by
  obtain ⟨s', ok', hm, hrec⟩ := recordInsert_eq (TupleOp.afterTree st b) ok hinv hpage root
  obtain ⟨k', hk'⟩ : ∃ k', recorded ⟨st.table.tablePageID, types, root, k⟩ root b.rootPageID =
      ⟨st.table.tablePageID, types, b.rootPageID, k'⟩ := by
    rw [recorded]
    split_ifs with hroot
    · exact ⟨_, rfl⟩
    · rw [not_not.mp hroot]
      exact ⟨_, rfl⟩
  obtain ⟨hinv', hlive, hat, hpage'⟩ := hpage.set hinv ⟨st.table.tablePageID, types, b.rootPageID, k'⟩
  have hmem : C.mem s' = (C.mem b.pager).set st.table.tablePageID
      (.table ⟨st.table.tablePageID, types, b.rootPageID, k'⟩) := hk' ▸ hm
  rw [← hmem] at hinv' hlive hat hpage'
  exact ⟨s', k', ok', hinv', hat, hlive, hpage', hrec⟩

/-- A call on the tree leaves typed cells behind, and so a table whose page names the root. -/
theorem TypedOk.advance {m₁ : Mem} {r : Reply Tuple} {root' k : ℕ} (h : TypedOk m t types L)
    (hat : nodeAt m' = nodeAt m₁) (hlive : liveIds m' = liveIds m₁)
    (hpage : TableAt m' t.tablePageID ⟨t.tablePageID, types, root', k⟩) (herr : op.error types = none)
    (hpost : StepPost False t.degree (effectiveDegree t.degree) (treeAt m t.rootPageID) L op.treeOp r
      (treeAt m₁ root') L') (hcells : KeepsCells (nodeAt m) L op.treeOp (nodeAt m₁) L') :
    TypedOk m' { t with rootPageID := root' } types L' where
  page := ⟨k, hpage⟩
  types_ne := h.types_ne
  degree := h.degree
  balanced := by
    rw [treeAt, hat, remaining, hlive]
    exact hpost.balanced
  cells := by
    rw [hat]
    exact hcells _ (TupleOp.keeps_typedCell herr h.types_ne) h.cells

theorem TypedOk.call_cases (ok : C.Ok st.pager) (hinv : Inv (C.mem st.pager) N)
    (h : TypedOk (C.mem st.pager) st.table types L) (hdeg : 2 ≤ effectiveDegree (tableDegree types))
    (hrun : op.run C.toCacheOps fuel st = .answer x st') :
    (op.error types = none ∧ ¬PagesSuffice (C.mem st.pager) st.table.rootPageID op ∧ x = .error sizeLimit) ∨
      C.Ok st'.pager ∧ (∃ N, Inv (C.mem st'.pager) N) ∧ ∃ L', TypedOk (C.mem st'.pager) st'.table types L' := by
  obtain ⟨k, hpage⟩ := h.page
  -- with more fuel the call ends in the same way
  have hmore : op.run C.toCacheOps (max fuel (L.height st.table.rootPageID + 2)) st = .answer x st' :=
    ((op.run_approx C.toCacheOps (le_max_left ..)).eq (hrun ▸ Outcome.answer_ne_timeout)).trans hrun
  obtain ⟨s₁, ok₁, hm₁, heq⟩ := op.run_eq st ok hinv hpage h.types_ne
    (max fuel (L.height st.table.rootPageID + 2))
  rw [hmore] at heq
  cases herr : op.error types with
  | some e =>
    rw [show op.error (TablePage.mk _ types _ _).types = some e from herr] at heq
    obtain ⟨-, rfl⟩ := Outcome.answer_inj (heq.trans (show _ = Outcome.answer (.error e) _ from rfl))
    exact .inr ⟨ok₁, ⟨N, hm₁ ▸ hinv⟩, L, hm₁ ▸ h⟩
  | none =>
    rw [show op.error (TablePage.mk _ types _ _).types = none from herr] at heq
    have hu : 2 ≤ effectiveDegree st.table.degree := by rwa [h.degree]
    rcases onTree_of_balanced op ok₁ (hm₁ ▸ hinv) (hm₁ ▸ h.balanced) hu False.elim (le_max_right fuel _) with
      ⟨r, b, hb, ok', ⟨N', hinv'⟩, hf, -, L', hpost, hcells⟩ | ⟨⟨hno, -⟩, b, hb⟩
    swap
    · obtain ⟨rfl, -⟩ := Outcome.answer_inj (heq.trans
        (show _ = Outcome.answer (.error _) _ from TupleOp.body_of_throw ⟨s₁, st.table⟩ hb))
      exact .inl ⟨rfl, hm₁ ▸ hno, rfl⟩
    right
    rw [hm₁] at hf hpost hcells
    -- the row is counted on the table page, or the page stays as it is
    by_cases hins : op.inserted r = true
    · obtain ⟨s₂, k', ok₂, hinv₂, hat₂, hlive₂, hp₂, hrec⟩ := recordInsert_page ⟨s₁, st.table⟩ ok' hinv'
        (hpage.frame hf)
      obtain ⟨-, rfl⟩ := Outcome.answer_inj (heq.trans
        (show _ = Outcome.answer (.ok _) _ from TupleOp.body_of_inserted ⟨s₁, st.table⟩ hb hins hrec))
      exact ⟨ok₂, ⟨N', hinv₂⟩, L', h.advance hat₂ hlive₂ hp₂ herr hpost hcells⟩
    · rw [Bool.not_eq_true] at hins
      obtain ⟨-, rfl⟩ := Outcome.answer_inj (heq.trans
        (show _ = Outcome.answer (.ok _) _ from TupleOp.body_of_not_inserted ⟨s₁, st.table⟩ hb hins))
      have hroot : b.rootPageID = st.table.rootPageID := root_eq_of_not_inserted hpost hins
      exact ⟨ok', ⟨N', hinv'⟩, L', h.advance rfl rfl (hroot ▸ hpage.frame hf) herr hpost hcells⟩

theorem Created.typedOk (h : Created m m' types t) (hne : types ≠ []) : TypedOk m' t types (.single t.rootPageID) :=
  (h.tableOk hne).typed

/-- Whatever else holds of the calls, they leave a table behind if they have their pages or do not throw for
want of any. -/
theorem Calls.typedOk {cond : TableState σ → TupleOp → Prop} (h : Calls C types cond st)
    (hdeg : 2 ≤ effectiveDegree (tableDegree types))
    (hcond : ∀ st op, cond st op → Supplied C types st op ∨ ¬Gives C st op (.error sizeLimit)) :
    C.Ok st.pager ∧ (∃ N, Inv (C.mem st.pager) N) ∧ ∃ L, TypedOk (C.mem st.pager) st.table types L := by
  induction h with
  | create hrun hcreate =>
    obtain ⟨ok, hne, hnew⟩ := created_of_create hrun hcreate
    exact ⟨ok, hnew.inv, _, hnew.typedOk hne⟩
  | call _ hop hrun ih =>
    obtain ⟨ok, ⟨N, hinv⟩, L, htyped⟩ := ih
    rcases htyped.call_cases ok hinv hdeg hrun with ⟨herr, hno, rfl⟩ | hnext
    · rcases hcond _ _ hop with hpages | hgives
      · exact absurd (hpages herr) hno
      · exact absurd ⟨_, _, hrun⟩ hgives
    · exact hnext

theorem TypedOk.bytes_le {L : Layout} (h : TypedOk m t types L) (hsize : cellSizeOf types < 2 ^ 16)
    (hdeg : 2 ≤ tableDegree types) (hp : p ∈ L.pages) (hn : nodeAt m p = some n) : n.bytes ≤ PG_SZ := by
  have hlen := h.balanced.sized.upper p hp n hn
  have hdegree : effectiveDegree t.degree = tableDegree types := by
    have := tableDegree_le types
    rw [h.degree]
    exact effectiveDegree_of_le (by omega) (by omega)
  rw [if_neg (by simp), hdegree, Nat.add_zero] at hlen
  exact bytes_le_of_typed hsize hdeg (fun c hc => h.cells c ⟨p, hp, n, hn, hc⟩) hlen

/-- If all insertions find the pages they need, every node is written within a page in every state. -/
theorem nodesFit_of_supplied (hsize : cellSizeOf types < 2 ^ 16) (hdeg : 2 ≤ tableDegree types)
    (h : Calls C types (Supplied C types) st) : NodesFit C st := by
  intro p n hp hn J
  have hu := effectiveDegree_tableDegree_ge hdeg
  obtain ⟨-, ⟨N, hinv⟩, L, htyped⟩ := h.typedOk hu fun _ _ => .inl
  have hpage := mem_of_inTree htyped.balanced.linked hp
  have henc := htyped.encodable hinv hu hpage hn
  have hbytes : (n.setParent (n.parentID % 2 ^ 32)).bytes ≤ PG_SZ :=
    htyped.bytes_le (n := n) hsize hdeg hpage hn
  obtain ⟨out, hout, hw⟩ := (henc.writes J).fits [] (by rwa [List.length_nil, Nat.zero_add])
  rw [toBytes_setParent, List.nil_append] at hw
  exact ⟨out, hw, hout, hout.trans_le hbytes⟩

/-- A table of one column in an empty file, before and after the first row. -/
theorem nodesFit_int : ∃ t m st', create Mem.cache.toCacheOps [] [.int 0] ⟨fun _ => none, 0⟩ = .ok t m ∧
    TupleOp.run Mem.cache.toCacheOps 2 (.insert [.int 5]) ⟨m, t⟩ = .ok (.changed true) st' ∧
    NodesFit Mem.cache ⟨m, t⟩ ∧ NodesFit Mem.cache st' := by
  obtain ⟨t, m, hcreate, ok, hnew⟩ := exists_create run_empty (by rw [remaining_empty]; decide)
    (show TablePage.Accepts [.int 0] from ⟨by simp, by decide⟩)
  obtain ⟨st', hrun⟩ := exists_insert_first [.int 5] ok hnew (by simp) (by decide) (by decide) rfl
  have hcalls : Calls Mem.cache [.int 0] (Supplied Mem.cache [.int 0]) ⟨m, t⟩ := .create run_empty hcreate
  have hdeg : 2 ≤ effectiveDegree t.degree := by
    rw [hnew.degree]
    decide
  exact ⟨t, m, st', hcreate, hrun, nodesFit_of_supplied (by decide) (by decide) hcalls,
    nodesFit_of_supplied (by decide) (by decide) (hcalls.call (x := .ok (.changed true))
      (fun _ => pagesSuffice_new hdeg hnew.root _) hrun)⟩

def rootLeaf (t : Table) (cs : List (Cell Tuple)) : BtreeNodePage Tuple :=
  (BtreeNodePage.new t.degree PGID_INVALID true true t.rootPageID).setCells cs

theorem encodable_rootLeaf {cs : List (Cell Tuple)} (hdeg : t.degree < 2 ^ 16) (hlen : cs.length < 2 ^ 32)
    (hcells : ∀ c ∈ cs, TypedCell types c) : (rootLeaf t cs).Encodable where
  degree_lt := hdeg
  parentID_lt := show PGID_INVALID < 2 ^ 32 by decide
  numCells_lt := hlen
  children_lt c hc := absurd hc List.not_mem_nil
  leaf _ := rfl
  inner hleaf := by cases hleaf
  empty hleaf := by cases hleaf
  keys c hc c' hc' := (hcells c hc).key.trans (hcells c' hc').key.symm
  values c hc c' hc' :=
    sameTypes_iff.mpr ((sameTypes_iff.mp (hcells c hc).value).trans (sameTypes_iff.mp (hcells c' hc').value).symm)

/-- A table for which no page is left and whose root is a leaf with the cells `cs`. -/
structure LastLeaf (C : LawfulCache σ) (types : Tuple) (cs : List (Cell Tuple)) (st : TableState σ) : Prop where
  ok : C.Ok st.pager
  inv : ∃ N, Inv (C.mem st.pager) N
  full : remaining (C.mem st.pager) = 0
  page : ∃ k, TableAt (C.mem st.pager) st.table.tablePageID ⟨st.table.tablePageID, types, st.table.rootPageID, k⟩
  types_ne : types ≠ []
  degree : st.table.degree = tableDegree types
  root : nodeAt (C.mem st.pager) st.table.rootPageID = some (rootLeaf st.table cs)

theorem LastLeaf.setCells {cs cs' : List (Cell Tuple)} {b : BtreeState σ} {s' : σ} {k : ℕ}
    (h : LastLeaf C types cs st) (ok : C.Ok s') (hinv : Inv (C.mem s') N)
    (hheap : heap (nodePager C) b =
      (treeAt (C.mem st.pager) st.table.rootPageID).set st.table.rootPageID (rootLeaf st.table cs'))
    (hat : nodeAt (C.mem s') = nodeAt (C.mem b.pager)) (hlive : liveIds (C.mem s') = liveIds (C.mem b.pager))
    (hpage : TableAt (C.mem s') st.table.tablePageID ⟨st.table.tablePageID, types, b.rootPageID, k⟩) :
    LastLeaf C types cs' ⟨s', { st.table with rootPageID := b.rootPageID }⟩ := by
  have hroot : b.rootPageID = st.table.rootPageID := congrArg Heap.root hheap
  have hnodes : nodeAt (C.mem b.pager) = _ := congrArg Heap.nodes hheap
  have havail : ((remaining (C.mem b.pager) : ℕ) : ℕ∞) = (remaining (C.mem st.pager) : ℕ) := congrArg Heap.avail hheap
  refine ⟨ok, ⟨N, hinv⟩, ?_, ⟨k, hpage⟩, h.types_ne, h.degree, ?_⟩
  · change remaining (C.mem s') = 0
    rw [remaining, hlive]
    exact (Nat.cast_inj.mp havail).trans h.full
  · change nodeAt (C.mem s') b.rootPageID = _
    rw [hat, hnodes, hroot, Heap.set_nodes, Function.update_self]

theorem LastLeaf.insert {cs : List (Cell Tuple)} (h : LastLeaf C types cs st) (values : Tuple)
    (herr : tupleError types values = none) (hlt : ∀ c ∈ cs, c.key.lt (values.headD (.int 0)) = true) :
    ∃ x st', (TupleOp.insert values).run C.toCacheOps 1 st = .answer x st' ∧
      LastLeaf C types (cs ++ [⟨values.headD (.int 0), values⟩]) st' := by
  obtain ⟨N, hinv⟩ := h.inv
  obtain ⟨k, hpage⟩ := h.page
  obtain ⟨s₁, ok₁, hm₁, heq⟩ := TupleOp.run_eq st h.ok hinv hpage h.types_ne 1 (.insert values)
  rw [show TupleOp.error (TablePage.mk _ types _ _).types (.insert values) = none from herr] at heq
  have hheap : heap (nodePager C) ⟨s₁, st.table.rootPageID⟩ = treeAt (C.mem st.pager) st.table.rootPageID :=
    congrArg (treeAt · _) hm₁
  have havail : (treeAt (C.mem st.pager) st.table.rootPageID).avail = 0 := Nat.cast_eq_zero.mpr h.full
  have ok₁' : (nodePager C).Ok (⟨s₁, st.table.rootPageID⟩ : BtreeState σ).pager := ⟨ok₁, N, hm₁ ▸ hinv⟩
  have hruns : Runs (nodePager C) s₁
      ((TreeOp.insert values (values.headD (.int 0))).onTree (nodeOps C.toCacheOps) st.table.degree 1)
      (heap (nodePager C) ⟨s₁, st.table.rootPageID⟩)
      (fun r h' => r = .changed true ∧ h' = (treeAt (C.mem st.pager) st.table.rootPageID).set st.table.rootPageID
        (rootLeaf st.table (cs ++ [⟨values.headD (.int 0), values⟩])))
      (fun h' => h' = (treeAt (C.mem st.pager) st.table.rootPageID).set st.table.rootPageID
        (rootLeaf st.table (cs ++ [⟨values.headD (.int 0), values⟩]))) fun _ => False := by
    rw [hheap]
    refine Runs.bind (runs_insert_behind values h.root rfl rfl rfl hlt havail) ?_
    rintro r h' ⟨rfl, rfl⟩
    exact runs_pure ⟨rfl, rfl⟩
  -- no page is left for a split, but the row is in the leaf before the call throws
  rcases ok_or_throw_of_wp (Runs.start_full ok₁' hruns) with
    ⟨r, b, hb, ⟨ok', N', hinv'⟩, hf, rfl, hset⟩ | ⟨e, b, hb, -, ⟨ok', N', hinv'⟩, hf, hset⟩
  · have hpage' := (hm₁.symm ▸ hpage : TableAt (C.mem s₁) _ _).frame hf
    obtain ⟨s₂, k', ok₂, hinv₂, hat₂, hlive₂, hp₂, hrec⟩ := recordInsert_page ⟨s₁, st.table⟩ ok' hinv' hpage'
    exact ⟨.ok (.changed true), _, heq.trans (TupleOp.body_of_inserted ⟨s₁, st.table⟩ hb rfl hrec),
      h.setCells ok₂ hinv₂ hset hat₂ hlive₂ hp₂⟩
  · have hroot : b.rootPageID = st.table.rootPageID := congrArg Heap.root hset
    have hpage' := (hm₁.symm ▸ hpage : TableAt (C.mem s₁) _ _).frame hf
    exact ⟨.error e, _, heq.trans (TupleOp.body_of_throw ⟨s₁, st.table⟩ hb),
      h.setCells ok' hinv' hset rfl rfl (hroot.symm ▸ hpage')⟩

theorem exists_run_remaining {k : ℕ} (hk : k ≤ capacity) :
    ∃ s live, Pager.Run Mem.cache s live ∧ remaining (Mem.cache.mem s) = k := by
  induction hk using Nat.decreasingInduction with
  | self => exact ⟨_, _, run_empty, remaining_empty⟩
  | of_succ k _ ih =>
    obtain ⟨s, live, hrun, hrem⟩ := ih
    obtain ⟨ok, -, N, hinv⟩ := hrun.inv
    rcases createNewPage_cases ok hinv .schema with ⟨hfull, -⟩ | ⟨-, hno, -⟩ | ⟨-, id, s', hs', -, -, -, hnot, hstep⟩
    · have := (remaining_eq_zero hinv).mpr hfull
      omega
    · exact absurd trivial hno
    · obtain ⟨N', hinv'⟩ := hstep.inv
      have := hstep.remaining hinv' hnot
      exact ⟨s', _, hrun.create hs', by omega⟩

def wideRow (k : BitVec 32) : Tuple := .int k :: List.replicate 9 (.string [])

theorem accepts_wideRow : TablePage.Accepts (wideRow 0) := ⟨by simp [wideRow], by decide⟩

def wideCells : List (Cell Tuple) := [1, 2, 3, 4].map fun k => ⟨.int k, wideRow k⟩

theorem typed_wideCells : ∀ c ∈ wideCells, TypedCell (wideRow 0) c := by
  intro c hc
  obtain ⟨k, -, rfl⟩ := List.mem_map.mp hc
  exact ⟨rfl, rfl⟩

/-- When two pages are left for a table with ten columns, its third row is stored although the insertion throws,
and the fourth makes the root too large to be written. -/
theorem nodesFit_counterexample : cellSizeOf (wideRow 0) < 2 ^ 16 ∧ 2 ≤ tableDegree (wideRow 0) ∧
    ∃ st, Calls Mem.cache (wideRow 0) (fun _ _ => True) st ∧ ¬NodesFit Mem.cache st ∧
      ∃ n, nodeAt st.pager st.table.rootPageID = some n ∧ n.bytes = 4665 ∧ ∀ J, ∃ msg, n.toBytes J [] = .abort msg := by
  refine ⟨by decide, by decide, ?_⟩
  obtain ⟨s, live, hrun, hrem⟩ := exists_run_remaining (k := 2) (by decide)
  obtain ⟨t, s₀, hcreate, ok, hnew⟩ := exists_create hrun hrem.ge accepts_wideRow
  have h₀ : LastLeaf Mem.cache (wideRow 0) [] ⟨s₀, t⟩ := by
    obtain ⟨N, hinv⟩ := hnew.inv
    have hused := remaining_of_created hnew
    refine ⟨ok, ⟨N, hinv⟩, ?_, ⟨0, hnew.page⟩, by simp [wideRow], hnew.degree, hnew.root⟩
    change remaining (Mem.cache.mem s₀) = 0
    omega
  have c₀ : Calls Mem.cache (wideRow 0) (fun _ _ => True) ⟨s₀, t⟩ := .create hrun hcreate
  obtain ⟨x₁, st₁, hrun₁, h₁⟩ := h₀.insert (wideRow 1) rfl (by simp)
  obtain ⟨x₂, st₂, hrun₂, h₂⟩ := h₁.insert (wideRow 2) rfl (by decide)
  obtain ⟨x₃, st₃, hrun₃, h₃⟩ := h₂.insert (wideRow 3) rfl (by decide)
  obtain ⟨x₄, st₄, hrun₄, h₄⟩ := h₃.insert (wideRow 4) rfl (by decide)
  have c₄ := (((c₀.call trivial hrun₁).call trivial hrun₂).call trivial hrun₃).call trivial hrun₄
  have hleaf : LastLeaf Mem.cache (wideRow 0) wideCells st₄ := h₄
  have hbytes : (rootLeaf st₄.table wideCells).bytes = 4665 := rfl
  have hdeg : st₄.table.degree < 2 ^ 16 := by
    rw [hleaf.degree]
    decide
  have habort : ∀ J, ∃ msg, (rootLeaf st₄.table wideCells).toBytes J [] = .abort msg := fun J =>
    ((encodable_rootLeaf hdeg (by decide) typed_wideCells).writes J).overflows [] (Nat.zero_le _)
      (by rw [hbytes]; decide)
  refine ⟨st₄, c₄, fun hfit => ?_, _, hleaf.root, hbytes, habort⟩
  obtain ⟨out, hout, -⟩ := hfit _ _ .refl hleaf.root ⟨fun _ => 0, fun _ => []⟩
  obtain ⟨msg, hmsg⟩ := habort ⟨fun _ => 0, fun _ => []⟩
  rw [hmsg] at hout
  cases hout

end Table
end Kndb
