import Kndb.Btree.Fuel
import Kndb.Pager.Nodes
import Kndb.Table

namespace Kndb.Table

open Imp Imp.Prog Btree LawfulCache Pager

variable {σ α : Type} {C : LawfulCache σ} {m m' : Mem} {N id : ℕ} {p : TablePage}
variable {st : TableState σ} {values types : Tuple}

/-- The live page `id` is the table page `p`. -/
def TableAt (m : Mem) (id : ℕ) (p : TablePage) : Prop := id ∈ liveIds m ∧ m.view id = some (.table p)

theorem TableAt.nodeAt_eq (h : TableAt m id p) : nodeAt m id = none := by
  rw [nodeAt, if_pos h.1, h.2]
  rfl

theorem TableAt.frame (h : TableAt m id p) (hf : Frame m m') : TableAt m' id p :=
  ⟨hf.live h.1, (hf.other id h.1 h.nodeAt_eq).trans h.2⟩

theorem returns_readTablePage (hinv : Inv m N) (h : TableAt m id p) :
    C.Returns (readTablePage C.toCacheOps id) m p m :=
  (returns_getPage hinv h.1 h.2).bind (returns_deref (T := TablePage) h.2)

theorem returns_changeTablePage (hinv : Inv m N) (h : TableAt m id p) {f : TablePage → TablePage}
    (hf : (f p).pageID = p.pageID) :
    C.Returns (changeTablePage C.toCacheOps id f) m () (m.set id (.table (f p))) :=
  (returns_getPage hinv h.1 h.2).bind (returns_modify (T := TablePage) h.2 hf)

theorem TableAt.set (h : TableAt m id p) (hinv : Inv m N) (p' : TablePage) :
    Inv (m.set id (.table p')) N ∧ liveIds (m.set id (.table p')) = liveIds m ∧
      nodeAt (m.set id (.table p')) = nodeAt m ∧ TableAt (m.set id (.table p')) id p' := by
  obtain ⟨hinv', hlive, hat⟩ := frame_set_other hinv h.1 h.nodeAt_eq (p := .table p') rfl
  exact ⟨hinv', hlive, hat, by rw [hlive]; exact h.1, Mem.set_self ..⟩

theorem onPager_eq (st : TableState σ) {q : Code σ α} {a : α} (ok : C.Ok st.pager)
    (h : C.Returns q (C.mem st.pager) a m') :
    ∃ s', onPager q st = .ok a { st with pager := s' } ∧ C.Ok s' ∧ C.mem s' = m' := by
  obtain ⟨s', hs', ok', hm⟩ := h.start ok
  exact ⟨s', zoom_ok hs', ok', hm⟩

def tupleError (types values : Tuple) : Option Exn :=
  if values.length ≠ types.length then some badCount
  else if sameTypes values types then none
  else some badTypes

def keyError : Tuple → Vari → Option Exn
  | [], _ => some badKey
  | type :: _, key => if variant_to_type_id type ≠ variant_to_type_id key then some badKey else none

/-- How a check ends that finds the error `e`. -/
def verdict (st : τ) : Option Exn → Outcome Exn τ Unit
  | none => .ok () st
  | some e => .throw e st

theorem tablePage_eq (st : TableState σ) (ok : C.Ok st.pager) (hinv : Inv (C.mem st.pager) N)
    (h : TableAt (C.mem st.pager) st.table.tablePageID p) : ∃ s', C.Ok s' ∧ C.mem s' = C.mem st.pager ∧
      tablePage C.toCacheOps st = .ok p { st with pager := s' } := by
  obtain ⟨s', hs', ok', hm⟩ := onPager_eq st ok (returns_readTablePage hinv h)
  exact ⟨s', ok', hm, hs'⟩

theorem checkTypes_eq (st : TableState σ) (ok : C.Ok st.pager) (hinv : Inv (C.mem st.pager) N)
    (h : TableAt (C.mem st.pager) st.table.tablePageID p) (i : ℕ)
    (hlen : values.length = (p.types.drop i).length) : ∃ s', C.Ok s' ∧ C.mem s' = C.mem st.pager ∧
      checkTypes C.toCacheOps values i st = verdict { st with pager := s' }
        (if sameTypes values (p.types.drop i) then none else some badTypes) := by
  induction values generalizing i st with
  | nil =>
    have hnil : p.types.drop i = [] := List.length_eq_zero_iff.mp hlen.symm
    refine ⟨st.pager, ok, rfl, ?_⟩
    rw [hnil]
    rfl
  | cons value values ih =>
    have hlt : i < p.types.length := by
      rw [List.length_cons, List.length_drop] at hlen
      omega
    have hdrop := List.drop_eq_getElem_cons hlt
    have hi : at? p.types i = (pure p.types[i] : TableM σ Vari) := by
      funext t
      rw [at?, List.getElem?_eq_getElem hlt]
      rfl
    obtain ⟨s₁, ok₁, hm₁, hs₁⟩ := tablePage_eq st ok hinv h
    rw [hdrop] at hlen ⊢
    rw [checkTypes, bind_ok hs₁, hi, bind_ok (show (pure p.types[i] : TableM σ Vari) _ = _ from rfl), sameTypes_cons]
    by_cases htype : variant_to_type_id value = variant_to_type_id p.types[i]
    · rw [if_neg (not_not.mpr htype)]
      obtain ⟨s', ok', hm', hs'⟩ := ih { st with pager := s₁ } ok₁ (hm₁ ▸ hinv) (hm₁ ▸ h) (i + 1)
        (Nat.succ.inj hlen)
      refine ⟨s', ok', hm'.trans hm₁, hs'.trans ?_⟩
      rw [decide_eq_true htype, Bool.true_and]
    · rw [if_pos htype]
      refine ⟨s₁, ok₁, hm₁, ?_⟩
      rw [decide_eq_false htype, Bool.false_and]
      rfl

theorem checkTuple_eq (st : TableState σ) (ok : C.Ok st.pager) (hinv : Inv (C.mem st.pager) N)
    (h : TableAt (C.mem st.pager) st.table.tablePageID p) (values : Tuple) :
    ∃ s', C.Ok s' ∧ C.mem s' = C.mem st.pager ∧ checkTuple C.toCacheOps values st =
      verdict { st with pager := s' } (tupleError p.types values) := by
  obtain ⟨s₁, ok₁, hm₁, hs₁⟩ := tablePage_eq st ok hinv h
  rw [checkTuple, bind_ok hs₁, tupleError]
  by_cases hlen : values.length = p.types.length
  · rw [if_neg (not_not.mpr hlen), if_neg (not_not.mpr hlen)]
    obtain ⟨s', ok', hm', hs'⟩ := checkTypes_eq { st with pager := s₁ } ok₁ (hm₁ ▸ hinv) (hm₁ ▸ h) 0 hlen
    exact ⟨s', ok', hm'.trans hm₁, hs'⟩
  · rw [if_pos hlen, if_pos hlen]
    exact ⟨s₁, ok₁, hm₁, rfl⟩

theorem checkKey_eq (st : TableState σ) (ok : C.Ok st.pager) (hinv : Inv (C.mem st.pager) N)
    (h : TableAt (C.mem st.pager) st.table.tablePageID p) (hne : p.types ≠ []) (key : Vari) :
    ∃ s', C.Ok s' ∧ C.mem s' = C.mem st.pager ∧ checkKey C.toCacheOps key st =
      verdict { st with pager := s' } (keyError p.types key) := by
  obtain ⟨s₁, ok₁, hm₁, hs₁⟩ := tablePage_eq st ok hinv h
  obtain ⟨type, types, htypes⟩ := List.exists_cons_of_ne_nil hne
  have hi : at? p.types 0 { st with pager := s₁ } = (.ok type { st with pager := s₁ } : Outcome Exn _ _) := by
    rw [htypes]
    rfl
  refine ⟨s₁, ok₁, hm₁, ?_⟩
  rw [checkKey, bind_ok hs₁, bind_ok hi, htypes, keyError]
  split_ifs
  · rfl
  · rfl

section Fuel

variable {Ref υ : Type} (D : CacheOps Ref υ) {k n : ℕ}

theorem insertTuple_approx (h : k ≤ n) (values : Tuple) : Approx (insertTuple D k values) (insertTuple D n values) :=
  (Approx.refl _).bind fun _ => (Approx.refl _).bind fun _ => (Approx.refl _).bind fun _ =>
    (Approx.zoom (insert_approx _ h _ _ _)).bind fun _ => .refl _

theorem updateTuple_approx (h : k ≤ n) (values : Tuple) : Approx (updateTuple D k values) (updateTuple D n values) :=
  (Approx.refl _).bind fun _ => (Approx.refl _).bind fun _ => Approx.zoom (update_approx _ h _ _)

theorem readTuple_approx (h : k ≤ n) (key : Vari) : Approx (readTuple D k key) (readTuple D n key) :=
  (Approx.refl _).bind fun _ => Approx.zoom (search_approx _ h _)

end Fuel

inductive TupleOp where
  | insert (values : Tuple)
  | update (values : Tuple)
  | read (key : Vari)

namespace TupleOp

def key : TupleOp → Vari
  | insert values => values.headD (.int 0)
  | update values => values.headD (.int 0)
  | read key => key

def treeOp : TupleOp → TreeOp Tuple
  | insert values => .insert values (values.headD (.int 0))
  | update values => .update values (values.headD (.int 0))
  | read key => .search key

def error (types : Tuple) : TupleOp → Option Exn
  | insert values => tupleError types values
  | update values => tupleError types values
  | read key => keyError types key

def run {Ref σ : Type} (C : CacheOps Ref σ) (fuel : ℕ) : TupleOp → TableM σ (Reply Tuple)
  | insert values => do return .changed (← insertTuple C fuel values)
  | update values => do return .changed (← updateTuple C fuel values)
  | read key => do return .found (← readTuple C fuel key)

def inserted : TupleOp → Reply Tuple → Bool
  | insert _, .changed b => b
  | _, _ => false

def body {Ref σ : Type} (C : CacheOps Ref σ) (fuel : ℕ) (op : TupleOp) : TableM σ (Reply Tuple) := do
  let table ← gets TableState.table
  let r ← onBtree (op.treeOp.onTree (nodeOps C) table.degree fuel)
  if op.inserted r then
    recordInsert C table.rootPageID
  return r

theorem run_approx {Ref σ : Type} (C : CacheOps Ref σ) {k n : ℕ} (h : k ≤ n) (op : TupleOp) :
    Approx (op.run C k) (op.run C n) := by
  cases op with
  | insert values => exact (insertTuple_approx C h values).bind fun _ => .refl _
  | update values => exact (updateTuple_approx C h values).bind fun _ => .refl _
  | read key => exact (readTuple_approx C h key).bind fun _ => .refl _

def afterTree (st : TableState σ) (b : BtreeState σ) : TableState σ :=
  ⟨b.pager, { st.table with rootPageID := b.rootPageID }⟩

section Body

variable {op : TupleOp} {fuel : ℕ} {r : Reply Tuple} {b : BtreeState σ}

theorem body_of_not_inserted (st : TableState σ) (hb : op.treeOp.onTree (nodeOps C.toCacheOps) st.table.degree fuel
    ⟨st.pager, st.table.rootPageID⟩ = .ok r b) (hins : op.inserted r = false) :
    op.body C.toCacheOps fuel st = .ok r (afterTree st b) := by
  have hon : onBtree (op.treeOp.onTree (nodeOps C.toCacheOps) st.table.degree fuel) st =
      .ok r (afterTree st b) := zoom_ok hb
  rw [body, bind_ok (show gets TableState.table st = _ from rfl), bind_ok hon, hins]
  rfl

theorem body_of_inserted (st : TableState σ) (hb : op.treeOp.onTree (nodeOps C.toCacheOps) st.table.degree fuel
    ⟨st.pager, st.table.rootPageID⟩ = .ok r b) (hins : op.inserted r = true) {st' : TableState σ}
    (hrec : recordInsert C.toCacheOps st.table.rootPageID (afterTree st b) = .ok () st') :
    op.body C.toCacheOps fuel st = .ok r st' := by
  have hon : onBtree (op.treeOp.onTree (nodeOps C.toCacheOps) st.table.degree fuel) st =
      .ok r (afterTree st b) := zoom_ok hb
  rw [body, bind_ok (show gets TableState.table st = _ from rfl), bind_ok hon, if_pos hins]
  exact bind_ok hrec

theorem body_of_throw (st : TableState σ) {e : Exn} (hb : op.treeOp.onTree (nodeOps C.toCacheOps) st.table.degree fuel
    ⟨st.pager, st.table.rootPageID⟩ = .throw e b) :
    op.body C.toCacheOps fuel st = .throw e (afterTree st b) := by
  have hon : onBtree (op.treeOp.onTree (nodeOps C.toCacheOps) st.table.degree fuel) st =
      .throw e (afterTree st b) := zoom_throw hb
  rw [body, bind_ok (show gets TableState.table st = _ from rfl), bind_apply, seq, hon]

end Body

end TupleOp

theorem onBtree_map {α β : Type} (q : BtreeM σ α) (g : α → β) :
    onBtree (do return g (← q)) = (do return g (← onBtree q)) := by
  funext st
  rw [onBtree, zoom, bind_apply, seq, bind_apply, seq, onBtree, zoom]
  cases q ⟨st.pager, st.table.rootPageID⟩ <;> rfl

theorem exists_key (h : tupleError types values = none) (hne : types ≠ []) :
    ∃ key columns, values = key :: columns := by
  rw [tupleError] at h
  split_ifs at h with hlen
  apply List.exists_cons_of_ne_nil
  rintro rfl
  exact hne (List.length_eq_zero_iff.mp (not_not.mp hlen).symm)

theorem TupleOp.run_eq (st : TableState σ) (ok : C.Ok st.pager) (hinv : Inv (C.mem st.pager) N)
    (h : TableAt (C.mem st.pager) st.table.tablePageID p) (hne : p.types ≠ []) (fuel : ℕ) (op : TupleOp) :
    ∃ s', C.Ok s' ∧ C.mem s' = C.mem st.pager ∧ op.run C.toCacheOps fuel st =
      match op.error p.types with
      | some e => .throw e { st with pager := s' }
      | none => op.body C.toCacheOps fuel { st with pager := s' } := by
  cases op with
  | insert values =>
    obtain ⟨s', ok', hm, hs'⟩ := checkTuple_eq st ok hinv h values
    refine ⟨s', ok', hm, ?_⟩
    rw [TupleOp.run, bind_apply, seq, insertTuple, bind_apply, seq, hs', TupleOp.error]
    cases herr : tupleError p.types values with
    | some e => rfl
    | none =>
      obtain ⟨key, columns, rfl⟩ := exists_key herr hne
      simp only [verdict, TupleOp.body, TupleOp.treeOp, TreeOp.onTree, onBtree_map, bind_apply, seq, gets,
        at?, List.getElem?_cons_zero, List.headD_cons]
      rcases onBtree (Btree.insert (nodeOps C.toCacheOps) st.table.degree fuel (key :: columns) key)
        ⟨s', st.table⟩ with ⟨b, t⟩ | ⟨e, t⟩ | m | _
      · cases b with
        | true =>
          change seq (seq (recordInsert C.toCacheOps st.table.rootPageID) fun _ => pure true)
            (fun b => pure (Reply.changed b)) t =
              seq (recordInsert C.toCacheOps st.table.rootPageID) (fun _ => pure (Reply.changed true)) t
          rw [seq, seq, seq]
          rcases recordInsert C.toCacheOps st.table.rootPageID t with ⟨b, t⟩ | ⟨e, t⟩ | m | _ <;> rfl
        | false => rfl
      all_goals rfl
  | update values =>
    obtain ⟨s', ok', hm, hs'⟩ := checkTuple_eq st ok hinv h values
    refine ⟨s', ok', hm, ?_⟩
    rw [TupleOp.run, bind_apply, seq, updateTuple, bind_apply, seq, hs', TupleOp.error]
    cases herr : tupleError p.types values with
    | some e => rfl
    | none =>
      obtain ⟨key, columns, rfl⟩ := exists_key herr hne
      simp only [verdict, TupleOp.body, TupleOp.treeOp, TreeOp.onTree, onBtree_map, bind_apply, seq, gets,
        at?, List.getElem?_cons_zero, List.headD_cons]
      rcases onBtree (Btree.update (nodeOps C.toCacheOps) fuel (key :: columns) key)
        ⟨s', st.table⟩ with ⟨b, t⟩ | ⟨e, t⟩ | m | _ <;> rfl
  | read key =>
    obtain ⟨s', ok', hm, hs'⟩ := checkKey_eq st ok hinv h hne key
    refine ⟨s', ok', hm, ?_⟩
    rw [TupleOp.run, bind_apply, seq, readTuple, bind_apply, seq, hs', TupleOp.error]
    cases herr : keyError p.types key with
    | some e => rfl
    | none =>
      simp only [verdict, TupleOp.body, TupleOp.treeOp, TreeOp.onTree, onBtree_map, bind_apply, seq, gets]
      rcases onBtree (Btree.search (nodeOps C.toCacheOps) fuel key) ⟨s', st.table⟩
        with ⟨b, t⟩ | ⟨e, t⟩ | m | _ <;> rfl

/-- The table page after an insertion that has left the tree with the root `root`. -/
def recorded (p : TablePage) (og_root root : ℕ) : TablePage :=
  if root ≠ og_root then p.addTuple.setBtreePageID root else p.addTuple

theorem recordInsert_eq (st : TableState σ) (ok : C.Ok st.pager) (hinv : Inv (C.mem st.pager) N)
    (h : TableAt (C.mem st.pager) st.table.tablePageID p) (og_root : ℕ) : ∃ s', C.Ok s' ∧
      C.mem s' = (C.mem st.pager).set st.table.tablePageID (.table (recorded p og_root st.table.rootPageID)) ∧
      recordInsert C.toCacheOps og_root st = .ok () { st with pager := s' } := by
  obtain ⟨s₁, hs₁, ok₁, hm₁⟩ :=
    onPager_eq st ok (returns_changeTablePage (f := TablePage.addTuple) hinv h rfl)
  obtain ⟨hinv₁, -, -, h₁⟩ := h.set hinv p.addTuple
  rw [recordInsert, bind_ok (show gets TableState.table st = .ok st.table st from rfl), bind_ok hs₁, recorded]
  split_ifs
  · obtain ⟨s₂, hs₂, ok₂, hm₂⟩ := onPager_eq { st with pager := s₁ } ok₁
      (returns_changeTablePage (f := (·.setBtreePageID st.table.rootPageID)) (hm₁ ▸ hinv₁) (hm₁ ▸ h₁) rfl)
    refine ⟨s₂, ok₂, hm₂.trans ?_, hs₂⟩
    rw [hm₁, Mem.set_set]
  · exact ⟨s₁, ok₁, hm₁, rfl⟩

end Kndb.Table
