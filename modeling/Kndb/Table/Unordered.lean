import Kndb.Btree.OutOfPages
import Kndb.Table.Run

namespace Kndb

theorem Vari.eq_of_isNaN {a : Vari} (b : Vari) (ha : a.isNaN = true) : a.eq b = false := by
  cases a <;> cases b <;> simp_all [eq, isNaN]

theorem Vari.isNaN_of_eq {a b : Vari} (h : a.eq b = true) : a.isNaN = false ∧ b.isNaN = false := by
  cases a <;> cases b <;> simp_all [eq, isNaN]

namespace Btree

open Imp Imp.Prog

variable {Ref σ T : Type} {P : PagerOps Ref σ T} {key : Vari} {R : Exn → BtreeState σ → Prop}

/-- A search for a NaN finds no cell, whatever the tree. -/
theorem wp_searchRowPtr_of_isNaN (hkey : key.isNaN = true) (fuel id : ℕ) (st : BtreeState σ) :
    (searchRowPtr P key fuel id).wp st (fun row _ => row.cellID = CELLID_INVALID) (fun _ _ => True)
      fun _ => True := by
  induction fuel generalizing id st with
  | zero => exact trivial
  | succ fuel ih =>
    have hno : ∀ o : Option (Cell T), ¬(o.any fun c => key.eq c.key) = true := by
      intro o
      cases o with
      | none => exact Bool.false_ne_true
      | some c =>
        rw [Option.any_some, Vari.eq_of_isNaN c.key hkey]
        exact Bool.false_ne_true
    rw [searchRowPtr]
    refine wp_bind_of_forall fun _ _ => wp_bind_of_forall fun node _ => ?_
    refine wp_bind_of_forall fun _ _ => wp_bind_of_forall fun _ _ => wp_bind_of_forall fun _ _ => ?_
    dsimp only
    rw [if_neg (hno _)]
    split_ifs
    · exact rfl
    · exact wp_bind_of_forall ih

/-- What a call answers whose key is a NaN. -/
def TreeOp.onNaN : TreeOp T → Reply T
  | insert _ _ => .changed true
  | update _ _ => .changed false
  | search _ => .found none

theorem wp_onTree_of_isNaN {op : TreeOp T} (hkey : op.key.isNaN = true) (deg fuel : ℕ) (st : BtreeState σ) :
    (op.onTree P deg fuel).wp st (fun r _ => r = op.onNaN) (fun _ _ => True) fun _ => True := by
  cases op with
  | insert v key =>
    refine wp_bind.mpr (wp_bind.mpr (wp_bind.mpr (wp_mono (wp_searchRowPtr_of_isNaN hkey fuel _ st) ?_
      (fun _ _ h => h) fun _ h => h)))
    intro row st' hrow
    rw [if_neg (not_not.mpr hrow)]
    refine wp_bind_of_forall fun _ _ => wp_bind_of_forall fun _ _ => wp_bind_of_forall fun _ _ => ?_
    refine wp_bind_of_forall fun _ _ => wp_bind_of_forall fun _ _ => wp_bind_of_forall fun _ _ => ?_
    exact rfl
  | update v key =>
    refine wp_bind.mpr (wp_bind.mpr (wp_bind.mpr (wp_mono (wp_searchRowPtr_of_isNaN hkey fuel _ st) ?_
      (fun _ _ h => h) fun _ h => h)))
    intro row st' hrow
    rw [if_pos hrow]
    exact rfl
  | search key =>
    refine wp_bind.mpr (wp_bind.mpr (wp_bind.mpr (wp_mono (wp_searchRowPtr_of_isNaN hkey fuel _ st) ?_
      (fun _ _ h => h) fun _ h => h)))
    intro row st' hrow
    rw [if_pos hrow]
    exact rfl

end Btree

namespace Table

open Imp Imp.Prog Btree LawfulCache Pager

variable {σ : Type} {C : LawfulCache σ} {m m₁ : Mem} {N root' : ℕ} {st st' : TableState σ} {t : Table}
variable {types : Tuple} {L L' : Layout} {M M' : Rank → Option Tuple} {op : TupleOp} {fuel : ℕ}

theorem headD_of_getElem? {values : Tuple} {key : Vari} (h : values[0]? = some key) :
    values.headD (.int 0) = key := by
  cases values with
  | nil => cases h
  | cons value values => exact Option.some.inj h

/-- A call whose key is a NaN answers as if no key were in the table. -/
theorem TupleOp.wp_run_of_isNaN {Ref : Type} {C : CacheOps Ref σ} (hkey : op.key.isNaN = true) (fuel : ℕ)
    (st : TableState σ) :
    (op.run C fuel).wp st (fun r _ => r = op.treeOp.onNaN) (fun _ _ => True) fun _ => True := by
  cases op with
  | insert values =>
    refine wp_bind.mpr (wp_bind_of_forall fun _ _ => wp_bind_of_forall fun table st => wp_bind.mpr ?_)
    refine wp_at?.mpr ⟨fun key hat => ?_, fun _ => trivial⟩
    have hnan : key.isNaN = true := headD_of_getElem? hat ▸ hkey
    have htree : (TreeOp.insert values key).key.isNaN = true := hnan
    refine wp_bind.mpr (wp_zoom.mpr (wp_mono (wp_bind.mp (wp_onTree_of_isNaN htree table.degree fuel _)) ?_
      (fun _ _ h => h) fun _ h => h))
    intro b st' hb
    cases hb
    exact wp_bind_of_forall fun _ _ => rfl
  | update values =>
    refine wp_bind.mpr (wp_bind_of_forall fun _ st => wp_bind.mpr ?_)
    refine wp_at?.mpr ⟨fun key hat => ?_, fun _ => trivial⟩
    have hnan : key.isNaN = true := headD_of_getElem? hat ▸ hkey
    have htree : (TreeOp.update values key).key.isNaN = true := hnan
    exact wp_zoom.mpr (wp_bind.mp (wp_onTree_of_isNaN htree 0 fuel _))
  | read key =>
    refine wp_bind.mpr (wp_bind_of_forall fun _ st => ?_)
    have htree : (TreeOp.search key : TreeOp Tuple).key.isNaN = true := hkey
    exact wp_zoom.mpr (wp_bind.mp (wp_onTree_of_isNaN htree 0 fuel _))

theorem TableOk.run_of_isNaN (ok : C.Ok st.pager) (hinv : Inv (C.mem st.pager) N)
    (h : TableOk (C.mem st.pager) st.table types L M) (hdeg : 2 ≤ effectiveDegree (tableDegree types))
    (hkey : op.key.isNaN = true) (herr : op.error types = none)
    (hpages : PagesSuffice (C.mem st.pager) st.table.rootPageID op)
    (hfuel : L.height st.table.rootPageID + 2 ≤ fuel) :
    ∃ st', op.run C.toCacheOps fuel st = .ok op.treeOp.onNaN st' := by
  obtain ⟨s₁, ok₁, hm₁, hrun⟩ := op.run_eq st ok hinv h.page h.types_ne fuel
  rw [show op.error (pageOf st.table types M).types = none from herr] at hrun
  have h₁ : TableOk (C.mem s₁) st.table types L M := hm₁ ▸ h
  rcases h₁.onTree (o := False) ok₁ (hm₁ ▸ hinv) hdeg False.elim hfuel with
    ⟨r, b, hb, ok', ⟨N', hinv'⟩, hf, -⟩ | ⟨⟨hno, -⟩, -⟩
  swap
  · exact absurd hpages (hm₁ ▸ hno)
  -- a key that is no number is compared with every key in vain, so the reply is known
  have hwp := op.wp_run_of_isNaN (C := C.toCacheOps) hkey fuel st
  by_cases hins : op.inserted r = true
  · obtain ⟨s₂, -, -, hrec⟩ := recordInsert_eq (TupleOp.afterTree ⟨s₁, st.table⟩ b) ok' hinv'
      (h₁.page.frame hf) st.table.rootPageID
    have hret := hrun.trans (TupleOp.body_of_inserted ⟨s₁, st.table⟩ hb hins hrec)
    obtain rfl : r = op.treeOp.onNaN := (wp_of_ok hret).mp hwp
    exact ⟨_, hret⟩
  · have hret := hrun.trans (TupleOp.body_of_not_inserted ⟨s₁, st.table⟩ hb (by simpa using hins))
    obtain rfl : r = op.treeOp.onNaN := (wp_of_ok hret).mp hwp
    exact ⟨_, hret⟩

structure Call (σ : Type) where
  before : TableState σ
  values : Tuple
  answer : Except Exn (Reply Tuple)
  after : TableState σ

def Call.insertion (c : Call σ) : TupleOp := .insert c.values

def Call.key (c : Call σ) : Vari := c.insertion.key

/-- The states of a run of `insertTuple` calls on a new table with the columns `types`, next to the
calls, of which the last comes first. -/
inductive Inserts (C : LawfulCache σ) (types : Tuple) : List (Call σ) → TableState σ → Prop
  | create {s s' : σ} {live : Finset ℕ} {name : List Byte} {t : Table} : Pager.Run C s live →
      create C.toCacheOps name types s = .ok t s' → Inserts C types [] ⟨s', t⟩
  | call {calls : List (Call σ)} {c : Call σ} {fuel : ℕ} : Inserts C types calls c.before →
      c.insertion.run C.toCacheOps fuel c.before = .answer c.answer c.after → Inserts C types (c :: calls) c.after

/-- One key, or two that are `==`. -/
def Same (a b : Vari) : Prop := a = b ∨ a.eq b = true

/-- Each insertion that answered true has left what is read for the other keys, and is refused when it
is made again. -/
structure KeysKept (C : LawfulCache σ) (types : Tuple) (calls : List (Call σ)) (st : TableState σ) : Prop where
  others : ∀ c ∈ calls, c.answer = .ok (.changed true) → ∀ key, ¬Same c.key key →
    ∃ x, Gives C c.before (.read key) x ∧ Gives C c.after (.read key) x
  refused : ∀ c ∈ calls, c.answer = .ok (.changed true) → ∀ values, tupleError types values = none →
    Same c.key (TupleOp.insert values).key → Gives C st (.insert values) (.ok (.changed false))

def Call.Supplied (C : LawfulCache σ) (types : Tuple) (c : Call σ) : Prop :=
  c.insertion.error types = none → PagesSuffice (C.mem c.before.pager) c.before.table.rootPageID c.insertion

def Call.Ordered (types : Tuple) (c : Call σ) : Prop := c.insertion.error types = none → c.key.isNaN = false

theorem same_iff {a b : Vari} (ha : a.isNaN = false) : Same a b ↔ b.isNaN = false ∧ a.rank = b.rank := by
  constructor
  · rintro (rfl | heq)
    · exact ⟨ha, rfl⟩
    · have hb := (Vari.isNaN_of_eq heq).2
      exact ⟨hb, (Vari.eq_iff ha hb).mp heq⟩
  · rintro ⟨hb, hr⟩
    exact .inr ((Vari.eq_iff ha hb).mpr hr)

def reading (types : Tuple) (M : Rank → Option Tuple) (key : Vari) : Except Exn (Reply Tuple) :=
  match keyError types key with
  | some e => .error e
  | none => .ok (.found (if key.isNaN then none else M key.rank))

theorem reading_update {key key' : Vari} (hkey : key.isNaN = false) (hne : ¬Same key key') (v : Tuple) :
    reading types (Function.update M key.rank (some v)) key' = reading types M key' := by
  rw [reading, reading]
  by_cases hnan : key'.isNaN = true
  · rw [if_pos hnan, if_pos hnan]
  · rw [same_iff hkey] at hne
    have hr : key'.rank ≠ key.rank := fun hr => hne ⟨Bool.eq_false_of_not_eq_true hnan, hr.symm⟩
    rw [Function.update_of_ne hr]

theorem TableOk.gives_read (ok : C.Ok st.pager) (hinv : Inv (C.mem st.pager) N)
    (h : TableOk (C.mem st.pager) st.table types L M) (hdeg : 2 ≤ effectiveDegree (tableDegree types))
    (key : Vari) : Gives C st (.read key) (reading types M key) := by
  have hpages : PagesSuffice (C.mem st.pager) st.table.rootPageID (.read key) := fun _ hop => by cases hop
  refine ⟨L.height st.table.rootPageID + 2, ?_⟩
  rw [reading]
  cases herr : keyError types key with
  | some e =>
    obtain ⟨s', -, -, hrun⟩ := h.refused ok hinv (show TupleOp.error types (.read key) = _ from herr)
      (L.height st.table.rootPageID + 2)
    exact ⟨_, hrun⟩
  | none =>
    by_cases hkey : key.isNaN = true
    · simp only [hkey, if_true]
      exact h.run_of_isNaN ok hinv hdeg (show (TupleOp.read key).key.isNaN = true from hkey) herr hpages le_rfl
    · rw [Bool.not_eq_true] at hkey
      simp only [hkey, Bool.false_eq_true, if_false]
      rcases h.run ok hinv hdeg (show (TupleOp.read key).key.isNaN = false from hkey) le_rfl with
        ⟨st', -, hrun, -⟩ | ⟨⟨-, hno, -⟩, -⟩
      · rw [TupleOp.onRows, show TupleOp.error types (.read key) = none from herr] at hrun
        exact ⟨st', hrun⟩
      · exact absurd hpages hno

theorem TableOk.gives_insert (ok : C.Ok st.pager) (hinv : Inv (C.mem st.pager) N)
    (h : TableOk (C.mem st.pager) st.table types L M) (hdeg : 2 ≤ effectiveDegree (tableDegree types))
    {values : Tuple} (herr : tupleError types values = none)
    (hkey : (TupleOp.insert values).key.isNaN = false) (hmem : (M (TupleOp.insert values).key.rank).isSome) :
    Gives C st (.insert values) (.ok (.changed false)) := by
  refine ⟨L.height st.table.rootPageID + 2, ?_⟩
  rcases h.run ok hinv hdeg hkey le_rfl with ⟨st', -, hrun, -⟩ | ⟨⟨-, -, hno⟩, -⟩
  · have hmap : ((TupleOp.insert values).treeOp.onMap M).1 = .changed false := congrArg Prod.fst (if_pos hmem)
    rw [TupleOp.onRows, show TupleOp.error types (.insert values) = none from herr] at hrun
    exact ⟨st', hrun.trans (congrArg (fun r => Outcome.ok r st') hmap)⟩
  · rw [hno] at hmem
    cases hmem

theorem TupleOp.insert_onMap (values : Tuple) (M : Rank → Option Tuple) :
    ((M (TupleOp.insert values).key.rank).isSome ∧
        (TupleOp.insert values).treeOp.onMap M = (.changed false, M)) ∨
      (TupleOp.insert values).treeOp.onMap M =
        (.changed true, Function.update M (TupleOp.insert values).key.rank (some values)) := by
  by_cases hmem : (M (TupleOp.insert values).key.rank).isSome
  · exact .inl ⟨hmem, if_pos hmem⟩
  · exact .inr (if_neg hmem)

/-- A table after a run of insertions without NaN keys. -/
structure Filled (C : LawfulCache σ) (types : Tuple) (calls : List (Call σ)) (st : TableState σ) (L : Layout)
    (M : Rank → Option Tuple) : Prop where
  ok : C.Ok st.pager
  inv : ∃ N, Inv (C.mem st.pager) N
  table : TableOk (C.mem st.pager) st.table types L M
  keys : ∀ c ∈ calls, c.answer = .ok (.changed true) → c.key.isNaN = false ∧ (M c.key.rank).isSome
  others : ∀ c ∈ calls, c.answer = .ok (.changed true) → ∀ key, ¬Same c.key key →
    ∃ x, Gives C c.before (.read key) x ∧ Gives C c.after (.read key) x

theorem Filled.next {calls : List (Call σ)} {c : Call σ} (h : Filled C types calls c.before L M)
    (ok : C.Ok c.after.pager) (hinv : ∃ N, Inv (C.mem c.after.pager) N)
    (htable : TableOk (C.mem c.after.pager) c.after.table types L' M') (hmono : ∀ r, (M r).isSome → (M' r).isSome)
    (hnew : c.answer = .ok (.changed true) → (c.key.isNaN = false ∧ (M' c.key.rank).isSome) ∧
      ∀ key, ¬Same c.key key → ∃ x, Gives C c.before (.read key) x ∧ Gives C c.after (.read key) x) :
    Filled C types (c :: calls) c.after L' M' := by
  refine ⟨ok, hinv, htable, fun d hd hd' => ?_, fun d hd hd' => ?_⟩
  · rcases List.mem_cons.mp hd with rfl | hd
    · exact (hnew hd').1
    · exact (h.keys d hd hd').imp_right (hmono _)
  · rcases List.mem_cons.mp hd with rfl | hd
    · exact (hnew hd').2
    · exact h.others d hd hd'

theorem Filled.call {calls : List (Call σ)} {c : Call σ} (h : Filled C types calls c.before L M)
    (hdeg : 2 ≤ effectiveDegree (tableDegree types)) (hpages : c.Supplied C types) (hord : c.Ordered types)
    (hrun : c.insertion.run C.toCacheOps fuel c.before = .answer c.answer c.after) :
    ∃ L' M', Filled C types (c :: calls) c.after L' M' := by
  obtain ⟨N, hinv⟩ := h.inv
  cases herr : c.insertion.error types with
  | some e =>
    obtain ⟨s', ok', hm, hthrow⟩ := h.table.refused h.ok hinv herr fuel
    obtain ⟨hans, hafter⟩ := Outcome.answer_inj
      (hrun.symm.trans (show _ = Outcome.answer (.error e) _ from hthrow))
    refine ⟨L, M, h.next ?_ ?_ ?_ (fun _ hr => hr) fun hyes => ?_⟩
    · rw [hafter]
      exact ok'
    · rw [hafter]
      exact ⟨N, hm ▸ hinv⟩
    · rw [hafter]
      exact hm ▸ h.table
    · rw [hans] at hyes
      cases hyes
  | none =>
    have hkey := hord herr
    have hended : c.insertion.run C.toCacheOps fuel c.before ≠ .timeout := hrun ▸ Outcome.answer_ne_timeout
    rcases h.table.run_of_ended h.ok hinv hdeg hkey hended with ⟨st', L', hrun', ok', hadv, -⟩ | ⟨⟨-, hno, -⟩, -⟩
    swap
    · exact absurd (hpages herr) hno
    obtain ⟨hans, rfl⟩ := Outcome.answer_inj (hrun.symm.trans hrun')
    rw [TupleOp.onRows_of_none herr] at hans hadv
    -- the key was there and the row is refused, or the row is the new one of its key
    rcases TupleOp.insert_onMap c.values M with ⟨-, hmap⟩ | hmap
    · rw [show c.insertion = .insert c.values from rfl, hmap] at hans hadv
      refine ⟨L', M, h.next ok' hadv.inv hadv.table (fun _ hr => hr) fun hyes => ?_⟩
      rw [hans] at hyes
      cases hyes
    · rw [show c.insertion = .insert c.values from rfl, hmap] at hadv
      have htable : TableOk (C.mem c.after.pager) c.after.table types L'
        (Function.update M c.key.rank (some c.values)) := hadv.table
      refine ⟨L', _, h.next ok' hadv.inv htable (fun r hr => ?_) fun _ => ⟨⟨hkey, ?_⟩, fun key hsame => ?_⟩⟩
      · by_cases heq : r = c.key.rank
        · rw [heq, Function.update_self]
          rfl
        · rwa [Function.update_of_ne heq]
      · rw [Function.update_self]
        rfl
      · refine ⟨reading types M key, h.table.gives_read h.ok hinv hdeg key, ?_⟩
        -- what was read before is read now, the key of the row apart
        rw [← reading_update hkey hsame c.values]
        obtain ⟨N', hinv'⟩ := hadv.inv
        exact htable.gives_read ok' hinv' hdeg key

theorem Inserts.filled {calls : List (Call σ)} (h : Inserts C types calls st)
    (hdeg : 2 ≤ effectiveDegree (tableDegree types)) (hpages : ∀ c ∈ calls, c.Supplied C types)
    (hord : ∀ c ∈ calls, c.Ordered types) : ∃ L M, Filled C types calls st L M := by
  induction h with
  | create hrun hcreate =>
    obtain ⟨ok, hne, hnew⟩ := created_of_create hrun hcreate
    exact ⟨_, _, ok, hnew.inv, hnew.tableOk hne, nofun, nofun⟩
  | call _ hrun ih =>
    obtain ⟨L, M, hfilled⟩ := ih (fun c hc => hpages c (List.mem_cons_of_mem _ hc))
      fun c hc => hord c (List.mem_cons_of_mem _ hc)
    exact hfilled.call hdeg (hpages _ (List.mem_cons_self ..)) (hord _ (List.mem_cons_self ..)) hrun

theorem Filled.keysKept {calls : List (Call σ)} (h : Filled C types calls st L M)
    (hdeg : 2 ≤ effectiveDegree (tableDegree types)) : KeysKept C types calls st := by
  obtain ⟨N, hinv⟩ := h.inv
  refine ⟨h.others, fun c hc hyes values herr hsame => ?_⟩
  obtain ⟨hkey, hmem⟩ := h.keys c hc hyes
  obtain ⟨hkey', hr⟩ := (same_iff hkey).mp hsame
  exact h.table.gives_insert h.ok hinv hdeg herr hkey' (hr ▸ hmem)

/-- The first insertion of a NaN answers true. -/
theorem Inserts.accepted_of_not_ordered {calls : List (Call σ)} (h : Inserts C types calls st)
    (hdeg : 2 ≤ effectiveDegree (tableDegree types)) (hpages : ∀ c ∈ calls, c.Supplied C types)
    (hnan : ¬∀ c ∈ calls, c.Ordered types) :
    ∃ c ∈ calls, c.answer = .ok (.changed true) ∧ c.insertion.error types = none ∧ c.key.isNaN = true := by
  induction h with
  | create _ _ => exact absurd nofun hnan
  | @call calls c fuel hcalls hrun ih =>
    have hpages' : ∀ d ∈ calls, d.Supplied C types := fun d hd => hpages d (List.mem_cons_of_mem _ hd)
    by_cases hord : ∀ d ∈ calls, d.Ordered types
    · have hc : ¬c.Ordered types := fun hc => hnan fun d hd => by
        rcases List.mem_cons.mp hd with rfl | hd
        · exact hc
        · exact hord d hd
      rw [Call.Ordered, Classical.not_imp, Bool.not_eq_false] at hc
      obtain ⟨herr, hkey⟩ := hc
      obtain ⟨L, M, hfilled⟩ := hcalls.filled hdeg hpages' hord
      obtain ⟨N, hinv⟩ := hfilled.inv
      obtain ⟨st', hrun'⟩ := hfilled.table.run_of_isNaN hfilled.ok hinv hdeg hkey herr
        (hpages c (List.mem_cons_self ..) herr) le_rfl
      refine ⟨c, List.mem_cons_self .., ?_, herr, hkey⟩
      exact Gives.unique ⟨fuel, c.after, hrun⟩ ⟨_, st', hrun'⟩
    · obtain ⟨d, hd, hyes⟩ := ih hpages' hord
      exact ⟨d, List.mem_cons_of_mem _ hd, hyes⟩

/-- A NaN is never refused. -/
theorem KeysKept.ordered {calls : List (Call σ)} (h : KeysKept C types calls st) {c : Call σ} (hc : c ∈ calls)
    (hyes : c.answer = .ok (.changed true)) (herr : c.insertion.error types = none) : c.key.isNaN = false := by
  rw [← Bool.not_eq_true]
  intro hkey
  obtain ⟨fuel, st', hrun⟩ := h.refused c hc hyes c.values herr (.inl rfl)
  have hreply := (wp_of_ok hrun).mp ((TupleOp.insert c.values).wp_run_of_isNaN (C := C.toCacheOps) hkey fuel st)
  cases hreply

theorem Inserts.error_of_degreeOne {calls : List (Call σ)} (h : Inserts C types calls st)
    (hdeg : effectiveDegree (tableDegree types) = 1) (hpages : ∀ c ∈ calls, c.Supplied C types) :
    (C.Ok st.pager ∧ (∃ N, Inv (C.mem st.pager) N) ∧
      (∃ L M, TableOk (C.mem st.pager) st.table types L M) ∧
      ∃ par, nodeAt (C.mem st.pager) st.table.rootPageID =
        some (.new (tableDegree types) par true true st.table.rootPageID)) ∧
    ∀ c ∈ calls, c.insertion.error types ≠ none ∧ c.answer ≠ .ok (.changed true) := by
  induction h with
  | create hrun hcreate =>
    obtain ⟨ok, hne, hnew⟩ := created_of_create hrun hcreate
    have htable := hnew.tableOk hne
    refine ⟨⟨ok, hnew.inv, ⟨_, _, htable⟩, PGID_INVALID, ?_⟩, nofun⟩
    rw [← htable.degree]
    exact hnew.root
  | @call calls c fuel _ hrun ih =>
    obtain ⟨⟨ok, ⟨N, hinv⟩, ⟨L, M, htable⟩, par, hroot⟩, hcalls⟩ :=
      ih fun d hd => hpages d (List.mem_cons_of_mem _ hd)
    cases herr : c.insertion.error types with
    | none =>
      have hneeds := hpages c (List.mem_cons_self ..) herr c.values rfl 1
      rw [insertNeeds_empty hdeg hroot 0, top_le_iff] at hneeds
      exact absurd hneeds (ENat.natCast_ne_top _)
    | some e =>
      obtain ⟨s', ok', hm, hthrow⟩ := htable.refused ok hinv herr fuel
      obtain ⟨hans, hafter⟩ := Outcome.answer_inj
        (hrun.symm.trans (show _ = Outcome.answer (.error e) _ from hthrow))
      refine ⟨?_, fun d hd => ?_⟩
      · rw [hafter]
        exact ⟨ok', ⟨N, hm ▸ hinv⟩, ⟨L, M, hm ▸ htable⟩, par, hm ▸ hroot⟩
      · rcases List.mem_cons.mp hd with rfl | hd
        · rw [herr, hans]
          exact ⟨nofun, nofun⟩
        · exact hcalls d hd

/-- As long as the pages suffice, the keys of a table are kept exactly if no NaN has been inserted. -/
theorem keysKept_iff {calls : List (Call σ)} (h : Inserts C types calls st)
    (hpages : ∀ c ∈ calls, c.Supplied C types) :
    KeysKept C types calls st ↔ ∀ c ∈ calls, c.Ordered types := by
  by_cases hone : effectiveDegree (tableDegree types) = 1
  · obtain ⟨-, hcalls⟩ := h.error_of_degreeOne hone hpages
    refine ⟨fun _ c hc herr => absurd herr (hcalls c hc).1, fun _ => ⟨fun c hc hyes => ?_, fun c hc hyes => ?_⟩⟩
    · exact absurd hyes (hcalls c hc).2
    · exact absurd hyes (hcalls c hc).2
  · have hdeg := two_le_effectiveDegree hone
    constructor
    · intro hkept
      by_contra hnan
      obtain ⟨c, hc, hyes, herr, hkey⟩ := h.accepted_of_not_ordered hdeg hpages hnan
      rw [hkept.ordered hc hyes herr] at hkey
      cases hkey
    · intro hord
      obtain ⟨L, M, hfilled⟩ := h.filled hdeg hpages hord
      exact hfilled.keysKept hdeg

section Float

def emptyFile : Mem := ⟨fun _ => none, 0⟩

def one : Vari := .float 0x3F800000
def nan : Vari := .float 0x7FC00000

@[irreducible] def floatFile : Mem :=
  (create Mem.cache.toCacheOps [] [.float 0] emptyFile).stateD emptyFile

def floatTable : TableState Mem := ⟨floatFile, ⟨[], 1, 166, 2⟩⟩

@[irreducible] def after (op : TupleOp) (st : TableState Mem) : TableState Mem :=
  (op.run Mem.cache.toCacheOps 2 st).stateD st

def withOne : TableState Mem := after (.insert [one]) floatTable
def withNaN : TableState Mem := after (.insert [nan]) withOne

def insertOne : Call Mem := ⟨floatTable, [one], .ok (.changed true), withOne⟩
def insertNaN : Call Mem := ⟨withOne, [nan], .ok (.changed true), withNaN⟩

theorem run_float {op : TupleOp} {st : TableState Mem} {r : Reply Tuple}
    (h : (op.run Mem.cache.toCacheOps 2 st).value? = some r) :
    op.run Mem.cache.toCacheOps 2 st = .answer (.ok r) (after op st) := by
  rw [after]
  exact Outcome.eq_ok h st

theorem create_floatFile :
    create Mem.cache.toCacheOps [] [.float 0] emptyFile = .ok ⟨[], 1, 166, 2⟩ floatFile := by
  have hvalue : (create Mem.cache.toCacheOps [] [.float 0] emptyFile).value? = some ⟨[], 1, 166, 2⟩ := by
    decide +kernel
  unfold floatFile
  exact Outcome.eq_ok hvalue emptyFile

theorem inserts_floatTable : Inserts Mem.cache [.float 0] [] floatTable ∧
    PagesSuffice floatTable.pager floatTable.table.rootPageID (.insert [one]) := by
  have hstart : Pager.Run Mem.cache emptyFile ∅ := run_empty
  obtain ⟨-, -, hnew⟩ := created_of_create hstart create_floatFile
  exact ⟨.create hstart create_floatFile, pagesSuffice_new (by rw [hnew.degree]; decide) hnew.root _⟩

theorem inserts_insertOne : Inserts Mem.cache [.float 0] [insertOne] withOne :=
  .call (c := insertOne) inserts_floatTable.1 (run_float (by decide +kernel))

theorem inserts_insertNaN : Inserts Mem.cache [.float 0] [insertNaN, insertOne] withNaN :=
  .call (c := insertNaN) inserts_insertOne (run_float (by decide +kernel))

theorem keysKept_insertOne : KeysKept Mem.cache [.float 0] [insertOne] withOne ↔
    ∀ c ∈ [insertOne], c.Ordered [.float 0] := by
  apply keysKept_iff inserts_insertOne
  intro c hc _
  rw [List.mem_singleton.mp hc]
  exact inserts_floatTable.2

/-- The NaN goes in front of the other key, which is not found any more, and it is not refused. -/
theorem keysKept_counterexample :
    Inserts Mem.cache [.float 0] [insertNaN, insertOne] withNaN ∧
    Gives Mem.cache withOne (.read one) (.ok (.found (some [one]))) ∧
    Gives Mem.cache withNaN (.read one) (.ok (.found none)) ∧
    Gives Mem.cache withNaN (.insert [nan]) (.ok (.changed true)) ∧
    ¬KeysKept Mem.cache [.float 0] [insertNaN, insertOne] withNaN := by
  have hbefore : Gives Mem.cache withOne (.read one) (.ok (.found (some [one]))) :=
    ⟨2, _, run_float (by decide +kernel)⟩
  have hafter : Gives Mem.cache withNaN (.read one) (.ok (.found none)) :=
    ⟨2, _, run_float (by decide +kernel)⟩
  refine ⟨inserts_insertNaN, hbefore, hafter, ⟨2, _, run_float (by decide +kernel)⟩, fun hkept => ?_⟩
  obtain ⟨x, hx, hx'⟩ := hkept.others insertNaN (List.mem_cons_self ..) rfl one fun hsame => by
    rw [Same] at hsame
    revert hsame
    decide
  cases (hbefore.unique hx).trans (hx'.unique hafter)

end Float

end Table
end Kndb
