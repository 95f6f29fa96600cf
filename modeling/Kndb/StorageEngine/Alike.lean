import Kndb.StorageEngine.Reread
import Kndb.StorageEngine.Session

namespace Kndb

open Imp Imp.Prog Btree LawfulCache Pager Table

namespace Table

variable {types types' : Tuple}

theorem SameTags.refl (types : Tuple) : SameTags types types := rfl

theorem SameTags.trans {types'' : Tuple} (h : SameTags types types') (h' : SameTags types' types'') :
    SameTags types types'' := Eq.trans h' h

theorem SameTags.tupleError_eq (h : SameTags types types') (values : Tuple) :
    tupleError types' values = tupleError types values := by
  rw [tupleError, tupleError, h.length_eq, Bool.eq_iff_iff.mpr (h.sameTypes_iff values)]

theorem SameTags.keyError_eq (h : SameTags types types') (key : Vari) : keyError types' key = keyError types key := by
  cases types with
  | nil =>
    obtain rfl := List.map_eq_nil_iff.mp h
    rfl
  | cons type types =>
    cases types' with
    | nil => cases h
    | cons type' types' => rw [keyError, keyError, (List.cons.inj h).1]

theorem SameTags.onRows_eq (h : SameTags types types') (op : TupleOp) (M : Rank → Option Tuple) :
    op.onRows types' M = op.onRows types M := by
  have herr : op.error types' = op.error types := by
    cases op with
    | insert values => exact h.tupleError_eq values
    | update values => exact h.tupleError_eq values
    | read key => exact h.keyError_eq key
  rw [TupleOp.onRows, TupleOp.onRows, herr]

end Table

namespace StorageEngine

variable {σ τ : Type} {C : LawfulCache σ} {D : LawfulCache τ} {e e₁ : StorageEngine σ} {e' e₁' : StorageEngine τ}
variable {K K' : Catalog} {name : List Byte} {fuel : ℕ} {op : EngineOp} {ops : List EngineOp}

structure Content.Alike (c c' : Content) : Prop where
  types : SameTags c.types c'.types
  rows : c'.rows = c.rows

def Catalog.Alike (K K' : Catalog) : Prop := ∀ name, Option.Rel Content.Alike (K name) (K' name)

namespace Catalog.Alike

theorem refl (K : Catalog) : K.Alike K := fun name => by
  cases K name with
  | none => exact .none
  | some c => exact .some ⟨.refl _, rfl⟩

theorem trans {K'' : Catalog} (h : K.Alike K') (h' : K'.Alike K'') : K.Alike K'' := fun name => by
  have hc := h name
  have hc' := h' name
  generalize K name = a at hc
  generalize K' name = b at hc hc'
  generalize K'' name = c at hc'
  cases hc with
  | none =>
    cases hc'
    exact .none
  | some hab =>
    cases hc' with
    | some hbc => exact .some ⟨hab.types.trans hbc.types, hbc.rows.trans hab.rows⟩

theorem cases (h : K.Alike K') (name : List Byte) :
    (K name = none ∧ K' name = none) ∨ ∃ c c', K name = some c ∧ K' name = some c' ∧ c.Alike c' := by
  have hc := h name
  generalize K name = a at hc
  generalize K' name = b at hc
  cases hc with
  | none => exact .inl ⟨rfl, rfl⟩
  | @some c c' hcc => exact .inr ⟨c, c', rfl, rfl, hcc⟩

theorem isSome_eq (h : K.Alike K') (name : List Byte) : (K' name).isSome = (K name).isSome := by
  rcases h.cases name with ⟨hc, hc'⟩ | ⟨c, c', hc, hc', -⟩
  · rw [hc, hc']
  · rw [hc, hc']
    rfl

theorem nameError_eq (h : K.Alike K') (name : List Byte) : K'.nameError name = K.nameError name := by
  rw [Catalog.nameError, Catalog.nameError, h.isSome_eq]

theorem update (h : K.Alike K') {a b : Option Content} (hab : Option.Rel Content.Alike a b) :
    Catalog.Alike (Function.update K name a) (Function.update K' name b) := by
  intro name'
  by_cases hname : name' = name
  · subst hname
    rwa [Function.update_self, Function.update_self]
  · rw [Function.update_of_ne hname, Function.update_of_ne hname]
    exact h name'

theorem onTable (h : K.Alike K') (name : List Byte) (op : TupleOp) (missing : EngineReply) :
    (K'.onTable name op missing).1 = (K.onTable name op missing).1 ∧
      Catalog.Alike (K.onTable name op missing).2 (K'.onTable name op missing).2 := by
  rw [Catalog.onTable, Catalog.onTable]
  rcases h.cases name with ⟨hc, hc'⟩ | ⟨c, c', hc, hc', hcc⟩
  · rw [hc, hc']
    exact ⟨rfl, h⟩
  · rw [hc, hc']
    dsimp only
    rw [hcc.types.onRows_eq, hcc.rows]
    exact ⟨rfl, h.update (.some ⟨hcc.types, rfl⟩)⟩

theorem onCatalog (h : K.Alike K') (op : EngineOp) : (op.onCatalog K).Alike (op.onCatalog K') := by
  cases op with
  | createTable name types =>
    rw [EngineOp.onCatalog, EngineOp.onCatalog, h.nameError_eq]
    split_ifs
    · exact h.update (.some ⟨.refl _, rfl⟩)
    · exact h
  | dropTable name => exact h.update .none
  | insertTuple name values => exact (h.onTable ..).2
  | updateTuple name values => exact (h.onTable ..).2
  | _ => exact h

theorem admissible (h : K.Alike K') (hadm : op.Admissible K) : op.Admissible K' := by
  cases op with
  | createTable name types =>
    obtain ⟨hacc, hdeg, hlen⟩ := hadm
    refine ⟨hacc, hdeg, fun hname => ?_⟩
    rw [h.nameError_eq] at hname
    have hset : {name | (K' name).isSome} = {name | (K name).isSome} := by
      ext name
      exact Bool.eq_iff_iff.mp (h.isSome_eq name)
    rw [hset]
    exact hlen hname
  | _ => exact hadm

end Catalog.Alike

/-- The same reply, up to the order of names and the values that stand for types. -/
def EngineReply.Alike : EngineReply → EngineReply → Prop
  | names l, names l' => l.Perm l'
  | types o, types o' => Option.Rel SameTags o o'
  | r, r' => r' = r

/-- Both calls return, and alike, or both throw the same. -/
def AnswerAlike : Except Exn EngineReply → Except Exn EngineReply → Prop
  | .ok r, .ok r' => r.Alike r'
  | .error x, .error x' => x' = x
  | _, _ => False

theorem AnswerAlike.exists_ok {a : EngineReply} {r : Except Exn EngineReply} (h : AnswerAlike (.ok a) r) :
    ∃ b, r = .ok b ∧ a.Alike b := by
  cases r with
  | ok b => exact ⟨b, rfl, h⟩
  | error x => cases h

theorem AnswerAlike.of_eq {r r' : Except Exn EngineReply} (h : r' = r) : AnswerAlike r r' := by
  subst h
  cases r' with
  | error x => exact rfl
  | ok r =>
    cases r with
    | names l => exact List.Perm.refl l
    | types o =>
      cases o with
      | none => exact .none
      | some types => exact .some (.refl types)
    | _ => exact rfl

/-- What a catalog answers depends on the rows and the types of the columns. -/
theorem Catalog.Alike.answers {r r' : Except Exn EngineReply} (h : K.Alike K') (hr : op.Answers K r)
    (hr' : op.Answers K' r') : AnswerAlike r r' := by
  cases op with
  | createTable name types =>
    rw [EngineOp.Answers] at hr hr'
    rw [h.nameError_eq] at hr'
    exact .of_eq (hr'.trans hr.symm)
  | dropTable name =>
    rw [EngineOp.Answers] at hr hr'
    rw [h.isSome_eq] at hr'
    exact .of_eq (hr'.trans hr.symm)
  | getTableNames =>
    obtain ⟨l, rfl, hl, hmem⟩ := hr
    obtain ⟨l', rfl, hl', hmem'⟩ := hr'
    refine (List.perm_ext_iff_of_nodup hl hl').mpr fun name => ?_
    rw [hmem, hmem', h.isSome_eq]
  | getTableTypes name =>
    rw [EngineOp.Answers] at hr hr'
    subst hr hr'
    rcases h.cases name with ⟨hc, hc'⟩ | ⟨c, c', hc, hc', hcc⟩
    · rw [hc, hc']
      exact Option.Rel.none
    · rw [hc, hc']
      exact Option.Rel.some hcc.types
  | getNumTuples name =>
    rw [EngineOp.Answers] at hr hr'
    subst hr hr'
    rcases h.cases name with ⟨hc, hc'⟩ | ⟨c, c', hc, hc', hcc⟩
    · rw [hc, hc']
      exact .of_eq rfl
    · rw [hc, hc', Option.map_some, Option.map_some, hcc.rows]
      exact .of_eq rfl
  | insertTuple name values => exact .of_eq (hr'.trans ((h.onTable ..).1.trans hr.symm))
  | updateTuple name values => exact .of_eq (hr'.trans ((h.onTable ..).1.trans hr.symm))
  | removeTuple name key =>
    have hkey : ((K' name).bind fun c => keyError c.types key) = (K name).bind fun c => keyError c.types key := by
      rcases h.cases name with ⟨hc, hc'⟩ | ⟨c, c', hc, hc', hcc⟩
      · rw [hc, hc']
      · rw [hc, hc', Option.bind_some, Option.bind_some, hcc.types.keyError_eq]
    rw [EngineOp.Answers] at hr hr'
    rw [hkey] at hr'
    exact .of_eq (hr'.trans hr.symm)
  | getTuple name key => exact .of_eq (hr'.trans ((h.onTable ..).1.trans hr.symm))

/-- Calls with what they answer, none of which has to do without a page. -/
inductive Calls {Ref σ : Type} (C : CacheOps Ref σ) :
    StorageEngine σ → List EngineOp → List (Except Exn EngineReply) → StorageEngine σ → Prop
  | nil (e : StorageEngine σ) : Calls C e [] [] e
  | cons {e e₁ e₂ : StorageEngine σ} {op : EngineOp} {ops : List EngineOp} {r : Except Exn EngineReply}
      {rs : List (Except Exn EngineReply)} (fuel : ℕ) : op.run C fuel e = .answer r e₁ → r ≠ .error sizeLimit →
      Calls C e₁ ops rs e₂ → Calls C e (op :: ops) (r :: rs) e₂

/-- The catalog after some calls. -/
def Catalog.after (K : Catalog) (ops : List EngineOp) : Catalog := ops.foldl (fun K op => op.onCatalog K) K

/-- Every call is one that the engine is made for. -/
def Catalog.Admits : Catalog → List EngineOp → Prop
  | _, [] => True
  | K, op :: ops => op.Admissible K ∧ Catalog.Admits (op.onCatalog K) ops

theorem Catalog.Alike.after (h : K.Alike K') (ops : List EngineOp) : (K.after ops).Alike (K'.after ops) := by
  induction ops generalizing K K' with
  | nil => exact h
  | cons op ops ih => exact ih (h.onCatalog op)

theorem Catalog.Alike.admits (h : K.Alike K') (hadm : K.Admits ops) : K'.Admits ops := by
  induction ops generalizing K K' with
  | nil => trivial
  | cons op ops ih => exact ⟨h.admissible hadm.1, ih (h.onCatalog op) hadm.2⟩

theorem Catalog.admits_concat : K.Admits (ops ++ [op]) ↔ K.Admits ops ∧ op.Admissible (K.after ops) := by
  induction ops generalizing K with
  | nil => simp [Catalog.Admits, Catalog.after]
  | cons op' ops ih =>
    rw [List.cons_append, Catalog.Admits, Catalog.Admits, ih, and_assoc]
    rfl

theorem EngineOk.calls {rs : List (Except Exn EngineReply)} (h : EngineOk C e K) (hadm : K.Admits ops)
    (hcalls : Calls C.toCacheOps e ops rs e₁) : EngineOk C e₁ (K.after ops) := by
  induction hcalls generalizing K with
  | nil e => exact h
  | cons fuel hrun hne _ ih => exact ih (h.call hadm.1 hrun hne).2 hadm.2

/-- The same calls are answered alike. -/
theorem alike_of_calls {rs rs' : List (Except Exn EngineReply)} (h : EngineOk C e K) (h' : EngineOk D e' K')
    (hK : K.Alike K') (hadm : K.Admits ops) (hcalls : Calls C.toCacheOps e ops rs e₁)
    (hcalls' : Calls D.toCacheOps e' ops rs' e₁') : List.Forall₂ AnswerAlike rs rs' := by
  induction hcalls generalizing K K' e' rs' with
  | nil e =>
    cases hcalls'
    exact .nil
  | @cons e e₁ e₂ op ops r rs fuel hrun hne _ ih =>
    cases hcalls' with
    | cons fuel' hrun' hne' htail =>
      obtain ⟨hans, hok⟩ := h.call hadm.1 hrun hne
      obtain ⟨hans', hok'⟩ := h'.call (hK.admissible hadm.1) hrun' hne'
      exact .cons (hK.answers hans hans') (ih hok hok' (hK.onCatalog op) hadm.2 htail)

def EngineOp.IsRead : EngineOp → Prop
  | getTableNames => True
  | getTableTypes _ => True
  | getNumTuples _ => True
  | getTuple _ _ => True
  | _ => False

theorem EngineOk.read_ne {e₁ : StorageEngine σ} {r : Except Exn EngineReply} (h : EngineOk C e K) (hread : op.IsRead)
    (hadm : op.Admissible K) (hrun : op.run C.toCacheOps fuel e = .answer r e₁) : r ≠ .error sizeLimit := by
  rintro rfl
  cases op with
  | getTableNames =>
    obtain ⟨p, s', -, hok, -⟩ := h.getTableNames_eq fuel
    rw [hok] at hrun
    cases (Outcome.answer_of_ok hrun).1
  | getTableTypes name =>
    obtain ⟨c, hc⟩ := (h.answer_query (f := fun c => .ok c.types)
      (fun t c hp _ => h.query_page TablePage.types hp) hrun).2 _ rfl
    cases hc
  | getNumTuples name =>
    obtain ⟨c, hc⟩ := (h.answer_query (f := fun c => .ok (keys c.rows).ncard)
      (fun t c hp _ => h.query_page TablePage.numTuples hp) hrun).2 _ rfl
    cases hc
  | getTuple name key =>
    rcases onTable_answer (q := readTuple C.toCacheOps fuel key) (g := fun o => .row o.join)
        ((congrFun (map_map _ _) e).symm.trans hrun) with ⟨-, -, hr⟩ | ⟨i, t, y, st, ht, rfl, hy, -, hr⟩
    · cases hr
    obtain ⟨c, L, -, hdeg, ok, -⟩ := h.table ht
    obtain ⟨N, hinv⟩ := h.inv
    have hthrow : TupleOp.run C.toCacheOps fuel (.read key) ⟨e.pager, t⟩ = .answer (.error sizeLimit) st := by
      cases y with
      | ok v => cases hr
      | error x =>
        cases hr
        rw [TupleOp.run, bind_apply, seq, hy]
        rfl
    have ok₀ : C.Ok (⟨e.pager, t⟩ : TableState σ).pager := h.ok
    have hkey : (TupleOp.read key).key.isNaN = false := hadm
    rcases ok.run_of_ended ok₀ hinv (effectiveDegree_tableDegree_ge hdeg) hkey
        (hthrow ▸ Outcome.answer_ne_timeout) with ⟨st', L', hs', -⟩ | ⟨⟨-, hpages, -⟩, -⟩
    · have heq := (Outcome.answer_inj (hthrow.symm.trans hs')).1
      cases herr : TupleOp.error c.types (.read key) with
      | none =>
        rw [TupleOp.onRows_of_none herr] at heq
        cases heq
      | some x =>
        rw [TupleOp.onRows, herr] at heq
        cases heq
        rcases TupleOp.error_cases herr with hx | hx | hx <;> exact absurd hx (by decide)
    · refine hpages fun values hop => ?_
      cases hop
  | _ => exact hread

theorem EngineOk.read (h : EngineOk C e K) (hread : op.IsRead) (hadm : op.Admissible K) : ∃ n, ∀ fuel, n ≤ fuel →
    ∃ r e₁, op.run C.toCacheOps fuel e = .answer r e₁ ∧ op.Answers K r := by
  obtain ⟨n, hn⟩ := h.step_of_fuel hadm
  refine ⟨n, fun fuel hfuel => ?_⟩
  obtain ⟨r, e₁, hrun, hstep⟩ := hn fuel hfuel
  exact ⟨r, e₁, hrun, (hstep.resolve_left fun hlimit => h.read_ne hread hadm hrun hlimit.1).1⟩

end StorageEngine
end Kndb
