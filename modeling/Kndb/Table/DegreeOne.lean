import Kndb.Btree.DegreeOne
import Kndb.Table.NodeSize

namespace Kndb.Table

open Imp Imp.Prog Btree LawfulCache Pager

variable {σ : Type} {C : LawfulCache σ} {m : Mem} {N : ℕ} {st st' : TableState σ} {t : Table}
variable {types : Tuple} {op : TupleOp} {fuel : ℕ} {x : Except Exn (Reply Tuple)}

/-- A table whose tree is one empty leaf. -/
structure Bare (m : Mem) (t : Table) (types : Tuple) : Prop where
  page : ∃ p, TableAt m t.tablePageID p ∧ p.types = types
  types_ne : types ≠ []
  degree : t.degree = tableDegree types
  root : ∃ par, nodeAt m t.rootPageID = some (.new t.degree par true true t.rootPageID)

theorem Bare.run (ok : C.Ok st.pager) (hinv : Inv (C.mem st.pager) N) (h : Bare (C.mem st.pager) st.table types)
    (hone : effectiveDegree (tableDegree types) = 1) (hrun : op.run C.toCacheOps fuel st = .answer x st') :
    x = .error sizeLimit ∨
      C.Ok st'.pager ∧ (∃ N, Inv (C.mem st'.pager) N) ∧ Bare (C.mem st'.pager) st'.table types := by
  obtain ⟨p, hp, rfl⟩ := h.page
  -- one more step of fuel makes the call no different, and leaves room for the empty tree
  have hmore : op.run C.toCacheOps (fuel + 1) st = .answer x st' :=
    ((op.run_approx C.toCacheOps fuel.le_succ).eq (hrun ▸ Outcome.answer_ne_timeout)).trans hrun
  obtain ⟨s₁, ok₁, hm₁, heq⟩ := op.run_eq st ok hinv hp h.types_ne (fuel + 1)
  rw [hmore] at heq
  cases herr : op.error p.types with
  | some e =>
    rw [herr] at heq
    obtain ⟨-, rfl⟩ := Outcome.answer_inj (heq.trans (show _ = Outcome.answer (.error e) _ from rfl))
    exact .inr ⟨ok₁, ⟨N, hm₁ ▸ hinv⟩, hm₁ ▸ h⟩
  | none =>
    rw [herr] at heq
    obtain ⟨par, hroot⟩ := h.root
    rw [← hm₁] at hp hroot
    have ok₁' : (nodePager C).Ok (⟨s₁, st.table.rootPageID⟩ : BtreeState σ).pager := ⟨ok₁, N, hm₁ ▸ hinv⟩
    have hwp := Runs.start_full ok₁' (runs_onTree_degreeOne (P := nodePager C) (h.degree ▸ hone) fuel op.treeOp hroot)
    rcases htree : op.treeOp.onTree (nodeOps C.toCacheOps) st.table.degree (fuel + 1) ⟨s₁, st.table.rootPageID⟩
      with ⟨r, b⟩ | ⟨e, b⟩ | msg | _
    · right
      obtain ⟨⟨ok₂, N₂, hinv₂⟩, hframe, hheap⟩ := (wp_of_ok htree).mp hwp
      have hnodes : nodeAt (C.mem b.pager) = nodeAt (C.mem s₁) := congrArg Heap.nodes hheap
      have hsame : b.rootPageID = st.table.rootPageID := congrArg Heap.root hheap
      rw [← hsame, ← hnodes] at hroot
      by_cases hins : op.inserted r = true
      · obtain ⟨s₂, ok₃, hm₂, hrec⟩ := recordInsert_eq (TupleOp.afterTree ⟨s₁, st.table⟩ b) ok₂ hinv₂
          (hp.frame hframe) st.table.rootPageID
        obtain ⟨-, rfl⟩ := Outcome.answer_inj (heq.trans
          (show _ = Outcome.answer (.ok _) _ from TupleOp.body_of_inserted ⟨s₁, st.table⟩ htree hins hrec))
        obtain ⟨hinv₃, -, hat, hp₃⟩ := (hp.frame hframe).set hinv₂ (recorded p st.table.rootPageID b.rootPageID)
        refine ⟨ok₃, ⟨N₂, hm₂ ▸ hinv₃⟩, ⟨_, hm₂ ▸ hp₃, ?_⟩, h.types_ne, h.degree, par, ?_⟩
        · rw [recorded]
          split_ifs <;> rfl
        · rw [hm₂]
          exact (congrFun hat _).trans hroot
      · obtain ⟨-, rfl⟩ := Outcome.answer_inj (heq.trans (show _ = Outcome.answer (.ok _) _ from
          TupleOp.body_of_not_inserted ⟨s₁, st.table⟩ htree (Bool.eq_false_of_not_eq_true hins)))
        exact ⟨ok₂, ⟨N₂, hinv₂⟩, ⟨p, hp.frame hframe, rfl⟩, h.types_ne, h.degree, par, hroot⟩
    · left
      obtain ⟨rfl, -⟩ := (wp_of_throw htree).mp hwp
      exact (Outcome.answer_inj (heq.trans
        (show _ = Outcome.answer (.error _) _ from TupleOp.body_of_throw ⟨s₁, st.table⟩ htree))).1
    · have habort : op.body C.toCacheOps (fuel + 1) ⟨s₁, st.table⟩ = .abort msg := by
        rw [TupleOp.body, bind_ok (show gets TableState.table _ = _ from rfl), bind_apply, seq, onBtree, zoom, htree]
      have hends : Outcome.answer x st' = .abort msg := heq.trans habort
      cases x <;> cases hends
    · have hout : op.body C.toCacheOps (fuel + 1) ⟨s₁, st.table⟩ = .timeout := by
        rw [TupleOp.body, bind_ok (show gets TableState.table _ = _ from rfl), bind_apply, seq, onBtree, zoom, htree]
      exact absurd (heq.trans hout) Outcome.answer_ne_timeout

end Kndb.Table
