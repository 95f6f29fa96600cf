import Kndb.Btree
import Kndb.Library.Lockstep

namespace Kndb

open Imp Imp.Prog

variable {Ref σ τ T α : Type} {R : σ → τ → Prop}

/-- Pagers that cannot be told apart. -/
structure PagerOps.Lockstep (R : σ → τ → Prop) (P : PagerOps Ref σ T) (Q : PagerOps Ref τ T) : Prop where
  getPage : ∀ id, Prog.Lockstep R (P.getPage id) (Q.getPage id)
  createNewPage : ∀ mk, Prog.Lockstep R (P.createNewPage mk) (Q.createNewPage mk)
  load : ∀ {s t}, R s t → ∀ r, P.load r s = Q.load r t
  store : ∀ {s t}, R s t → ∀ r n, R (P.store r n s) (Q.store r n t)

namespace Btree

structure Alongside (R : σ → τ → Prop) (st : BtreeState σ) (st' : BtreeState τ) : Prop where
  pager : R st.pager st'.pager
  root : st.rootPageID = st'.rootPageID

variable {P : PagerOps Ref σ T} {Q : PagerOps Ref τ T}

theorem lockstep_onPager {p : Code σ α} {q : Code τ α} (h : Lockstep R p q) :
    Lockstep (Alongside R) (onPager p) (onPager q) :=
  h.zoom (fun _ _ hst => hst.pager) fun _ _ _ _ hst hs => ⟨hs, hst.root⟩

theorem lockstep_root : Lockstep (Alongside R) (gets BtreeState.rootPageID : BtreeM σ ℕ) (gets BtreeState.rootPageID) :=
  lockstep_gets fun _ _ h => h.root

section

variable (h : P.Lockstep R Q)
include h

theorem lockstep_node (id : ℕ) : Lockstep (Alongside R) (B_NODE P id) (B_NODE Q id) := lockstep_onPager (h.getPage id)

theorem lockstep_new (deg par : ℕ) (root leaf : Bool) :
    Lockstep (Alongside R) (B_NEW P deg par root leaf) (B_NEW Q deg par root leaf) :=
  lockstep_onPager (h.createNewPage _)

theorem lockstep_deref (r : Ref) : Lockstep (Alongside R) (deref P r) (deref Q r) :=
  lockstep_gets fun _ _ hst => h.load hst.pager r

theorem lockstep_modify (r : Ref) (f : BtreeNodePage T → BtreeNodePage T) :
    Lockstep (Alongside R) (modify P r f) (modify Q r f) := by
  refine lockstep_change fun st st' hst => ⟨?_, hst.root⟩
  change R (P.store r (f (P.load r st.pager)) st.pager) (Q.store r (f (Q.load r st'.pager)) st'.pager)
  rw [h.load hst.pager]
  exact h.store hst.pager r _

theorem lockstep_searchRowPtr (key : Vari) (fuel id : ℕ) :
    Lockstep (Alongside R) (searchRowPtr P key fuel id) (searchRowPtr Q key fuel id) := by
  induction fuel generalizing id with
  | zero => exact lockstep_outOfFuel
  | succ fuel ih =>
    refine (lockstep_node h id).bind fun r => (lockstep_deref h r).bind fun node => ?_
    refine (lockstep_require ..).bind fun _ => (lockstep_require ..).bind fun _ => ?_
    refine (lockstep_require ..).bind fun _ => ?_
    exact .ite (lockstep_pure _) (.ite (lockstep_pure _) ((lockstep_at? ..).bind ih))

theorem lockstep_search (fuel : ℕ) (key : Vari) : Lockstep (Alongside R) (search P fuel key) (search Q fuel key) := by
  refine lockstep_root.bind fun root => (lockstep_searchRowPtr h key fuel root).bind fun row => ?_
  refine .ite (lockstep_pure _) ?_
  refine (lockstep_node h _).bind fun r => (lockstep_deref h r).bind fun node => ?_
  exact (lockstep_at? ..).bind fun cell => lockstep_pure _

theorem lockstep_update (fuel : ℕ) (values : T) (key : Vari) :
    Lockstep (Alongside R) (update P fuel values key) (update Q fuel values key) := by
  refine lockstep_root.bind fun root => (lockstep_searchRowPtr h key fuel root).bind fun row => ?_
  refine .ite (lockstep_pure _) ?_
  refine (lockstep_node h _).bind fun r => (lockstep_deref h r).bind fun node => (lockstep_at? ..).bind fun cell => ?_
  exact (lockstep_modify h r _).bind fun _ => lockstep_pure _

theorem lockstep_setParents (newParent : ℕ) (ids : List ℕ) :
    Lockstep (Alongside R) (setParents P newParent ids) (setParents Q newParent ids) := by
  induction ids with
  | nil => exact lockstep_pure _
  | cons id ids ih => exact (lockstep_node h id).bind fun r => (lockstep_modify h r _).bind fun _ => ih

theorem lockstep_moveRightHalf (node newNode : Ref) (median : ℕ) :
    Lockstep (Alongside R) (moveRightHalf P node newNode median) (moveRightHalf Q node newNode median) := by
  refine (lockstep_deref h node).bind fun n => (lockstep_require ..).bind fun _ => ?_
  refine (lockstep_modify h _ _).bind fun _ => (lockstep_modify h _ _).bind fun _ => .ite ?_ (lockstep_pure _)
  refine (lockstep_require ..).bind fun _ => (lockstep_modify h _ _).bind fun _ => ?_
  refine (lockstep_deref h _).bind fun m => (lockstep_deref h _).bind fun m' => ?_
  exact (lockstep_setParents h _ _).bind fun _ => lockstep_modify h _ _

theorem lockstep_splitNonRoot (m_degree : ℕ) (node : Ref) (id : ℕ) :
    Lockstep (Alongside R) (splitNonRoot P m_degree node id) (splitNonRoot Q m_degree node id) := by
  refine (lockstep_deref h _).bind fun n => (lockstep_node h _).bind fun parent => ?_
  refine (lockstep_deref h _).bind fun p => (lockstep_deref h _).bind fun p' => (lockstep_require ..).bind fun _ => ?_
  refine (lockstep_deref h _).bind fun n' => (lockstep_at? ..).bind fun cell => (lockstep_deref h _).bind fun p => ?_
  refine (lockstep_require ..).bind fun _ => ?_
  refine (lockstep_modify h _ _).bind fun _ => (lockstep_modify h _ _).bind fun _ => ?_
  refine (lockstep_deref h _).bind fun p => (lockstep_deref h _).bind fun n => ?_
  refine (lockstep_new h _ _ _ _).bind fun new => ?_
  refine (lockstep_moveRightHalf h _ _ _).bind fun _ => (lockstep_deref h _).bind fun m => ?_
  exact (lockstep_deref h _).bind fun p => (lockstep_require ..).bind fun _ => lockstep_modify h _ _

theorem lockstep_splitRoot (m_degree : ℕ) (node : Ref) (id : ℕ) :
    Lockstep (Alongside R) (splitRoot P m_degree node id) (splitRoot Q m_degree node id) := by
  refine (lockstep_new h _ _ _ _).bind fun newRoot => (lockstep_deref h _).bind fun r => ?_
  refine (lockstep_change fun st st' hst => ⟨hst.pager, rfl⟩).bind fun _ => ?_
  refine (lockstep_modify h _ _).bind fun _ => (lockstep_modify h _ _).bind fun _ => ?_
  refine (lockstep_deref h _).bind fun n => (lockstep_at? ..).bind fun cell => ?_
  refine (lockstep_modify h _ _).bind fun _ => (lockstep_modify h _ _).bind fun _ => ?_
  refine (lockstep_node h _).bind fun r => (lockstep_deref h _).bind fun n => ?_
  refine (lockstep_new h _ _ _ _).bind fun new => ?_
  refine (lockstep_moveRightHalf h _ _ _).bind fun _ => (lockstep_modify h _ _).bind fun _ => ?_
  exact (lockstep_deref h _).bind fun m => lockstep_modify h _ _

theorem lockstep_split (m_degree fuel id : ℕ) :
    Lockstep (Alongside R) (split P m_degree fuel id) (split Q m_degree fuel id) := by
  induction fuel generalizing id with
  | zero => exact lockstep_outOfFuel
  | succ fuel ih =>
    refine (lockstep_node h id).bind fun r => (lockstep_deref h r).bind fun n => .ite (lockstep_pure _) ?_
    have hfull : Lockstep (Alongside R) (splitFull P m_degree r id n.root) (splitFull Q m_degree r id n.root) :=
      .ite (lockstep_splitNonRoot h m_degree r id) (lockstep_splitRoot h m_degree r id)
    exact hfull.bind fun _ => (lockstep_deref h r).bind fun n => .ite (ih _) (lockstep_pure _)

theorem lockstep_insert (m_degree fuel : ℕ) (values : T) (key : Vari) :
    Lockstep (Alongside R) (insert P m_degree fuel values key) (insert Q m_degree fuel values key) := by
  refine lockstep_root.bind fun root => (lockstep_searchRowPtr h key fuel root).bind fun row => ?_
  refine .ite (lockstep_pure _) ?_
  refine (lockstep_node h _).bind fun r => (lockstep_deref h _).bind fun n => (lockstep_require ..).bind fun _ => ?_
  refine (lockstep_node h _).bind fun r => (lockstep_modify h _ _).bind fun _ => ?_
  exact (lockstep_split h _ _ _).bind fun _ => lockstep_pure _

end

end Btree
end Kndb
