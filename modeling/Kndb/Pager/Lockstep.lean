import Kndb.Btree.Lockstep
import Kndb.Pager

namespace Kndb

open Imp Imp.Prog FSMPage

variable {Ref σ τ α : Type} {R : σ → τ → Prop}

/-- Caches that cannot be told apart, as long as their files grow no further than the pager wants them to. -/
structure CacheOps.Lockstep (R : σ → τ → Prop) (C : CacheOps Ref σ) (D : CacheOps Ref τ) : Prop where
  retrievePage : ∀ T id, Prog.Lockstep R (C.retrievePage T id) (D.retrievePage T id)
  insertPage : ∀ p, Prog.Lockstep R (C.insertPage p) (D.insertPage p)
  load : ∀ {s t}, R s t → ∀ r, C.load r s = D.load r t
  store : ∀ {s t}, R s t → ∀ r p, R (C.store r p s) (D.store r p t)
  getNumBlocks : ∀ {s t}, R s t → C.getNumBlocks s = D.getNumBlocks t
  grow : ∀ {s t}, R s t → C.getNumBlocks s / getBlocksInPage ≠ MAX_FSMPAGES →
    (C.createMultipleBlocks getBlocksInPage s).Rel R (D.createMultipleBlocks getBlocksInPage t)

variable {C : CacheOps Ref σ} {D : CacheOps Ref τ} (h : C.Lockstep R D)
include h

namespace CacheOps

variable {T : Type} [PageClass T]

theorem lockstep_retrieve (id : ℕ) : Prog.Lockstep R (C.retrieve T id) (D.retrieve T id) := h.retrievePage _ id

theorem lockstep_call (r : Ref) (p : Code T α) : Prog.Lockstep R (C.call r p) (D.call r p) := by
  intro s t hs
  rw [call, call, h.load hs]
  cases (PageClass.cast (D.load r t) : Option T) with
  | none => exact .abort _
  | some x =>
    dsimp only
    rw [zoom, zoom]
    cases p x with
    | ok a x' => exact .ok (h.store hs r _)
    | throw e x' => exact .throw (h.store hs r _)
    | abort m => exact .abort m
    | timeout => exact .timeout

theorem lockstep_deref (r : Ref) : Prog.Lockstep R (C.deref T r) (D.deref T r) := by
  intro s t hs
  rw [deref, deref, h.load hs]
  cases (PageClass.cast (D.load r t) : Option T) with
  | none => exact .abort _
  | some x => exact .ok hs

theorem lockstep_getNumBlocks : Prog.Lockstep R (gets C.getNumBlocks : Code σ ℕ) (gets D.getNumBlocks) :=
  lockstep_gets fun _ _ hs => h.getNumBlocks hs

end CacheOps

namespace FreeSpaceMap

open CacheOps

theorem lockstep_isFull : Prog.Lockstep R (isFull C) (isFull D) :=
  (lockstep_retrieve h 0).bind fun r => (lockstep_deref h r).bind fun _ => lockstep_pure _

theorem lockstep_isFree (pageID : ℕ) : Prog.Lockstep R (isFree C pageID) (isFree D pageID) :=
  (lockstep_retrieve h _).bind fun r => lockstep_call h r _

theorem lockstep_popIfFull (first next : Ref) : Prog.Lockstep R (popIfFull C first next) (popIfFull D first next) :=
  (lockstep_deref h next).bind fun _ => .ite (lockstep_call h first _) (lockstep_pure _)

theorem lockstep_allocBit : Prog.Lockstep R (allocBit C) (allocBit D) := by
  refine (lockstep_isFull h).bind fun b => (lockstep_require ..).bind fun _ => ?_
  refine (lockstep_retrieve h 0).bind fun first => (lockstep_deref h first).bind fun p => .ite ?_ ?_
  · exact (lockstep_call h first _).bind fun bit => (lockstep_call h first _).bind fun _ => lockstep_pure _
  · refine (lockstep_deref h first).bind fun p => (lockstep_retrieve h _).bind fun next => ?_
    refine (lockstep_call h next _).bind fun bit => (lockstep_call h next _).bind fun _ => ?_
    exact (lockstep_popIfFull h first next).bind fun _ => lockstep_pure _

theorem lockstep_push (first page : Ref) (pageID : ℕ) :
    Prog.Lockstep R (push C first page pageID) (push D first page pageID) :=
  (lockstep_deref h first).bind fun _ => (lockstep_call h first _).bind fun _ => lockstep_call h page _

theorem lockstep_linkFSMPage (pageID : ℕ) : Prog.Lockstep R (linkFSMPage C pageID) (linkFSMPage D pageID) :=
  (lockstep_retrieve h 0).bind fun first => (lockstep_retrieve h pageID).bind fun new => lockstep_push h first new _

end FreeSpaceMap

namespace Pager

open CacheOps FreeSpaceMap

theorem lockstep_getPage (T : PageType) (pageID : ℕ) : Prog.Lockstep R (getPage C T pageID) (getPage D T pageID) := by
  refine (lockstep_getNumBlocks h).bind fun n => (lockstep_require ..).bind fun _ => ?_
  exact (lockstep_isFree h pageID).bind fun b => (lockstep_require ..).bind fun _ => h.retrievePage T pageID

theorem lockstep_createFSMPage : Prog.Lockstep R (createFSMPage C) (createFSMPage D) := by
  intro s t hs
  have hn := h.getNumBlocks hs
  by_cases hfull : C.getNumBlocks s / getBlocksInPage = MAX_FSMPAGES
  · have hC : createFSMPage C s = .throw sizeLimit s := by
      rw [createFSMPage, bind_apply, seq, gets]
      dsimp only
      rw [if_pos hfull]
      rfl
    have hD : createFSMPage D t = .throw sizeLimit t := by
      rw [createFSMPage, bind_apply, seq, gets]
      dsimp only
      rw [if_pos (hn ▸ hfull)]
      rfl
    rw [hC, hD]
    exact .throw hs
  · rw [createFSMPage, createFSMPage, bind_apply, bind_apply, seq, seq, gets, gets]
    dsimp only
    rw [if_neg hfull, if_neg (hn ▸ hfull)]
    refine rel_bind (h.grow hs hfull) fun n s' t' _ hs' => ?_
    exact ((h.insertPage _).bind fun _ => .ite (lockstep_linkFSMPage h n) (lockstep_pure _)) hs'

theorem lockstep_fsmPageNeeded : Prog.Lockstep R (fsmPageNeeded C) (fsmPageNeeded D) :=
  (lockstep_getNumBlocks h).bind fun _ => .ite (lockstep_pure _) (lockstep_isFull h)

theorem lockstep_allocPageID : Prog.Lockstep R (allocPageID C) (allocPageID D) := by
  refine (lockstep_fsmPageNeeded h).bind fun b => ?_
  exact .ite ((lockstep_createFSMPage h).bind fun _ => lockstep_allocBit h) (lockstep_allocBit h)

omit h in
theorem lockstep_construct (args : PageArgs) (pageID : ℕ) :
    Prog.Lockstep R (args.construct pageID : Code σ Page) (args.construct pageID) := by
  cases args with
  | table types btreePageID =>
    refine Lockstep.bind ((lockstep_require ..).bind fun _ => ?_) fun _ => lockstep_pure _
    exact (lockstep_require ..).bind fun _ => lockstep_pure _
  | _ => exact lockstep_pure _

theorem lockstep_createNewPage (args : PageArgs) : Prog.Lockstep R (createNewPage C args) (createNewPage D args) := by
  refine (lockstep_allocPageID h).bind fun id => (lockstep_construct args id).bind fun p => ?_
  exact (h.insertPage p).bind fun _ => lockstep_getPage h _ id

theorem lockstep_nodeOps : (nodeOps C).Lockstep R (nodeOps D) where
  getPage id := lockstep_getPage h .node id
  createNewPage mk := by
    refine (lockstep_allocPageID h).bind fun id => ?_
    exact (h.insertPage _).bind fun _ => lockstep_getPage h .node id
  load hs r := by
    change (PageClass.cast (C.load r _)).getD _ = (PageClass.cast (D.load r _)).getD _
    rw [h.load hs]
  store hs r n := h.store hs r _

end Pager
end Kndb
