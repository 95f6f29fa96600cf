import Kndb.Btree.Closed
import Kndb.Table.Create

namespace Kndb.Table

open Imp Imp.Prog Btree LawfulCache Pager

variable {σ α : Type} {C : LawfulCache σ} {m m' m'' : Mem} {N : ℕ} {st st' : TableState σ} {t : Table}
variable {S S' S'' : Set ℕ} {p : TablePage}

/-- The pages of `S` are nodes, and their links lead to pages of `S`. -/
structure Nodes (m : Mem) (S : Set ℕ) : Prop where
  node : ∀ x ∈ S, ∃ n, nodeAt m x = some n
  links : ∀ x ∈ S, ∀ n, nodeAt m x = some n → LinksTo S n

theorem Nodes.congr (h : Nodes m S) (heq : ∀ x ∈ S, nodeAt m' x = nodeAt m x) : Nodes m' S where
  node x hx := by
    rw [heq x hx]
    exact h.node x hx
  links x hx n hn := h.links x hx n (heq x hx ▸ hn)

theorem Nodes.closed (h : Nodes m S) {root : ℕ} (hroot : root ∈ S) {a : ℕ∞} :
    Closed S S (⟨nodeAt m, root, a⟩ : Heap Tuple) := ⟨subset_rfl, h.node, h.links, hroot⟩

/-- The table has its page, and its root and the one on the page are among `S`. -/
structure Rooted (m : Mem) (S : Set ℕ) (t : Table) : Prop where
  root : t.rootPageID ∈ S
  page : ∃ p, TableAt m t.tablePageID p ∧ p.types ≠ [] ∧ p.btreePageID ∈ S

/-- From `m` to `m'` nodes may change and table pages may get another root among `S'` and another
number of tuples. -/
structure Kept (m m' : Mem) (S S' : Set ℕ) : Prop where
  inv : ∃ N, Inv m' N
  sub : S ⊆ S'
  nodes : Nodes m' S'
  tables : ∀ x p, TableAt m x p → p.btreePageID ∈ S →
    ∃ p', TableAt m' x p' ∧ p'.types = p.types ∧ p'.btreePageID ∈ S'
  other : ∀ x ∈ liveIds m, nodeAt m x = none → (∀ p, ¬TableAt m x p) →
    x ∈ liveIds m' ∧ m'.view x = m.view x

theorem Kept.rooted (h : Kept m m' S S') (hr : Rooted m S t) {root : ℕ} (hroot : root ∈ S') :
    Rooted m' S' { t with rootPageID := root } where
  root := hroot
  page := by
    obtain ⟨p, hp, hne, hmem⟩ := hr.page
    obtain ⟨p', hp', htypes, hmem'⟩ := h.tables _ p hp hmem
    exact ⟨p', hp', htypes ▸ hne, hmem'⟩

theorem Kept.of_eq (hm : m' = m) (hinv : Inv m N) (hn : Nodes m S) : Kept m m' S S := by
  subst hm
  exact ⟨⟨N, hinv⟩, subset_rfl, hn, fun _ p hp hmem => ⟨p, hp, rfl, hmem⟩, fun _ hx _ _ => ⟨hx, rfl⟩⟩

theorem Kept.view_eq (h : Kept m m' S S') {id : ℕ} {q : Page} (hlive : id ∈ liveIds m) (hview : m.view id = some q)
    (hnone : nodeAt m id = none) (htable : ∀ p, q ≠ .table p) : id ∈ liveIds m' ∧ m'.view id = some q := by
  obtain ⟨hlive', hview'⟩ := h.other id hlive hnone fun p hp =>
    htable p (Option.some.inj (hview.symm.trans hp.2))
  exact ⟨hlive', hview'.trans hview⟩

theorem Kept.of_frame (hf : Frame m m') (hinv : Inv m' N) (hsub : S ⊆ S') (hn : Nodes m' S') :
    Kept m m' S S' :=
  ⟨⟨N, hinv⟩, hsub, hn, fun _ p hp hmem => ⟨p, hp.frame hf, rfl, hsub hmem⟩,
    fun x hx hnone _ => ⟨hf.live hx, hf.other x hx hnone⟩⟩

theorem Kept.setTable (h : Kept m m' S S') {id : ℕ} (hinv : Inv m' N) (hp : TableAt m' id p) {p' : TablePage}
    (htypes : p'.types = p.types) (hroot : p'.btreePageID ∈ S') : Kept m (m'.set id (.table p')) S S' := by
  obtain ⟨hinv', hlive, hat, hp'⟩ := hp.set hinv p'
  refine ⟨⟨N, hinv'⟩, h.sub, h.nodes.congr fun x _ => congrFun hat x, fun x q hq hmem => ?_,
    fun x hx hnone htable => ?_⟩
  · obtain ⟨q', hq', htypes', hmem'⟩ := h.tables x q hq hmem
    by_cases hxid : x = id
    · subst hxid
      have heq : q' = p := Page.table.inj (Option.some.inj (hq'.2.symm.trans hp.2))
      exact ⟨p', hp', htypes.trans (heq ▸ htypes'), hroot⟩
    · refine ⟨q', ⟨hlive ▸ hq'.1, ?_⟩, htypes', hmem'⟩
      rw [Mem.set_of_ne hxid, hq'.2]
  · obtain ⟨hx', hview⟩ := h.other x hx hnone htable
    have hxid : x ≠ id := by
      rintro rfl
      exact htable p ⟨hx, hview.symm.trans hp.2⟩
    exact ⟨hlive ▸ hx', (Mem.set_of_ne hxid ..).trans hview⟩

/-- The program keeps the pages, however it ends. -/
def Keeps (C : LawfulCache σ) (S : Set ℕ) (q : TableM σ α) (st : TableState σ) : Prop :=
  q.wp st (fun _ st' => C.Ok st'.pager ∧ ∃ S', Kept (C.mem st.pager) (C.mem st'.pager) S S' ∧
      st'.table.rootPageID ∈ S' ∧ st'.table = { st.table with rootPageID := st'.table.rootPageID })
    (fun _ st' => C.Ok st'.pager ∧ ∃ S', Kept (C.mem st.pager) (C.mem st'.pager) S S' ∧
      st'.table.rootPageID ∈ S' ∧ st'.table = { st.table with rootPageID := st'.table.rootPageID })
    fun _ => True

theorem keeps_of_mem_eq {q : TableM σ α} {a : α} {s' : σ} (hinv : Inv (C.mem st.pager) N)
    (hn : Nodes (C.mem st.pager) S) (hr : Rooted (C.mem st.pager) S st.table) (ok : C.Ok s')
    (hm : C.mem s' = C.mem st.pager) (hq : q st = .ok a { st with pager := s' }) : Keeps C S q st :=
  (wp_of_ok hq).mpr ⟨ok, S, Kept.of_eq hm hinv hn, hr.root, rfl⟩

theorem keeps_tablePage (st : TableState σ) (ok : C.Ok st.pager) (hinv : Inv (C.mem st.pager) N)
    (hn : Nodes (C.mem st.pager) S) (hr : Rooted (C.mem st.pager) S st.table) (f : TablePage → α) :
    Keeps C S (do return f (← tablePage C.toCacheOps)) st := by
  obtain ⟨p, hp, -⟩ := hr.page
  obtain ⟨s', ok', hm, hs'⟩ := tablePage_eq st ok hinv hp
  exact keeps_of_mem_eq (a := f p) hinv hn hr ok' hm (bind_ok hs')

theorem keeps_deleteTuple (st : TableState σ) (ok : C.Ok st.pager) (hinv : Inv (C.mem st.pager) N)
    (hn : Nodes (C.mem st.pager) S) (hr : Rooted (C.mem st.pager) S st.table) (key : Vari) :
    Keeps C S (deleteTuple C.toCacheOps key) st := by
  obtain ⟨p, hp, hne, -⟩ := hr.page
  obtain ⟨s', ok', hm, hs'⟩ := checkKey_eq st ok hinv hp hne key
  cases herr : keyError p.types key with
  | none =>
    rw [herr] at hs'
    exact wp_bind.mpr ((wp_of_ok hs').mpr ⟨ok', S, .of_eq hm hinv hn, hr.root, rfl⟩)
  | some e =>
    rw [herr] at hs'
    exact wp_bind.mpr ((wp_of_throw hs').mpr ⟨ok', S, .of_eq hm hinv hn, hr.root, rfl⟩)

theorem TupleOp.keeps (st : TableState σ) (ok : C.Ok st.pager) (hinv : Inv (C.mem st.pager) N)
    (hn : Nodes (C.mem st.pager) S) (hr : Rooted (C.mem st.pager) S st.table) (op : TupleOp) (fuel : ℕ) :
    Keeps C S (op.run C.toCacheOps fuel) st := by
  obtain ⟨p, hp, hne, hmem⟩ := hr.page
  obtain ⟨s₁, ok₁, hm₁, hrun⟩ := op.run_eq st ok hinv hp hne fuel
  cases herr : op.error p.types with
  | some e =>
    rw [herr] at hrun
    exact (wp_of_throw hrun).mpr ⟨ok₁, S, Kept.of_eq hm₁ hinv hn, hr.root, rfl⟩
  | none =>
    rw [herr] at hrun
    refine (wp_congr (show _ = op.body C.toCacheOps fuel ⟨s₁, st.table⟩ from hrun)).mpr ?_
    have hwired : Wired S (heap (nodePager C) ⟨s₁, st.table.rootPageID⟩) := by
      refine ⟨S, ?_⟩
      rw [← hm₁] at hn
      exact hn.closed hr.root
    have ok₁' : (nodePager C).Ok (⟨s₁, st.table.rootPageID⟩ : BtreeState σ).pager := ⟨ok₁, N, hm₁ ▸ hinv⟩
    have hf₁ : Frame (C.mem st.pager) (C.mem s₁) := hm₁ ▸ .refl _
    have htree := Runs.start ok₁' (hwired.runs_onTree op.treeOp fuel :
      Runs _ _ (op.treeOp.onTree (nodeOps C.toCacheOps) st.table.degree fuel) _ _ _ fun _ => True)
    rw [TupleOp.body, wp_bind, wp_gets, wp_bind, onBtree, wp_zoom]
    refine wp_mono htree ?_ ?_ fun _ hA => hA
    · rintro r b ⟨⟨ok', N', hinv'⟩, hf, S', hc⟩
      have hkept : Kept (C.mem st.pager) (C.mem b.pager) S S' :=
        .of_frame (hf₁.trans hf) hinv' hc.grown ⟨hc.node, hc.links⟩
      by_cases hins : op.inserted r = true
      · have hp' := hp.frame (hf₁.trans hf)
        obtain ⟨s₂, ok₂, hm₂, hrec⟩ := recordInsert_eq (TupleOp.afterTree ⟨s₁, st.table⟩ b) ok' hinv' hp'
          st.table.rootPageID
        rw [if_pos hins]
        -- the table page is left with the old root or gets the new one, a node in either case
        have hrecorded : (recorded p st.table.rootPageID b.rootPageID).types = p.types ∧
            (recorded p st.table.rootPageID b.rootPageID).btreePageID ∈ S' := by
          rw [recorded]
          split_ifs
          · exact ⟨rfl, hc.root⟩
          · exact ⟨rfl, hc.grown hmem⟩
        have hkept₂ := hkept.setTable hinv' hp' hrecorded.1 hrecorded.2
        exact wp_bind.mpr ((wp_of_ok hrec).mpr ⟨ok₂, S', hm₂ ▸ hkept₂, hc.root, rfl⟩)
      · rw [if_neg hins]
        exact ⟨ok', S', hkept, hc.root, rfl⟩
    · rintro e b ⟨⟨ok', N', hinv'⟩, hf, S', hc⟩
      have hkept : Kept (C.mem st.pager) (C.mem b.pager) S S' :=
        .of_frame (hf₁.trans hf) hinv' hc.grown ⟨hc.node, hc.links⟩
      exact ⟨ok', S', hkept, hc.root, rfl⟩

end Kndb.Table
