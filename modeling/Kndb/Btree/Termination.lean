import Kndb.Utility
import Kndb.Btree.Reachable
import Kndb.Btree.Shape

namespace Kndb.Btree

open Imp Imp.Prog

variable {σ T : Type} {P : LawfulPager σ T} {s₀ : σ} {h : Heap T} {deg : ℕ} {L : Layout}

/-- The links of the heap agree with some layout. -/
def Intact (deg : ℕ) (h : Heap T) : Prop := ∃ L, Linked deg h.nodes h.root L

theorem CutAt.linked_stuck {nodes : ℕ → Option (BtreeNodePage T)} {root : ℕ} {c : Cut T}
    (hc : CutAt deg nodes root L c) : Linked deg (stuckNodes nodes c) root L := by
  have hp : Linked deg (Function.update nodes c.n.parentID
      (some (c.p.setCells (c.C ++ c.m :: c.D)))) root L := hc.linked.setCells hc.parent
  have hn : Function.update nodes c.n.parentID (some (c.p.setCells (c.C ++ c.m :: c.D))) c.id =
      some c.n := by
    rw [Function.update_of_ne hc.pid_ne_id.symm, hc.node]
  exact hp.setCells hn

/-- A new root that has no children yet is a tree of its own. -/
theorem linked_stuckRoot {nodes : ℕ → Option (BtreeNodePage T)} {id r : ℕ} {n : BtreeNodePage T}
    {m : Cell T} (hne : r ≠ id) :
    Linked deg (stuckRootNodes nodes deg id r n m) r ⟨{r}, fun _ => 1, fun _ => ⊥, fun _ => ⊤⟩ := by
  refine ⟨by simp, by simp, fun p hp => ?_⟩
  obtain rfl : p = r := by simpa using hp
  refine ⟨_, (Function.update_of_ne hne ..).trans (Function.update_self ..), ?_⟩
  constructor <;> simp [BtreeNodePage.new, BtreeNodePage.setCells]

theorem Intact.runs_split (hu : effectiveDegree deg ≠ 1) (d : ℕ) {fuel id : ℕ}
    (ht : Linked deg h.nodes h.root L) (hid : id ∈ L.pages)
    (hd : L.height id + d = L.height h.root) (hfuel : d + 2 ≤ fuel) :
    Runs P s₀ (split P.toPagerOps deg fuel id) h (fun _ => Intact deg) (Intact deg) (· = .abort) := by
  induction d generalizing h L fuel id with
  -- `d` counts the levels between the page and the root, which the cascade climbs
  | zero =>
    obtain rfl : id = h.root := ht.eq_root hid hd
    obtain ⟨fuel, rfl⟩ : ∃ f, fuel = f + 1 + 1 := ⟨fuel - 2, by omega⟩
    obtain ⟨n, hn, hok⟩ := ht.link _ hid
    by_cases hlt : n.cells.length < n.maxKeys
    · exact runs_split_of_lt hn hlt ⟨L, ht⟩
    have hroot : n.root = true := hok.root_iff.mpr rfl
    rw [split]
    refine runs_bind (runs_node hn (runs_bind (runs_deref hn fun _ => ?_)))
    rw [if_neg hlt, hroot]
    refine runs_bind (runs_splitRoot hn hok.degree hok.leaf_children ?_ (fun _ => rfl) ?_ ?_ ?_)
    · intro q hq
      obtain ⟨-, hh, o, ho, -⟩ := hok.kids q hq
      refine ⟨?_, o, ho⟩
      rintro rfl
      omega
    · intro _ r new a m hr hnew ha hm
      have hg := ht.grow hn hr
      have hmem : h.root ∈ (L.grow h.root r).pages := L.mem_grow hid
      have hne : h.root ≠ r := ht.ne_fresh hr hid
      obtain ⟨p, hp, hl, -⟩ := hg.attached hmem hne growNodes_root
      obtain rfl : newRootNode deg h.root r = p := Option.some.inj ((growNodes_new hne).symm.trans hp)
      have hs : SplitAt deg (growNodes h.nodes deg h.root r n) r (L.grow h.root r)
          (.atMedian h.root new ((n.setRoot false).setParent r) (newRootNode deg h.root r) m) :=
        ⟨hl.cutAt hg hmem hne hm, hnew⟩
      set c := Cut.atMedian h.root new ((n.setRoot false).setParent r) (newRootNode deg h.root r) m
      have hleft : splitNodes (growNodes h.nodes deg h.root r n) c h.root = some c.leftNode :=
        SplitAt.at_id
      have hlt' : c.parentNode.cells.length < c.parentNode.maxKeys := by
        have hone : c.parentNode.cells.length = 1 := by
          simp [c, Cut.parentNode, Cut.atMedian, newRootNode, BtreeNodePage.new]
        have hpos := effectiveDegree_pos deg
        rw [maxKeys_eq, hone, show c.parentNode.degree = deg from rfl]
        omega
      refine runs_bind (runs_deref hleft fun _ => ?_)
      exact runs_split_of_lt hs.at_pid hlt' ⟨_, hs.linked_split⟩
    · exact fun _ => ⟨L, ht⟩
    · exact fun r m hr _ _ => ⟨_, linked_stuckRoot (ht.ne_fresh hr hid).symm⟩
  -- the halves stay linked to a parent one level up, on which the next call runs
  | succ d ih =>
    obtain ⟨fuel, rfl⟩ : ∃ f, fuel = f + 1 := ⟨fuel - 1, by omega⟩
    obtain ⟨n, hn, hok⟩ := ht.link _ hid
    by_cases hlt : n.cells.length < n.maxKeys
    · exact runs_split_of_lt hn hlt ⟨L, ht⟩
    have hne : id ≠ h.root := by
      rintro rfl
      omega
    obtain ⟨p, hp, hl, hup⟩ := ht.attached hid hne hn
    rw [split]
    refine runs_bind (runs_node hn (runs_bind (runs_deref hn fun _ => ?_)))
    rw [if_neg hlt, hl.not_root]
    refine runs_bind (runs_splitNonRoot hl (fun _ => rfl) ?_ ?_)
    · intro _ new a m hnew ha hm
      have hs : SplitAt deg h.nodes h.root L (.atMedian id new n p m) :=
        ⟨hl.cutAt ht hid hne hm, hnew⟩
      set c := Cut.atMedian id new n p m
      have hleft : splitNodes h.nodes c id = some c.leftNode := SplitAt.at_id
      refine runs_bind (runs_deref hleft fun _ => ?_)
      rw [show c.leftNode.root = false from hl.not_root]
      refine ih hs.linked_split (SplitAt.mem_split hs.pid_mem) ?_ (by omega)
      have h1 : (L.split c).height n.parentID = L.height n.parentID := hs.split_height hs.pid_mem
      have h2 : (L.split c).height h.root = L.height h.root := hs.split_height ht.root_mem
      change (L.split c).height n.parentID + d = (L.split c).height h.root
      omega
    · exact fun _ new m hm _ => ⟨L, (hl.cutAt ht hid hne hm).linked_stuck⟩

theorem Intact.runs_searchRowPtr {R : Heap T → Prop} (ht : Linked deg h.nodes h.root L) {key : Vari}
    {fuel : ℕ} (hfuel : L.height h.root < fuel) :
    Runs P s₀ (searchRowPtr P.toPagerOps key fuel h.root) h
      (fun row h' => h' = h ∧ row.pageID ∈ L.pages ∧ ∃ n, h.nodes row.pageID = some n) R
      (· = .abort) := by
  refine runs_mono (Btree.runs_searchRowPtr (o := False) (A := (· = .abort)) ht (fun _ => rfl) fuel
    fuel h.root ht.root_mem hfuel hfuel False.elim) ?_ (fun _ hr => hr) fun _ hA => hA
  rintro row h' ⟨rfl, hm, n, hn, -⟩
  exact ⟨rfl, hm, n, hn⟩

theorem Intact.runs_insert (hu : effectiveDegree deg ≠ 1) (ht : Linked deg h.nodes h.root L)
    {v : T} {key : Vari} {fuel : ℕ} (hfuel : L.height h.root + 2 ≤ fuel) :
    Runs P s₀ (insert P.toPagerOps deg fuel v key) h (fun _ => Intact deg) (Intact deg)
      (· = .abort) := by
  refine runs_bind (runs_rootPageID (Runs.bind (Intact.runs_searchRowPtr ht (by omega)) ?_))
  rintro row h' ⟨rfl, hm, n, hn⟩
  split_ifs
  · exact runs_pure ⟨L, ht⟩
  refine runs_bind (runs_node hn (runs_bind (runs_deref hn fun _ => ?_)))
  refine runs_bind (runs_check (fun _ => ?_) fun _ => rfl)
  refine runs_bind (runs_node hn (runs_bind (runs_modify hn rfl ?_)))
  have hle := ht.top _ hm
  refine Runs.bind (Intact.runs_split hu (L.height h'.root - L.height row.pageID)
    (ht.setCells hn) hm ?_ (by omega)) ?_
  · exact Nat.add_sub_cancel' hle
  · exact fun _ _ hi => runs_pure hi

theorem Intact.runs_update (ht : Linked deg h.nodes h.root L) {v : T} {key : Vari} {fuel : ℕ}
    (hfuel : L.height h.root + 2 ≤ fuel) :
    Runs P s₀ (update P.toPagerOps fuel v key) h (fun _ => Intact deg) (Intact deg)
      (· = .abort) := by
  refine runs_bind (runs_rootPageID (Runs.bind (Intact.runs_searchRowPtr ht (by omega)) ?_))
  rintro row h' ⟨rfl, hm, n, hn⟩
  split_ifs
  · exact runs_pure ⟨L, ht⟩
  refine runs_bind (runs_node hn (runs_bind (runs_deref hn fun _ => ?_)))
  refine runs_bind (runs_index (fun c hc => ?_) fun _ => rfl)
  exact runs_bind (runs_modify hn rfl (runs_pure ⟨L, ht.setCells hn⟩))

theorem Intact.runs_search (ht : Linked deg h.nodes h.root L) {key : Vari} {fuel : ℕ}
    (hfuel : L.height h.root + 2 ≤ fuel) :
    Runs P s₀ (search P.toPagerOps fuel key) h (fun _ => Intact deg) (Intact deg)
      (· = .abort) := by
  refine runs_bind (runs_rootPageID (Runs.bind (Intact.runs_searchRowPtr ht (by omega)) ?_))
  rintro row h' ⟨rfl, hm, n, hn⟩
  split_ifs
  · exact runs_pure ⟨L, ht⟩
  refine runs_bind (runs_node hn (runs_bind (runs_deref hn fun _ => ?_)))
  exact runs_bind (runs_index (fun c hc => runs_pure ⟨L, ht⟩) fun _ => rfl)

/-- With one call per level and one more an operation ends, and the links stay intact. -/
theorem Intact.runs_onTree (hu : effectiveDegree deg ≠ 1) (ht : Linked deg h.nodes h.root L)
    (op : TreeOp T) {fuel : ℕ} (hfuel : L.height h.root + 2 ≤ fuel) :
    Runs P s₀ (op.onTree P.toPagerOps deg fuel) h (fun _ => Intact deg) (Intact deg)
      (· = .abort) := by
  cases op with
  | insert v key =>
    exact Runs.bind (Intact.runs_insert hu ht hfuel) fun _ _ hi => runs_pure hi
  | update v key =>
    exact Runs.bind (Intact.runs_update ht hfuel) fun _ _ hi => runs_pure hi
  | search key =>
    exact Runs.bind (Intact.runs_search ht hfuel) fun _ _ hi => runs_pure hi

/-- The states that calls have led to which returned or threw. -/
inductive Survives (P : LawfulPager σ T) (deg : ℕ) (st₀ : BtreeState σ) : BtreeState σ → Prop
  | start : Survives P deg st₀ st₀
  | returned {st st' : BtreeState σ} {op : TreeOp T} {fuel : ℕ} {r : Reply T}
    (h : Survives P deg st₀ st) (hr : op.onTree P.toPagerOps deg fuel st = .ok r st') :
    Survives P deg st₀ st'
  | threw {st st' : BtreeState σ} {op : TreeOp T} {fuel : ℕ} {e : Exn}
    (h : Survives P deg st₀ st) (hr : op.onTree P.toPagerOps deg fuel st = .throw e st') :
    Survives P deg st₀ st'

theorem Survives.intact (hu : effectiveDegree deg ≠ 1) {st₀ st : BtreeState σ}
    (hempty : EmptyTree P deg st₀) (h : Survives P deg st₀ st) :
    P.Ok st.pager ∧ Intact deg (heap P st) := by
  induction h with
  | start =>
    obtain ⟨ok, par, hn⟩ := hempty
    exact ⟨ok, _, (balanced_single (o := False) (u := 1) rfl hn).linked⟩
  | @returned st st' op fuel r _ hr ih =>
    obtain ⟨ok, L, ht⟩ := ih
    have hmax : op.onTree P.toPagerOps deg (max fuel (L.height st.rootPageID + 2)) st = .ok r st' := by
      rw [(onTree_approx _ (le_max_left fuel _) deg op).eq (by rw [hr]; exact nofun), hr]
    obtain ⟨ok', -, hi⟩ := (wp_of_ok hmax).mp
      (Runs.start ok (Intact.runs_onTree hu ht op (le_max_right fuel _)))
    exact ⟨ok', hi⟩
  | @threw st st' op fuel e _ hr ih =>
    obtain ⟨ok, L, ht⟩ := ih
    have hmax : op.onTree P.toPagerOps deg (max fuel (L.height st.rootPageID + 2)) st = .throw e st' := by
      rw [(onTree_approx _ (le_max_left fuel _) deg op).eq (by rw [hr]; exact nofun), hr]
    obtain ⟨ok', -, hi⟩ := (wp_of_throw hmax).mp
      (Runs.start ok (Intact.runs_onTree hu ht op (le_max_right fuel _)))
    exact ⟨ok', hi⟩

end Kndb.Btree
