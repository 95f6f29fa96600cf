import Kndb.Btree.Session

namespace Kndb.Btree

open Imp Imp.Prog

variable {σ T : Type} {P : LawfulPager σ T} {s₀ : σ} {h : Heap T}
variable {deg : ℕ}

structure FullRoot (deg : ℕ) (h : Heap T) (n : BtreeNodePage T) : Prop where
  node : h.nodes h.root = some n
  root : n.root = true
  degree : n.degree = deg
  halvable : Halvable n
  leaf_children : n.leaf = true → n.children = []
  kids : ∀ q ∈ n.children, q ≠ h.root ∧ ∃ m, h.nodes q = some m

theorem splitNodes_isSome {nodes : ℕ → Option (BtreeNodePage T)} {c : Cut T} {q : ℕ}
    (hq : (nodes q).isSome) : (splitNodes nodes c q).isSome := by
  simp only [splitNodes]
  split_ifs <;> simp [hq]

theorem growNodes_isSome {nodes : ℕ → Option (BtreeNodePage T)} {root r q : ℕ}
    {n : BtreeNodePage T} (hq : (nodes q).isSome) : (growNodes nodes deg root r n q).isSome := by
  by_cases h1 : q = root
  · rw [h1, growNodes_root]
    rfl
  by_cases h2 : q = r
  · rw [h2, growNodes_new (h2 ▸ Ne.symm h1)]
    rfl
  · rwa [growNodes_other h1 h2]

theorem FullRoot.split {n : BtreeNodePage T} (hf : FullRoot deg h n) {r new : ℕ} {a : ℕ∞} {m : Cell T}
    (hr : h.nodes r = none) (hnew : growNodes h.nodes deg h.root r n new = none) {g : Heap T}
    (hg : g = { nodes := splitNodes (growNodes h.nodes deg h.root r n)
                  (.atMedian h.root new ((n.setRoot false).setParent r) (newRootNode deg h.root r) m)
                root := r, avail := a }) :
    FullRoot deg g (Cut.atMedian h.root new ((n.setRoot false).setParent r)
      (newRootNode deg h.root r) m).parentNode := by
  subst hg
  have hne : r ≠ h.root := by
    rintro rfl
    exact absurd (hr.symm.trans hf.node) (by simp)
  have hnr : new ≠ r := by
    rintro rfl
    rw [growNodes_new hne.symm] at hnew
    simp at hnew
  have hnew' : new ≠ h.root := by
    rintro rfl
    rw [growNodes_root] at hnew
    simp at hnew
  set c := Cut.atMedian h.root new ((n.setRoot false).setParent r) (newRootNode deg h.root r) m
  have hchildren : c.parentNode.children = [h.root, new] := by
    simp [c, Cut.parentNode, Cut.atMedian, newRootNode]
  have hcells : c.parentNode.cells = [m] := by
    simp [c, Cut.parentNode, Cut.atMedian, newRootNode, BtreeNodePage.new]
  have hid : c.id = h.root := rfl
  have hpid : c.n.parentID = r := rfl
  have hcnew : c.new = new := rfl
  refine ⟨?_, rfl, rfl, ⟨by simp [hcells], fun _ => by simp [hcells, hchildren]⟩, ?_, ?_⟩
  · simp [splitNodes, hid, hpid, hne]
  · exact fun hl => absurd hl (by simp [c, Cut.parentNode, Cut.atMedian, newRootNode, BtreeNodePage.new])
  · intro q hq
    rw [hchildren, List.mem_pair] at hq
    rcases hq with rfl | rfl
    · exact ⟨hne.symm, c.leftNode, by simp [splitNodes, hid]⟩
    · exact ⟨hnr, c.rightNode, by simp [splitNodes, hid, hpid, hcnew, hnr, hnew']⟩

/-- The cascade never returns.  It throws when the pages run out, and by then the root is another
one unless no page was left at all. -/
theorem runs_split_degreeOne (hdeg : effectiveDegree deg = 1) (id₀ fuel : ℕ) {n : BtreeNodePage T}
    (hf : FullRoot deg h n) (hid₀ : (h.nodes id₀).isSome) :
    Runs P s₀ (split P.toPagerOps deg fuel h.root) h (fun _ _ => False)
      (fun h' => h.avail ≠ ⊤ ∧ (h' = h ∨ h'.root ≠ id₀))
      (fun x => x = .timeout ∧ (fuel : ℕ∞) ≤ h.avail) := by
  induction fuel generalizing h n with
  | zero => exact runs_outOfFuel ⟨rfl, by simp⟩
  | succ fuel ih =>
    have hlt : ¬n.cells.length < n.maxKeys := by
      have := List.length_pos_of_ne_nil hf.halvable.median
      rw [maxKeys_eq, hf.degree, hdeg]
      omega
    rw [split]
    refine runs_bind (runs_node hf.node (runs_bind (runs_deref hf.node fun _ => ?_)))
    rw [if_neg hlt, hf.root]
    refine runs_bind (runs_splitRoot hf.node hf.degree hf.leaf_children hf.kids
      (fun hno => absurd hf.halvable hno) ?_ ?_ ?_)
    · intro _ r new a m hr hnew ha hm
      set c := Cut.atMedian h.root new ((n.setRoot false).setParent r) (newRootNode deg h.root r) m
        with hc
      have hleft : splitNodes (growNodes h.nodes deg h.root r n) c h.root = some c.leftNode :=
        SplitAt.at_id
      have hroot : r ≠ id₀ := by
        rintro rfl
        simp [hr] at hid₀
      refine runs_bind (runs_deref hleft fun _ => ?_)
      rw [show c.leftNode.root = false from rfl]
      refine runs_mono (ih (hf.split hr hnew rfl) (splitNodes_isSome (growNodes_isSome hid₀)))
        (fun _ _ hff => hff) ?_ ?_
      · rintro h' ⟨hne, hor⟩
        change a ≠ ⊤ at hne
        refine ⟨by rw [ha]; simpa using hne, .inr ?_⟩
        rcases hor with rfl | hor
        · exact hroot
        · exact hor
      -- every round takes two pages, so that running out of fuel takes as many pages as fuel
      · rintro x ⟨rfl, hle⟩
        change (fuel : ℕ∞) ≤ a at hle
        refine ⟨rfl, ?_⟩
        rw [ha]
        push_cast
        exact (add_le_add_left hle 1).trans le_self_add
    · exact fun ha => ⟨by simp [ha], .inl rfl⟩
    · intro r m hr ha hm
      refine ⟨by simp [ha], .inr ?_⟩
      rintro rfl
      simp [hr] at hid₀

section Empty

variable {par : ℕ} {A : Stop → Prop}

theorem runs_searchRowPtr_empty {R : Heap T → Prop} {fuel : ℕ} {key : Vari}
    (hn : h.nodes h.root = some (.new deg par true true h.root)) :
    Runs P s₀ (searchRowPtr P.toPagerOps key (fuel + 1) h.root) h
      (fun row h' => h' = h ∧ row = ⟨h.root, CELLID_INVALID⟩) R A := by
  rw [searchRowPtr]
  refine runs_bind (runs_node hn (runs_bind (runs_deref hn fun _ => ?_)))
  refine runs_bind (runs_require rfl (runs_bind (runs_require rfl (runs_bind (runs_require rfl ?_)))))
  exact runs_pure ⟨rfl, rfl⟩

theorem runs_insert_degreeOne (hdeg : effectiveDegree deg = 1) (fuel : ℕ) (v : T) (key : Vari)
    (hn : h.nodes h.root = some (.new deg par true true h.root)) :
    Runs P s₀ (insert P.toPagerOps deg fuel v key) h (fun _ _ => False)
      (fun h' => h.avail ≠ ⊤ ∧ (h' = h.set h.root
        ((BtreeNodePage.new deg par true true h.root).setCells [⟨key, v⟩]) ∨ h'.root ≠ h.root))
      (fun x => x = .timeout ∧ (fuel : ℕ∞) ≤ h.avail) := by
  rcases fuel with _ | fuel
  · exact runs_bind (runs_rootPageID (runs_bind (runs_outOfFuel ⟨rfl, by simp⟩)))
  refine runs_bind (runs_rootPageID (Runs.bind (runs_searchRowPtr_empty hn) ?_))
  rintro row h' ⟨rfl, rfl⟩
  rw [if_neg (by simp)]
  refine runs_bind (runs_node hn (runs_bind (runs_deref hn fun _ => ?_)))
  refine runs_bind (runs_require rfl (runs_bind (runs_node hn (runs_bind (runs_modify hn rfl ?_)))))
  set n : BtreeNodePage T := .new deg par true true h'.root with hnew
  rw [show n.setCells (n.cells.insertIdx (scan key n.cells) ⟨key, v⟩) = n.setCells [⟨key, v⟩] from rfl]
  have hf : FullRoot deg (h'.set h'.root (n.setCells [⟨key, v⟩])) (n.setCells [⟨key, v⟩]) :=
    ⟨Function.update_self .., rfl, rfl, ⟨by simp, fun hl => absurd hl (by simp [hnew, BtreeNodePage.new])⟩,
      fun _ => rfl, fun q hq => absurd hq (by simp [hnew, BtreeNodePage.new])⟩
  refine Runs.bind (runs_split_degreeOne hdeg h'.root (fuel + 1) hf ?_) fun _ _ hff => absurd hff id
  simp

theorem runs_onTree_degreeOne (hdeg : effectiveDegree deg = 1) (fuel : ℕ) (op : TreeOp T)
    (hn : h.nodes h.root = some (.new deg par true true h.root)) :
    Runs P s₀ (op.onTree P.toPagerOps deg (fuel + 1)) h (fun _ h' => h' = h) (fun _ => True)
      (· = .timeout) := by
  cases op with
  | insert v key =>
    exact runs_bind (runs_mono (runs_insert_degreeOne hdeg _ v key hn) (fun _ _ hff => absurd hff id)
      (fun _ _ => trivial) fun _ hA => hA.1)
  | update v key =>
    refine runs_bind (runs_bind (runs_rootPageID (Runs.bind (runs_searchRowPtr_empty hn) ?_)))
    rintro row h' ⟨rfl, rfl⟩
    exact runs_pure (runs_pure rfl)
  | search key =>
    refine runs_bind (runs_bind (runs_rootPageID (Runs.bind (runs_searchRowPtr_empty hn) ?_)))
    rintro row h' ⟨rfl, rfl⟩
    exact runs_pure (runs_pure rfl)

/-- A run that returns has left the tree empty, and none aborts. -/
theorem runs_runOps_degreeOne (hdeg : effectiveDegree deg = 1) {fuel : ℕ} {ops : List (TreeOp T)}
    (hn : h.nodes h.root = some (.new deg par true true h.root)) :
    Runs P s₀ (runOps P.toPagerOps deg (fuel + 1) ops) h (fun _ h' => h' = h) (fun _ => True)
      (· = .timeout) := by
  induction ops with
  | nil => exact runs_pure rfl
  | cons op ops ih =>
    refine Runs.bind (runs_onTree_degreeOne hdeg _ _ hn) ?_
    rintro r h' rfl
    refine Runs.bind ih ?_
    rintro rs h'' rfl
    exact runs_pure rfl

end Empty

end Kndb.Btree
