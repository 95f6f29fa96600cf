import Mathlib.Data.Set.Insert
import Kndb.Btree.Fuel
import Kndb.Btree.Session

namespace Kndb.Btree

open Imp Imp.Prog

variable {σ T : Type} {P : LawfulPager σ T} {s₀ : σ} {h : Heap T} {S S' : Set ℕ} {deg id : ℕ}
variable {n : BtreeNodePage T} {Q : Unit → Heap T → Prop} {R : Heap T → Prop} {A : Stop → Prop}

/-- The links of a node lead into a set of pages. -/
structure LinksTo (S : Set ℕ) (n : BtreeNodePage T) : Prop where
  children : ∀ c ∈ n.children, c ∈ S
  parent : n.root = false → n.parentID ∈ S

/-- The pages `S'` have grown out of `S`; they are nodes, their links lead to each other, and the root
is among them. -/
structure Closed (S S' : Set ℕ) (h : Heap T) : Prop where
  grown : S ⊆ S'
  node : ∀ p ∈ S', ∃ n, h.nodes p = some n
  links : ∀ p ∈ S', ∀ n, h.nodes p = some n → LinksTo S' n
  root : h.root ∈ S'

/-- The heap is closed for some pages that have grown out of `S`. -/
def Wired (S : Set ℕ) (h : Heap T) : Prop := ∃ S', Closed S S' h

theorem LinksTo.mono (hn : LinksTo S n) (hS : S ⊆ S') : LinksTo S' n :=
  ⟨fun c hc => hS (hn.children c hc), fun hr => hS (hn.parent hr)⟩

theorem LinksTo.setCells (hn : LinksTo S n) (l : List (Cell T)) : LinksTo S (n.setCells l) :=
  ⟨hn.children, hn.parent⟩

theorem Closed.set (hc : Closed S S' h) (hl : LinksTo S' n) : Closed S S' (h.set id n) := by
  refine ⟨hc.grown, fun p hp => ?_, fun p hp m hm => ?_, hc.root⟩
  · by_cases hpid : p = id
    · exact ⟨n, by rw [hpid, Heap.set_nodes, Function.update_self]⟩
    · obtain ⟨m, hm⟩ := hc.node p hp
      exact ⟨m, by rw [Heap.set_nodes, Function.update_of_ne hpid, hm]⟩
  · rw [Heap.set_nodes] at hm
    by_cases hpid : p = id
    · rw [hpid, Function.update_self, Option.some.injEq] at hm
      exact hm ▸ hl
    · rw [Function.update_of_ne hpid] at hm
      exact hc.links p hp m hm

theorem Closed.alloc (hc : Closed S S' h) (hl : LinksTo S' n) (a : ℕ∞) :
    Closed S (Insert.insert id S') (h.alloc id n a) := by
  have hsub := Set.subset_insert id S'
  refine ⟨hc.grown.trans hsub, fun p hp => ?_, fun p hp m hm => ?_, hsub hc.root⟩
  · by_cases hpid : p = id
    · exact ⟨n, by rw [hpid, Heap.alloc_nodes, Function.update_self]⟩
    · obtain ⟨m, hm⟩ := hc.node p (hp.resolve_left hpid)
      exact ⟨m, by rw [Heap.alloc_nodes, Function.update_of_ne hpid, hm]⟩
  · rw [Heap.alloc_nodes] at hm
    by_cases hpid : p = id
    · rw [hpid, Function.update_self, Option.some.injEq] at hm
      exact hm ▸ hl.mono hsub
    · rw [Function.update_of_ne hpid] at hm
      exact (hc.links p (hp.resolve_left hpid) m hm).mono hsub

theorem Closed.runs_modify (hc : Closed S S' h) {g : BtreeNodePage T → BtreeNodePage T}
    (hn : h.nodes id = some n) (hg : (g n).pageID = n.pageID) (hl : LinksTo S' (g n))
    (hQ : ∀ h', Closed S S' h' → Q () h') : Runs P s₀ (modify P.toPagerOps id g) h Q R A :=
  Btree.runs_modify hn hg (hQ _ (hc.set hl))

theorem Closed.runs_setCells (hc : Closed S S' h) (hid : id ∈ S')
    {f : BtreeNodePage T → List (Cell T)} (hQ : ∀ h', Closed S S' h' → Q () h') :
    Runs P s₀ (modify P.toPagerOps id fun n => n.setCells (f n)) h Q R A := by
  obtain ⟨n, hn⟩ := hc.node id hid
  exact hc.runs_modify hn rfl ((hc.links id hid n hn).setCells _) hQ

theorem Closed.runs_new (hc : Closed S S' h) {par : ℕ} {root leaf : Bool} {Q : ℕ → Heap T → Prop}
    (hpar : root = false → par ∈ S') (hR : R h)
    (hQ : ∀ id h', Closed S (Insert.insert id S') h' → Q id h') :
    Runs P s₀ (B_NEW P.toPagerOps deg par root leaf) h Q R A := by
  refine Btree.runs_new (fun id a _ _ => hQ id _ (hc.alloc ⟨?_, hpar⟩ a)) fun _ => hR
  exact fun c hc => absurd hc List.not_mem_nil

theorem Closed.runs_searchRowPtr (hc : Closed S S' h) (key : Vari) (fuel : ℕ) (hid : id ∈ S') :
    Runs P s₀ (searchRowPtr P.toPagerOps key fuel id) h (fun row h' => h' = h ∧ row.pageID ∈ S') R
      (fun _ => True) := by
  induction fuel generalizing id with
  | zero => exact runs_outOfFuel trivial
  | succ fuel ih =>
    obtain ⟨n, hn⟩ := hc.node id hid
    rw [searchRowPtr]
    refine runs_bind (runs_node hn (runs_bind (runs_deref hn fun _ => ?_)))
    refine runs_bind (runs_check (fun _ => ?_) fun _ => trivial)
    refine runs_bind (runs_check (fun _ => ?_) fun _ => trivial)
    refine runs_bind (runs_check (fun _ => ?_) fun _ => trivial)
    dsimp only
    split_ifs
    · exact runs_pure ⟨rfl, hid⟩
    · exact runs_pure ⟨rfl, hid⟩
    · refine runs_bind (runs_index (fun c hmem => ?_) fun _ => trivial)
      exact ih ((hc.links id hid n hn).children c (List.mem_of_getElem? hmem))

theorem Closed.runs_search (hc : Closed S S' h) (key : Vari) (fuel : ℕ) :
    Runs P s₀ (search P.toPagerOps fuel key) h (fun _ => Wired S) (Wired S) (fun _ => True) := by
  refine runs_bind (runs_rootPageID (Runs.bind (hc.runs_searchRowPtr (R := Wired S) key fuel hc.root) ?_))
  rintro row h' ⟨rfl, hrow⟩
  split_ifs
  · exact runs_pure ⟨S', hc⟩
  obtain ⟨n, hn⟩ := hc.node _ hrow
  refine runs_bind (runs_node hn (runs_bind (runs_deref hn fun _ => ?_)))
  exact runs_bind (runs_index (fun c _ => runs_pure ⟨S', hc⟩) fun _ => trivial)

theorem Closed.runs_update (hc : Closed S S' h) (v : T) (key : Vari) (fuel : ℕ) :
    Runs P s₀ (update P.toPagerOps fuel v key) h (fun _ => Wired S) (Wired S) (fun _ => True) := by
  refine runs_bind (runs_rootPageID (Runs.bind (hc.runs_searchRowPtr (R := Wired S) key fuel hc.root) ?_))
  rintro row h' ⟨rfl, hrow⟩
  split_ifs
  · exact runs_pure ⟨S', hc⟩
  obtain ⟨n, hn⟩ := hc.node _ hrow
  refine runs_bind (runs_node hn (runs_bind (runs_deref hn fun _ => ?_)))
  refine runs_bind (runs_index (fun c _ => ?_) fun _ => trivial)
  exact runs_bind (hc.runs_setCells hrow fun _ hc' => runs_pure ⟨S', hc'⟩)

theorem Closed.runs_setParents (newParent : ℕ) (l : List ℕ) (hc : Closed S S' h) (hnew : newParent ∈ S')
    (hl : ∀ c ∈ l, c ∈ S') (hQ : ∀ h', Closed S S' h' → Q () h') :
    Runs P s₀ (setParents P.toPagerOps newParent l) h Q R A := by
  induction l generalizing h with
  | nil => exact runs_pure (hQ h hc)
  | cons c l ih =>
    have hmem := hl c (List.mem_cons_self ..)
    obtain ⟨n, hn⟩ := hc.node c hmem
    rw [setParents]
    refine runs_bind (runs_node hn (runs_bind (hc.runs_modify hn rfl ?_ fun h' hc' => ?_)))
    · exact ⟨(hc.links c hmem n hn).children, fun _ => hnew⟩
    · exact ih hc' fun c' hc' => hl c' (List.mem_cons_of_mem _ hc')

theorem Closed.runs_moveRightHalf {node new median : ℕ} (hc : Closed S S' h) (hnode : node ∈ S')
    (hnew : new ∈ S') (hQ : ∀ h', Closed S S' h' → Q () h') :
    Runs P s₀ (moveRightHalf P.toPagerOps node new median) h Q R (fun _ => True) := by
  obtain ⟨n, hn⟩ := hc.node node hnode
  rw [moveRightHalf]
  refine runs_bind (runs_deref hn fun _ => runs_bind (runs_check (fun _ => ?_) fun _ => trivial))
  refine runs_bind (hc.runs_setCells hnew fun h₁ c₁ => ?_)
  refine runs_bind (c₁.runs_setCells hnode fun h₂ c₂ => ?_)
  split_ifs
  swap
  · exact runs_pure (hQ h₂ c₂)
  refine runs_bind (runs_check (fun _ => ?_) fun _ => trivial)
  obtain ⟨m, hm⟩ := c₂.node new hnew
  refine runs_bind (c₂.runs_modify hm rfl ?_ fun h₃ c₃ => ?_)
  · refine ⟨fun c hmem => ?_, (c₂.links new hnew m hm).parent⟩
    exact (hc.links node hnode n hn).children c (List.mem_of_mem_drop hmem)
  obtain ⟨m', hm'⟩ := c₃.node new hnew
  refine runs_bind (runs_deref hm' fun _ => runs_bind (runs_deref hm' fun hid => ?_))
  have hkids := (c₃.links new hnew m' hm').children
  refine runs_bind (c₃.runs_setParents _ _ (hid.symm ▸ hnew) hkids fun h₄ c₄ => ?_)
  obtain ⟨n', hn'⟩ := c₄.node node hnode
  refine c₄.runs_modify hn' rfl ?_ hQ
  exact ⟨fun c hmem => (c₄.links node hnode n' hn').children c (List.mem_of_mem_take hmem),
    (c₄.links node hnode n' hn').parent⟩

theorem Closed.runs_splitNonRoot {node : ℕ} (hc : Closed S S' h) (hnode : node ∈ S')
    (hn : h.nodes node = some n) (hroot : n.root = false) (hR : ∀ h', Wired S h' → R h')
    (hQ : ∀ S'' h', S' ⊆ S'' → Closed S S'' h' → Q () h') :
    Runs P s₀ (splitNonRoot P.toPagerOps deg node id) h Q R (fun _ => True) := by
  have hpar := (hc.links node hnode n hn).parent hroot
  obtain ⟨p, hp⟩ := hc.node _ hpar
  rw [splitNonRoot]
  refine runs_bind (runs_deref hn fun _ => runs_bind (runs_node hp ?_))
  refine runs_bind (runs_deref hp fun _ => runs_bind (runs_deref hp fun _ => ?_))
  refine runs_bind (runs_check (fun _ => runs_bind (runs_deref hn fun _ => ?_)) fun _ => trivial)
  refine runs_bind (runs_index (fun cell _ => ?_) fun _ => trivial)
  refine runs_bind (runs_deref hp fun _ => runs_bind (runs_check (fun _ => ?_) fun _ => trivial))
  refine runs_bind (hc.runs_setCells hpar fun h₁ c₁ => ?_)
  refine runs_bind (c₁.runs_setCells hnode fun h₂ c₂ => ?_)
  obtain ⟨p₂, hp₂⟩ := c₂.node _ hpar
  obtain ⟨n₂, hn₂⟩ := c₂.node node hnode
  refine runs_bind (runs_deref hp₂ fun hpid => runs_bind (runs_deref hn₂ fun _ => ?_))
  refine runs_bind (c₂.runs_new (fun _ => hpid.symm ▸ hpar) (hR _ ⟨S', c₂⟩) fun new h₃ c₃ => ?_)
  have hsub := Set.subset_insert new S'
  have hnew : new ∈ Insert.insert new S' := Set.mem_insert ..
  refine runs_bind (c₃.runs_moveRightHalf (hsub hnode) hnew fun h₄ c₄ => ?_)
  obtain ⟨m, hm⟩ := c₄.node new hnew
  obtain ⟨p₄, hp₄⟩ := c₄.node _ (hsub hpar)
  refine runs_bind (runs_deref hm fun hid => runs_bind (runs_deref hp₄ fun _ => ?_))
  refine runs_bind (runs_check (fun _ => ?_) fun _ => trivial)
  refine c₄.runs_modify hp₄ rfl ?_ fun h₅ c₅ => hQ _ h₅ hsub c₅
  refine ⟨fun c hmem => ?_, (c₄.links _ (hsub hpar) p₄ hp₄).parent⟩
  rcases List.eq_or_mem_of_mem_insertIdx hmem with rfl | hmem
  · exact hid.symm ▸ hnew
  · exact (c₄.links _ (hsub hpar) p₄ hp₄).children c hmem

/-- A node is put below a new root.  The flag changes before the parent does, and in between the
parent is none. -/
theorem Closed.attach {node r : ℕ} (hc : Closed S S' h) (hnode : node ∈ S') (hn : h.nodes node = some n)
    (hr : r ∈ S') : Closed S S' ((({ h with root := r } : Heap T).set node (n.setRoot false)).set node
      ((n.setRoot false).setParent r)) := by
  have hroot : Closed S S' ({ h with root := r } : Heap T) := ⟨hc.grown, hc.node, hc.links, hr⟩
  have hlinks : LinksTo S' ((n.setRoot false).setParent r) := ⟨(hc.links node hnode n hn).children, fun _ => hr⟩
  have hset : Closed S S' (({ h with root := r } : Heap T).set node ((n.setRoot false).setParent r)) :=
    hroot.set hlinks
  rw [Heap.set, Heap.set, Function.update_idem]
  exact hset

theorem Closed.runs_splitRoot {node : ℕ} (hc : Closed S S' h) (hnode : node ∈ S') (hid : id ∈ S')
    (hR : ∀ h', Wired S h' → R h') (hQ : ∀ S'' h', S' ⊆ S'' → Closed S S'' h' → Q () h') :
    Runs P s₀ (splitRoot P.toPagerOps deg node id) h Q R (fun _ => True) := by
  rw [splitRoot]
  refine runs_bind (hc.runs_new (fun hf => by cases hf) (hR _ ⟨S', hc⟩) fun new h₁ c₁ => ?_)
  have hsub := Set.subset_insert new S'
  have hnew : new ∈ Insert.insert new S' := Set.mem_insert ..
  obtain ⟨r, hr⟩ := c₁.node new hnew
  obtain ⟨n, hn⟩ := c₁.node node (hsub hnode)
  refine runs_bind (runs_deref hr fun hrid => runs_bind (runs_setRoot ?_))
  refine runs_bind (Btree.runs_modify hn rfl (runs_bind (Btree.runs_modify (Function.update_self ..) rfl ?_)))
  have hrmem : r.pageID ∈ Insert.insert new S' := by rwa [hrid]
  have c₂ := c₁.attach (hsub hnode) hn hrmem
  -- the median moves up into the new root
  obtain ⟨n₂, hn₂⟩ := c₂.node node (hsub hnode)
  refine runs_bind (runs_deref hn₂ fun _ => runs_bind (runs_index (fun cell _ => ?_) fun _ => trivial))
  refine runs_bind (c₂.runs_setCells hnew fun h₃ c₃ => ?_)
  refine runs_bind (c₃.runs_setCells (hsub hnode) fun h₄ c₄ => ?_)
  obtain ⟨m, hm⟩ := c₄.node id (hsub hid)
  refine runs_bind (runs_node hm (runs_bind (runs_deref hm fun _ => ?_)))
  refine runs_bind (c₄.runs_new (fun _ => hrmem) (hR _ ⟨_, c₄⟩) fun new' h₅ c₅ => ?_)
  have hsub' := Set.subset_insert new' (Insert.insert new S')
  have hnew' : new' ∈ Insert.insert new' (Insert.insert new S') := Set.mem_insert ..
  refine runs_bind (c₅.runs_moveRightHalf (hsub' (hsub hnode)) hnew' fun h₆ c₆ => ?_)
  obtain ⟨r₆, hr₆⟩ := c₆.node new (hsub' hnew)
  refine runs_bind (c₆.runs_modify hr₆ rfl ?_ fun h₇ c₇ => ?_)
  · refine ⟨fun c hmem => ?_, (c₆.links _ (hsub' hnew) r₆ hr₆).parent⟩
    rcases List.mem_append.mp hmem with hmem | hmem
    · exact (c₆.links _ (hsub' hnew) r₆ hr₆).children c hmem
    · exact List.mem_singleton.mp hmem ▸ hsub' (hsub hid)
  obtain ⟨m₇, hm₇⟩ := c₇.node new' hnew'
  obtain ⟨r₇, hr₇⟩ := c₇.node new (hsub' hnew)
  refine runs_bind (runs_deref hm₇ fun hid₇ => ?_)
  refine c₇.runs_modify hr₇ rfl ?_ fun h₈ c₈ => hQ _ h₈ (hsub.trans hsub') c₈
  refine ⟨fun c hmem => ?_, (c₇.links _ (hsub' hnew) r₇ hr₇).parent⟩
  rcases List.mem_append.mp hmem with hmem | hmem
  · exact (c₇.links _ (hsub' hnew) r₇ hr₇).children c hmem
  · rw [List.mem_singleton.mp hmem, hid₇]
    exact hnew'

theorem Closed.runs_split (fuel : ℕ) (hc : Closed S S' h) (hid : id ∈ S') :
    Runs P s₀ (split P.toPagerOps deg fuel id) h (fun _ => Wired S) (Wired S) (fun _ => True) := by
  induction fuel generalizing h S' id with
  | zero => exact runs_outOfFuel trivial
  | succ fuel ih =>
    obtain ⟨n, hn⟩ := hc.node id hid
    rw [split]
    refine runs_bind (runs_node hn (runs_bind (runs_deref hn fun _ => ?_)))
    split_ifs
    · exact runs_pure ⟨S', hc⟩
    have hrest : ∀ S'' h', S' ⊆ S'' → Closed S S'' h' → Runs P s₀ (do
        let n ← deref P.toPagerOps id
        if !n.root then split P.toPagerOps deg fuel n.parentID else pure ()) h'
        (fun _ => Wired S) (Wired S) (fun _ => True) := by
      intro S'' h' hsub c'
      obtain ⟨m, hm⟩ := c'.node id (hsub hid)
      refine runs_bind (runs_deref hm fun _ => ?_)
      split_ifs with hroot
      · exact ih c' ((c'.links id (hsub hid) m hm).parent (by simpa using hroot))
      · exact runs_pure ⟨S'', c'⟩
    refine runs_bind ?_
    rw [splitFull]
    split_ifs with hroot
    · exact hc.runs_splitNonRoot hid hn (by simpa using hroot) (fun _ hr => hr) hrest
    · exact hc.runs_splitRoot hid hid (fun _ hr => hr) hrest

theorem Closed.runs_insert (hc : Closed S S' h) (v : T) (key : Vari) (fuel : ℕ) :
    Runs P s₀ (insert P.toPagerOps deg fuel v key) h (fun _ => Wired S) (Wired S) (fun _ => True) := by
  refine runs_bind (runs_rootPageID (Runs.bind (hc.runs_searchRowPtr (R := Wired S) key fuel hc.root) ?_))
  rintro row h' ⟨rfl, hrow⟩
  split_ifs
  · exact runs_pure ⟨S', hc⟩
  obtain ⟨n, hn⟩ := hc.node _ hrow
  refine runs_bind (runs_node hn (runs_bind (runs_deref hn fun _ => ?_)))
  refine runs_bind (runs_check (fun _ => ?_) fun _ => trivial)
  refine runs_bind (runs_node hn (runs_bind (hc.runs_setCells hrow fun h₁ c₁ => ?_)))
  exact Runs.bind (c₁.runs_split fuel hrow) fun _ _ hw => runs_pure hw

/-- An operation on a tree with any key, however it ends. -/
theorem Wired.runs_onTree (hw : Wired S h) (op : TreeOp T) (fuel : ℕ) :
    Runs P s₀ (op.onTree P.toPagerOps deg fuel) h (fun _ => Wired S) (Wired S) (fun _ => True) := by
  obtain ⟨S', hc⟩ := hw
  cases op with
  | insert v key =>
    exact Runs.bind (hc.runs_insert v key fuel) fun _ _ hi => runs_pure hi
  | update v key =>
    exact Runs.bind (hc.runs_update v key fuel) fun _ _ hi => runs_pure hi
  | search key =>
    exact Runs.bind (hc.runs_search key fuel) fun _ _ hi => runs_pure hi

end Kndb.Btree
