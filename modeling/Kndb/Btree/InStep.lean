import Kndb.Btree.Cascade
import Kndb.Pager.InStep
import Kndb.Pager.Nodes

namespace Kndb

open Imp Imp.Prog Pager PageCache

variable {E : Exn → Prop} {c : ℕ} {V W : Finset ℕ} {H H' : List (ℕ × ℕ)} {h h' : Heap Tuple} {id page : ℕ}
variable {st st' : BtreeState Mem} {t t' : BtreeState (PageCache Page Block)} {n n' : BtreeNodePage Tuple}
variable {α β : Type}

namespace Btree

/-- The tree `h` in memory is the one in the cache, on which the program works with the references `H`. -/
structure Held (c : ℕ) (V : Finset ℕ) (H : List (ℕ × ℕ)) (h : Heap Tuple) (st : BtreeState Mem)
    (t : BtreeState (PageCache Page Block)) : Prop where
  ok : (tidyPager Mem.cache).Ok st.pager
  heap_eq : heap (tidyPager Mem.cache) st = h
  root_eq : t.rootPageID = st.rootPageID
  works : Works c V H st.pager t.pager

namespace Held

variable {R : BtreeState Mem → BtreeState (PageCache Page Block) → Prop}
variable {Q : α → β → BtreeState Mem → BtreeState (PageCache Page Block) → Prop}

theorem nodeAt_eq (hs : Held c V H h st t) (hn : h.nodes id = some n) : nodeAt st.pager id = some n := by
  rw [← hs.heap_eq] at hn
  exact hn

theorem view_eq (hs : Held c V H h st t) (hn : h.nodes id = some n) : st.pager.view id = some (.node n) :=
  (nodeAt_eq_some.mp (hs.nodeAt_eq hn)).2

theorem pageID_eq (hs : Held c V H h st t) (hn : h.nodes id = some n) : n.pageID = id :=
  (tidyPager Mem.cache).pageID_eq hs.ok (hs.nodeAt_eq hn)

theorem load_eq (hs : Held c V H h st t) (hmem : (id, page) ∈ H) (hn : h.nodes id = some n) :
    (nodeOps Mem.cache.toCacheOps).load id st.pager = n ∧ (nodeOps cacheOps).load page t.pager = n := by
  obtain ⟨-, p, hp, hagain, -⟩ := hs.works.object hmem
  obtain rfl : .node n = p := Option.some.inj ((hs.view_eq hn).symm.trans hp)
  have hobject : .node n = t.pager.objects page := hagain
  refine ⟨(tidyPager Mem.cache).load_eq hs.ok (hs.nodeAt_eq hn), ?_⟩
  change (PageClass.cast (t.pager.objects page)).getD _ = n
  rw [← hobject]
  rfl

theorem forget (hs : Held c V H h st t) (hH : ∀ r ∈ H', r ∈ H) : Held c V H' h st t :=
  ⟨hs.ok, hs.heap_eq, hs.root_eq, hs.works.forget hH⟩

theorem extend (hs : Held c V H h st t) (hV : V ⊆ W) (hW : W.card ≤ c) : Held c W H h st t :=
  ⟨hs.ok, hs.heap_eq, hs.root_eq, hs.works.extend hV hW⟩

theorem id_lt (hs : Held c V H h st t) (hmem : (id, page) ∈ H) : id < 2 ^ 32 := by
  obtain ⟨-, -, -, -, -, -, hlt⟩ := hs.works.object hmem
  exact hlt.trans_le hs.works.blocks_le

theorem sim_node (hs : Held c V H h st t) (hE : Outer E) (hV : bitmaps ⊆ V) (hid : id ∈ V) :
    Sim E (B_NODE (nodeOps Mem.cache.toCacheOps) id) (B_NODE (nodeOps cacheOps) id) st t
      (fun r page st' t' => r = id ∧ st' = st ∧ Held c V ((id, page) :: H) h st' t' ∧
        ∀ W, id ∈ W → W.card ≤ c → st'.pager.CleanBut {id} → Held c W [(id, page)] h st' t') R := by
  refine sim_zoom ((hs.works.sim_getPage hE hV .node hid).mono ?_ fun _ _ hR => hR)
  rintro r page m' s' ⟨rfl, rfl, hw, hnarrow⟩
  exact ⟨rfl, rfl, ⟨hs.ok, hs.heap_eq, hs.root_eq, hw⟩, fun W hW hcard hclean =>
    ⟨hs.ok, hs.heap_eq, hs.root_eq, hnarrow W hW hcard hclean⟩⟩

theorem sim_node_bind {f : ℕ → BtreeM Mem α} {g : ℕ → BtreeM (PageCache Page Block) β} (hs : Held c V H h st t)
    (hE : Outer E) (hV : bitmaps ⊆ V) (hid : id ∈ V)
    (hfg : ∀ page t', Held c V ((id, page) :: H) h st t' →
      (∀ W, id ∈ W → W.card ≤ c → st.pager.CleanBut {id} → Held c W [(id, page)] h st t') →
      Sim E (f id) (g page) st t' Q R) :
    Sim E (B_NODE (nodeOps Mem.cache.toCacheOps) id >>= f) (B_NODE (nodeOps cacheOps) id >>= g) st t Q R := by
  refine (hs.sim_node hE hV hid).bind fun r page st' t' _ hpost => ?_
  have hr := hpost.1
  have hst := hpost.2.1
  subst hr hst
  exact hfg page t' hpost.2.2.1 hpost.2.2.2

theorem sim_deref {f : BtreeNodePage Tuple → BtreeM Mem α} {g : BtreeNodePage Tuple → BtreeM (PageCache Page Block) β}
    (hs : Held c V H h st t) (hmem : (id, page) ∈ H) (hn : h.nodes id = some n)
    (hfg : n.pageID = id → Sim E (f n) (g n) st t Q R) :
    Sim E (deref (nodeOps Mem.cache.toCacheOps) id >>= f) (deref (nodeOps cacheOps) page >>= g) st t Q R := by
  obtain ⟨hload, hload'⟩ := hs.load_eq hmem hn
  apply sim_gets
  rw [hload, hload']
  exact hfg (hs.pageID_eq hn)

theorem sim_of_runs {p : BtreeM Mem α} {q : BtreeM (PageCache Page Block) β} {Q₁ : α → Heap Tuple → Prop}
    {R₁ : Heap Tuple → Prop} {A : Stop → Prop} (hs : Held c V H h st t)
    (hruns : Runs (tidyPager Mem.cache) st.pager p h Q₁ R₁ A) (hpq : Sim E p q st t Q R) :
    Sim E p q st t (fun a b st' t' => ((tidyPager Mem.cache).Ok st'.pager ∧ Q₁ a (heap (tidyPager Mem.cache) st')) ∧
      Q a b st' t') R := by
  refine (hpq.and (hruns.wp st hs.ok ((tidyPager Mem.cache).frame_refl _) hs.heap_eq)).mono ?_ fun _ _ hR => hR
  rintro a b st' t' ⟨⟨ok, -, hQ⟩, hab⟩
  exact ⟨⟨ok, hQ⟩, hab⟩

theorem sim_modify {g : BtreeNodePage Tuple → BtreeNodePage Tuple} (hs : Held c V H h st t) (hmem : (id, page) ∈ H)
    (hn : h.nodes id = some n) (hid : (g n).pageID = n.pageID) (hparent : (g n).parentID < 2 ^ 32) :
    Sim E (modify (nodeOps Mem.cache.toCacheOps) id g) (modify (nodeOps cacheOps) page g) st t
      (fun _ _ st' t' => Held c V H (h.set id (g n)) st' t') R := by
  obtain ⟨hload, hload'⟩ := hs.load_eq hmem hn
  have hruns : Runs (tidyPager Mem.cache) st.pager (modify (nodeOps Mem.cache.toCacheOps) id g) h
      (fun _ h' => h' = h.set id (g n)) (fun _ => True) fun _ => True := runs_modify hn hid rfl
  have hsim : Sim E (modify (nodeOps Mem.cache.toCacheOps) id g) (modify (nodeOps cacheOps) page g) st t
      (fun _ _ st' t' => t'.rootPageID = st'.rootPageID ∧ Works c V H st'.pager t'.pager) R := by
    apply sim_change
    rw [hload, hload']
    exact ⟨hs.root_eq, hs.works.store hmem (Page.again_refl (.node (g n))) hparent (hid.trans (hs.pageID_eq hn)) nofun⟩
  refine (hs.sim_of_runs hruns hsim).mono ?_ fun _ _ hR => hR
  rintro - - st' t' ⟨⟨ok, hheap⟩, hroot, hw⟩
  exact ⟨ok, hheap, hroot, hw⟩

theorem sim_new {deg par : ℕ} {root leaf : Bool} (hs : Held c V H h st t) (hE : Outer E)
    (hR : E sizeLimit → ∀ st t, R st t) (hV : bitmaps ⊆ V) (hcard : V.card < c)
    (hH : ∀ r ∈ H, ∃ n, h.nodes r.1 = some n) (hpar : par < 2 ^ 32) :
    Sim E (B_NEW (nodeOps Mem.cache.toCacheOps) deg par root leaf) (B_NEW (nodeOps cacheOps) deg par root leaf) st t
      (fun r page st' t' => ∃ a, h.nodes r = none ∧ h.avail = a + 1 ∧
        Held c (Insert.insert r V) ((r, page) :: H) (h.alloc r (.new deg par root leaf r) a) st' t') R := by
  obtain ⟨ok, N, hinv⟩ := hs.ok
  have hlive : ∀ r ∈ H, r.1 ∈ liveIds st.pager := by
    intro r hr
    obtain ⟨n, hn⟩ := hH r hr
    exact (nodeAt_eq_some.mp (hs.nodeAt_eq hn)).1
  have hruns : Runs (tidyPager Mem.cache) st.pager (B_NEW (nodeOps Mem.cache.toCacheOps) deg par root leaf) h
      (fun r h' => ∃ a, h.nodes r = none ∧ h.avail = a + 1 ∧ h' = h.alloc r (.new deg par root leaf r) a)
      (fun _ => True) fun _ => True := runs_new (fun _ a hnone ha => ⟨a, hnone, ha, rfl⟩) fun _ => trivial
  have hsim : Sim E (B_NEW (nodeOps Mem.cache.toCacheOps) deg par root leaf)
      (B_NEW (nodeOps cacheOps) deg par root leaf) st t (fun r page st' t' => t'.rootPageID = st'.rootPageID ∧
        Works c (Insert.insert r V) ((r, page) :: H) st'.pager t'.pager) R := by
    refine sim_zoom ((hs.works.sim_newPage (N := N) (T := .node) (fun id => .node (.new deg par root leaf id))
      hE (fun he _ _ => hR he _ _) hV hcard ok hinv hlive (fun _ => rfl) (fun _ => hpar) fun _ _ => nofun).mono ?_
        fun _ _ hR => hR)
    exact fun r page m' s' hw => ⟨hs.root_eq, hw⟩
  refine (hs.sim_of_runs hruns hsim).mono ?_ fun _ _ hR => hR
  rintro r page st' t' ⟨⟨ok', a, hnone, ha, hheap⟩, hroot, hw⟩
  exact ⟨a, hnone, ha, ok', hheap, hroot, hw⟩

theorem parentID_lt (hs : Held c V H h st t) (hn : h.nodes id = some n) : n.parentID < 2 ^ 32 :=
  hs.works.parentID_lt (hs.view_eq hn)

theorem sim_setParents (hs : Held c V H h st t) (hE : Outer E) (hV : bitmaps ⊆ V) {newParent : ℕ} (ids : List ℕ)
    (hids : ∀ q ∈ ids, q ∈ V ∧ ∃ n, h.nodes q = some n) (hpar : newParent < 2 ^ 32) :
    Sim E (setParents (nodeOps Mem.cache.toCacheOps) newParent ids) (setParents (nodeOps cacheOps) newParent ids) st t
      (fun _ _ st' t' => ∃ h', Held c V H h' st' t' ∧ h'.root = h.root ∧ ∀ q ∉ ids, h'.nodes q = h.nodes q) R := by
  induction ids generalizing h st t with
  | nil => exact sim_pure ⟨h, hs, rfl, fun _ _ => rfl⟩
  | cons pg pgs ih =>
    obtain ⟨hpg, n, hn⟩ := hids pg (List.mem_cons_self ..)
    rw [setParents, setParents]
    apply (hs.sim_node hE hV hpg).bind
    rintro r page st' t' - ⟨rfl, rfl, h₁, -⟩
    apply (h₁.sim_modify (List.mem_cons_self ..) hn rfl hpar).bind
    rintro - - st' t' - h₂
    refine (ih (h₂.forget fun _ => List.mem_cons_of_mem _) fun q hq => ?_).mono ?_ fun _ _ hR => hR
    · obtain ⟨hqV, k, hk⟩ := hids q (List.mem_cons_of_mem _ hq)
      refine ⟨hqV, ?_⟩
      by_cases heq : q = r
      · subst heq
        exact ⟨_, Function.update_self ..⟩
      · exact ⟨k, (Function.update_of_ne heq ..).trans hk⟩
    · rintro - - st'' t'' ⟨h', hs', hroot, hother⟩
      refine ⟨h', hs', hroot, fun q hq => ?_⟩
      rw [List.mem_cons, not_or] at hq
      rw [hother q hq.2]
      exact Function.update_of_ne hq.1 ..

structure Moved (h : Heap Tuple) (id new : ℕ) (kids : List ℕ) (h' : Heap Tuple) : Prop where
  left : ∃ n, h'.nodes id = some n
  right : ∃ n, h'.nodes new = some n
  root : h'.root = h.root
  other : ∀ q, q ≠ id → q ≠ new → q ∉ kids → h'.nodes q = h.nodes q

theorem sim_moveRightHalf {new newPage median : ℕ} (hs : Held c V H h st t) (hE : Outer E) (hV : bitmaps ⊆ V)
    (hid : (id, page) ∈ H) (hnew : (new, newPage) ∈ H) (hn : h.nodes id = some n) (hn' : h.nodes new = some n')
    (hne : new ≠ id)
    (hkids : ∀ q ∈ n.children.drop (median + 1), q ∈ V ∧ q ≠ id ∧ q ≠ new ∧ ∃ k, h.nodes q = some k) :
    Sim E (moveRightHalf (nodeOps Mem.cache.toCacheOps) id new median)
      (moveRightHalf (nodeOps cacheOps) page newPage median) st t
      (fun _ _ st' t' => ∃ h', Held c V H h' st' t' ∧ Moved h id new (n.children.drop (median + 1)) h') R := by
  have hpar := hs.parentID_lt hn
  have hpar' := hs.parentID_lt hn'
  refine hs.sim_deref hid hn fun _ => ?_
  apply sim_require
  · exact fun hx => hx
  intro _
  apply (hs.sim_modify hnew hn' rfl hpar').bind
  rintro - - st₁ t₁ - h₁
  have hat₁ : (h.set new (n'.setCells (n.cells.drop median))).nodes id = some n :=
    (Function.update_of_ne hne.symm ..).trans hn
  apply (h₁.sim_modify hid hat₁ rfl hpar).bind
  rintro - - st₂ t₂ - h₂
  set g := (h.set new (n'.setCells (n.cells.drop median))).set id (n.setCells (n.cells.take median))
  have hgid : g.nodes id = some (n.setCells (n.cells.take median)) := Function.update_self ..
  have hgnew : g.nodes new = some (n'.setCells (n.cells.drop median)) :=
    (Function.update_of_ne hne ..).trans (Function.update_self ..)
  have hgother : ∀ q, q ≠ id → q ≠ new → g.nodes q = h.nodes q := fun q hq hq' =>
    (Function.update_of_ne hq ..).trans (Function.update_of_ne hq' ..)
  apply sim_ite Iff.rfl
  · intro _
    apply sim_require
    · exact fun hx => hx
    intro _
    apply (h₂.sim_modify hnew hgnew rfl hpar').bind
    rintro - - st₃ t₃ - h₃
    have hat₃ : (g.set new ((n'.setCells (n.cells.drop median)).setChildren (n.children.drop (median + 1)))).nodes new =
        some ((n'.setCells (n.cells.drop median)).setChildren (n.children.drop (median + 1))) :=
      Function.update_self ..
    refine h₃.sim_deref hnew hat₃ fun _ => h₃.sim_deref hnew hat₃ fun hpid => ?_
    rw [hpid]
    apply (h₃.sim_setParents hE hV (n.children.drop (median + 1)) (fun q hq => ?_) (h₃.id_lt hnew)).bind
    swap
    · obtain ⟨hqV, hqid, hqnew, k, hk⟩ := hkids q hq
      exact ⟨hqV, k, (Function.update_of_ne hqnew ..).trans ((hgother q hqid hqnew).trans hk)⟩
    rintro - - st₄ t₄ - ⟨h', h₄, hroot, hother⟩
    have hidnot : id ∉ n.children.drop (median + 1) := fun hq => (hkids id hq).2.1 rfl
    have hnewnot : new ∉ n.children.drop (median + 1) := fun hq => (hkids new hq).2.2.1 rfl
    have hat₄ : h'.nodes id = some (n.setCells (n.cells.take median)) :=
      (hother id hidnot).trans ((Function.update_of_ne hne.symm ..).trans hgid)
    have hnew₄ := (hother new hnewnot).trans hat₃
    refine (h₄.sim_modify hid hat₄ rfl hpar).mono ?_ fun _ _ hR => hR
    rintro - - st₅ t₅ h₅
    refine ⟨_, h₅, ⟨_, Function.update_self ..⟩, ⟨_, (Function.update_of_ne hne ..).trans hnew₄⟩, hroot,
      fun q hq hq' hkid => ?_⟩
    · refine (Function.update_of_ne hq ..).trans ((hother q hkid).trans ?_)
      exact (Function.update_of_ne hq' ..).trans (hgother q hq hq')
  · intro _
    exact sim_pure ⟨g, h₂, ⟨_, hgid⟩, ⟨_, hgnew⟩, rfl, fun q hq hq' _ => hgother q hq hq'⟩

theorem sim_splitNonRoot {deg : ℕ} {p : BtreeNodePage Tuple} (hs : Held c V [(id, page)] h st t) (hE : Outer E)
    (hR : E sizeLimit → ∀ st t, R st t) (hV : bitmaps ⊆ V) (hcard : V.card < c)
    (hl : Attached deg h.nodes id n p) (hpid : n.parentID ∈ V)
    (hkids : ∀ q ∈ n.children.drop (n.cells.length / 2 + 1), q ∈ V) :
    Sim E (splitNonRoot (nodeOps Mem.cache.toCacheOps) deg id id) (splitNonRoot (nodeOps cacheOps) deg page id) st t
      (fun _ _ st' t' => ∃ new h', Held c (Insert.insert new V) [(id, page)] h' st' t') R := by
  have hpar := hs.parentID_lt hl.node
  have hpar' := hs.parentID_lt hl.parent
  refine hs.sim_deref (List.mem_cons_self ..) hl.node fun _ => ?_
  apply (hs.sim_node hE hV hpid).bind
  rintro r parent st₁ t₁ - ⟨rfl, rfl, h₁, -⟩
  have hparent : (n.parentID, parent) ∈ [(n.parentID, parent), (id, page)] := List.mem_cons_self ..
  have hnode : (id, page) ∈ [(n.parentID, parent), (id, page)] := List.mem_cons_of_mem _ (List.mem_cons_self ..)
  refine h₁.sim_deref hparent hl.parent fun hppid => h₁.sim_deref hparent hl.parent fun _ => ?_
  apply sim_require
  · exact fun hx => hx
  intro _
  refine h₁.sim_deref hnode hl.node fun _ => sim_index fun m hm => h₁.sim_deref hparent hl.parent fun _ => ?_
  apply sim_require
  · exact fun hx => hx
  intro _
  apply (h₁.sim_modify hparent hl.parent rfl hpar').bind
  rintro - - st₂ t₂ - h₂
  set p' := p.setCells (p.cells.insertIdx (p.children.idxOf id) m)
  set n' := n.setCells (n.cells.eraseIdx (n.cells.length / 2))
  have hat₂ : (h.set n.parentID p').nodes id = some n := (Function.update_of_ne hl.ne.symm ..).trans hl.node
  apply (h₂.sim_modify hnode hat₂ rfl hpar).bind
  rintro - - st₃ t₃ - h₃
  set g := (h.set n.parentID p').set id n'
  have hgp : g.nodes n.parentID = some p' := (Function.update_of_ne hl.ne ..).trans (Function.update_self ..)
  have hgn : g.nodes id = some n' := Function.update_self ..
  refine h₃.sim_deref hparent hgp fun hppid' => h₃.sim_deref hnode hgn fun _ => ?_
  rw [hppid']
  apply (h₃.sim_new hE hR hV hcard (fun r hr => ?_) (h₃.id_lt hparent)).bind
  swap
  · rcases List.mem_cons.mp hr with rfl | hr
    · exact ⟨_, hgp⟩
    · obtain rfl := List.mem_singleton.mp hr
      exact ⟨_, hgn⟩
  rintro new newPage st₄ t₄ - ⟨a, hnone, -, h₄⟩
  have hne : new ≠ id := by
    rintro rfl
    cases hnone.symm.trans hgn
  have hnp : new ≠ n.parentID := by
    rintro rfl
    cases hnone.symm.trans hgp
  have hat₄ : ∀ q, q ≠ new → (g.alloc new (.new deg n.parentID false n'.leaf new) a).nodes q = g.nodes q := fun q hq =>
    Function.update_of_ne hq ..
  have hchild : ∀ q ∈ n'.children, q ≠ id ∧ q ≠ n.parentID ∧ q ≠ new ∧ ∃ k, g.nodes q = some k := by
    intro q hq
    obtain ⟨hqid, hqp, k, hk⟩ := hl.kids q hq
    have hgq : g.nodes q = some k := ((Function.update_of_ne hqid ..).trans (Function.update_of_ne hqp ..)).trans hk
    refine ⟨hqid, hqp, ?_, k, hgq⟩
    rintro rfl
    cases hnone.symm.trans hgq
  have hparent' := List.mem_cons_of_mem (new, newPage) hparent
  apply (h₄.sim_moveRightHalf hE (hV.trans (Finset.subset_insert ..)) (List.mem_cons_of_mem _ hnode)
    (List.mem_cons_self ..) ((hat₄ id hne.symm).trans hgn) (Function.update_self ..) hne fun q hq => ?_).bind
  swap
  · obtain ⟨hqid, -, hqnew, k, hk⟩ := hchild q (List.mem_of_mem_drop hq)
    exact ⟨Finset.mem_insert_of_mem (hkids q hq), hqid, hqnew, k, (hat₄ q hqnew).trans hk⟩
  rintro - - st₅ t₅ - ⟨h', h₅, -, ⟨k, hright⟩, -, hother⟩
  have hkid : n.parentID ∉ n'.children.drop (n.cells.length / 2 + 1) := fun hq =>
    (hchild _ (List.mem_of_mem_drop hq)).2.1 rfl
  have hat₅ : h'.nodes n.parentID = some p' :=
    (hother _ hl.ne hnp.symm hkid).trans ((hat₄ _ hnp.symm).trans hgp)
  refine h₅.sim_deref (List.mem_cons_self ..) hright fun _ => h₅.sim_deref hparent' hat₅ fun _ => ?_
  apply sim_require
  · exact fun hx => hx
  intro _
  refine (h₅.sim_modify hparent' hat₅ rfl hpar').mono ?_ fun _ _ hR => hR
  rintro - - st₆ t₆ h₆
  exact ⟨new, _, h₆.forget fun r hr => List.mem_cons_of_mem _ (List.mem_cons_of_mem _ hr)⟩

theorem sim_setRoot (hs : Held c V H h st t) (r : ℕ) :
    Sim E (change fun st => { st with rootPageID := r }) (change fun t => { t with rootPageID := r }) st t
      (fun _ _ st' t' => Held c V H { h with root := r } st' t') R := by
  refine sim_change ⟨hs.ok, ?_, rfl, hs.works⟩
  rw [← hs.heap_eq]
  rfl

theorem sim_splitRoot {deg : ℕ} (hs : Held c V [(id, page)] h st t) (hE : Outer E)
    (hR : E sizeLimit → ∀ st t, R st t) (hV : bitmaps ⊆ V) (hcard : V.card + 1 < c)
    (hn : h.nodes id = some n) (hkids : ∀ q ∈ n.children, q ≠ id ∧ ∃ k, h.nodes q = some k)
    (hmoved : ∀ q ∈ n.children.drop (n.cells.length / 2 + 1), q ∈ V) :
    Sim E (splitRoot (nodeOps Mem.cache.toCacheOps) deg id id) (splitRoot (nodeOps cacheOps) deg page id) st t
      (fun _ _ st' t' => ∃ new h', Held c (Insert.insert new (Insert.insert h'.root V)) [(id, page)] h' st' t') R := by
  apply (hs.sim_new hE hR hV (Nat.lt_of_succ_lt hcard) (fun r hr => ?_) (show PGID_INVALID < 2 ^ 32 by decide)).bind
  swap
  · obtain rfl := List.mem_singleton.mp hr
    exact ⟨n, hn⟩
  rintro r newRoot st₁ t₁ - ⟨a, hnone, -, h₁⟩
  have hroot : (r, newRoot) ∈ [(r, newRoot), (id, page)] := List.mem_cons_self ..
  have hnode : (id, page) ∈ [(r, newRoot), (id, page)] := List.mem_cons_of_mem _ (List.mem_cons_self ..)
  have hV₁ : bitmaps ⊆ Insert.insert r V := hV.trans (Finset.subset_insert ..)
  have hne : r ≠ id := by
    rintro rfl
    cases hnone.symm.trans hn
  set g₁ := h.alloc r (.new deg PGID_INVALID true false r) a
  have hg₁ : ∀ q, q ≠ r → g₁.nodes q = h.nodes q := fun q hq => Function.update_of_ne hq ..
  have hr₁ : g₁.nodes r = some (.new deg PGID_INVALID true false r) := Function.update_self ..
  refine h₁.sim_deref hroot hr₁ fun _ => ?_
  apply (h₁.sim_setRoot r).bind
  rintro - - st₂ t₂ - h₂
  have hparent := h₁.id_lt hroot
  have hn₂ : { g₁ with root := r }.nodes id = some n := (hg₁ id hne.symm).trans hn
  have hpar := hs.parentID_lt hn
  apply (h₂.sim_modify hnode hn₂ rfl hpar).bind
  rintro - - st₃ t₃ - h₃
  apply (h₃.sim_modify hnode (Function.update_self ..) rfl hparent).bind
  rintro - - st₄ t₄ - h₄
  set n₁ := (n.setRoot false).setParent r
  set g₂ := ({ g₁ with root := r }.set id (n.setRoot false)).set id n₁
  have hg₂ : ∀ q, q ≠ id → g₂.nodes q = g₁.nodes q := fun q hq =>
    (Function.update_of_ne hq ..).trans (Function.update_of_ne hq ..)
  have hn₄ : g₂.nodes id = some n₁ := Function.update_self ..
  refine h₄.sim_deref hnode hn₄ fun _ => sim_index fun m hm => ?_
  apply (h₄.sim_modify hroot ((hg₂ r hne).trans hr₁) rfl (show PGID_INVALID < 2 ^ 32 by decide)).bind
  rintro - - st₅ t₅ - h₅
  apply (h₅.sim_modify hnode ((Function.update_of_ne hne.symm ..).trans hn₄) rfl hparent).bind
  rintro - - st₆ t₆ - h₆
  set p' := (BtreeNodePage.new deg PGID_INVALID true false r).setCells
    ((BtreeNodePage.new (T := Tuple) deg PGID_INVALID true false r).cells ++ [m])
  set n₂ := n₁.setCells (n₁.cells.eraseIdx (n₁.cells.length / 2))
  set g₃ := (g₂.set r p').set id n₂
  have hr₃ : g₃.nodes r = some p' := (Function.update_of_ne hne ..).trans (Function.update_self ..)
  have hn₃ : g₃.nodes id = some n₂ := Function.update_self ..
  have hg₃ : ∀ q, q ≠ id → q ≠ r → g₃.nodes q = h.nodes q := fun q hq hq' =>
    (Function.update_of_ne hq ..).trans ((Function.update_of_ne hq' ..).trans ((hg₂ q hq).trans (hg₁ q hq')))
  have hidV : id ∈ Insert.insert r V := (h₆.works.object hnode).1
  apply (h₆.sim_node hE hV₁ hidV).bind
  rintro id' page' st₇ t₇ - ⟨hid', rfl, h₇, -⟩
  obtain rfl := hid'.symm
  refine h₇.sim_deref (List.mem_cons_self ..) hn₃ fun _ => ?_
  apply (h₇.sim_new hE hR hV₁ ((Nat.lt_of_le_of_lt (Finset.card_insert_le ..) hcard)) (fun x hx => ?_) hparent).bind
  swap
  · rcases List.mem_cons.mp hx with rfl | hx
    · exact ⟨_, hn₃⟩
    rcases List.mem_cons.mp hx with rfl | hx
    · exact ⟨_, hr₃⟩
    · obtain rfl := List.mem_singleton.mp hx
      exact ⟨_, hn₃⟩
  rintro new newPage st₈ t₈ - ⟨a', hnone', -, h₈⟩
  have hne' : new ≠ id := by
    rintro rfl
    cases hnone'.symm.trans hn₃
  have hnr : new ≠ r := by
    rintro rfl
    cases hnone'.symm.trans hr₃
  have hat₈ : ∀ q, q ≠ new → (g₃.alloc new (.new deg r false n₂.leaf new) a').nodes q = g₃.nodes q := fun q hq =>
    Function.update_of_ne hq ..
  have hchild : ∀ q ∈ n₂.children, q ≠ id ∧ q ≠ r ∧ q ≠ new ∧ ∃ k, g₃.nodes q = some k := by
    intro q hq
    obtain ⟨hqid, k, hk⟩ := hkids q hq
    have hqr : q ≠ r := by
      rintro rfl
      cases hnone.symm.trans hk
    have hgq : g₃.nodes q = some k := (hg₃ q hqid hqr).trans hk
    refine ⟨hqid, hqr, ?_, k, hgq⟩
    rintro rfl
    cases hnone'.symm.trans hgq
  have hroot' := List.mem_cons_of_mem (new, newPage) (List.mem_cons_of_mem (id, page') hroot)
  have hnode' := List.mem_cons_of_mem (new, newPage) (List.mem_cons_of_mem (id, page') hnode)
  apply (h₈.sim_moveRightHalf hE (hV₁.trans (Finset.subset_insert ..)) hnode' (List.mem_cons_self ..)
    ((hat₈ id hne'.symm).trans hn₃) (Function.update_self ..) hne' fun q hq => ?_).bind
  swap
  · obtain ⟨hqid, -, hqnew, k, hk⟩ := hchild q (List.mem_of_mem_drop hq)
    exact ⟨Finset.mem_insert_of_mem (Finset.mem_insert_of_mem (hmoved q hq)), hqid, hqnew, k, (hat₈ q hqnew).trans hk⟩
  rintro - - st₉ t₉ - ⟨h', h₉, -, ⟨k, hright⟩, hroot₉, hother⟩
  have hrnot : r ∉ n₂.children.drop (n.cells.length / 2 + 1) := fun hq => (hchild _ (List.mem_of_mem_drop hq)).2.1 rfl
  have hr₉ : h'.nodes r = some p' := (hother _ hne hnr.symm hrnot).trans ((hat₈ _ hnr.symm).trans hr₃)
  apply (h₉.sim_modify hroot' hr₉ rfl (show PGID_INVALID < 2 ^ 32 by decide)).bind
  rintro - - st₁₀ t₁₀ - h₁₀
  refine h₁₀.sim_deref (List.mem_cons_self ..) ((Function.update_of_ne hnr ..).trans hright) fun _ => ?_
  refine (h₁₀.sim_modify hroot' (Function.update_self ..) rfl (show PGID_INVALID < 2 ^ 32 by decide)).mono ?_
    fun _ _ hR => hR
  rintro - - st₁₁ t₁₁ h₁₁
  obtain ⟨g, hg, hgroot⟩ : ∃ g, Held c (Insert.insert new (Insert.insert r V)) [(id, page)] g st₁₁ t₁₁ ∧
      g.root = r := by
    refine ⟨_, h₁₁.forget fun x hx => ?_, hroot₉⟩
    obtain rfl := List.mem_singleton.mp hx
    exact hnode'
  exact ⟨new, g, hgroot.symm ▸ hg⟩

end Held
end Btree
end Kndb
