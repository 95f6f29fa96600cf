import Kndb.Btree.MemoryPager
import Kndb.Btree.Reachable

namespace Kndb.Btree

open Ascending Imp Imp.Prog

variable {σ T : Type} {P : LawfulPager σ T} {s₀ : σ} {h g : Heap T}
variable {R : Heap T → Prop} {A : Stop → Prop} {deg : ℕ} {L : Layout} {key : Vari}

theorem runs_searchRowPtr_malformed {Q : RowPos → Heap T → Prop} {p fuel : ℕ} {n : BtreeNodePage T}
    (hn : h.nodes p = some n) (hl : n.leaf = false) (hc : n.cells ≠ [])
    (hlen : n.children.length ≠ n.cells.length + 1) (hA : A .abort) :
    Runs P s₀ (searchRowPtr P.toPagerOps key (fuel + 1) p) h Q R A := by
  rw [searchRowPtr]
  refine runs_bind (runs_node hn (runs_bind (runs_deref hn fun _ => ?_)))
  refine runs_bind (runs_check (fun _ => ?_) fun _ => hA)
  refine runs_bind (runs_check (fun h2 => ?_) fun _ => hA)
  refine runs_bind (runs_check (fun h3 => ?_) fun _ => hA)
  rcases hr : n.root with _ | _
  · simp [hl, hr, hlen] at h3
  · simp [hl, hr, hlen, hc] at h2

theorem runs_searchRowPtr_child {Q : RowPos → Heap T → Prop} {p q fuel : ℕ} {n : BtreeNodePage T}
    (hn : h.nodes p = some n) (hl : n.leaf = false)
    (hno : ¬(n.cells[scan key n.cells]?.any fun c => key.eq c.key) = true)
    (hq : n.children[scan key n.cells]? = some q) (hA : A .abort)
    (hrec : Runs P s₀ (searchRowPtr P.toPagerOps key fuel q) h Q R A) :
    Runs P s₀ (searchRowPtr P.toPagerOps key (fuel + 1) p) h Q R A := by
  rw [searchRowPtr]
  refine runs_bind (runs_node hn (runs_bind (runs_deref hn fun _ => ?_)))
  refine runs_bind (runs_check (fun _ => ?_) fun _ => hA)
  refine runs_bind (runs_check (fun _ => ?_) fun _ => hA)
  refine runs_bind (runs_check (fun _ => ?_) fun _ => hA)
  rw [if_neg hno, hl, if_neg (by simp)]
  exact runs_bind (runs_at? hq hrec)

/-- Above a page whose interval contains the key the search comes down to that page. -/
theorem Tree.runs_searchRowPtr_above {Q : RowPos → Heap T → Prop} (ht : Tree deg g.nodes g.root L)
    (hkey : key.isNaN = false) (hA : A .abort) {k : ℕ}
    (heq : ∀ q ∈ L.pages, k < L.height q → h.nodes q = g.nodes q) (d : ℕ) {p f : ℕ}
    (hp : p ∈ L.pages) (hk : k ≤ L.height p) (hd : L.height p + d = L.height g.root)
    (hlo : L.lo p < key.bound) (hhi : key.bound < L.hi p)
    (hrec : ∀ fuel, f ≤ fuel → Runs P s₀ (searchRowPtr P.toPagerOps key fuel p) h Q R A) :
    ∀ fuel, f + d ≤ fuel → Runs P s₀ (searchRowPtr P.toPagerOps key fuel g.root) h Q R A := by
  induction d generalizing p f with
  | zero => exact ht.eq_root hp hd ▸ hrec
  | succ d ih =>
    have hne : p ≠ g.root := by
      rintro rfl
      omega
    obtain ⟨n, hn, hok⟩ := ht.link p hp
    obtain ⟨m, hm, hl, hh⟩ := ht.attached hp hne hn
    have hmem := (hok.listed hne).1
    have hokm := ht.node_of hmem hm
    have hml : m.leaf = false := hokm.leaf_eq_false (by omega)
    have hb := ht.kid_bounds hp hne hn
    have hlo' : L.lo n.parentID < key.bound := hb.1.trans_lt hlo
    have hhi' : key.bound < L.hi n.parentID := hhi.trans_le hb.2
    -- the key is not in the parent, since it is strictly inside the interval of a child
    have havoid : ∀ c ∈ m.cells, c.key.rank ≠ key.rank := by
      intro c hc he
      have hcb : c.key.bound = key.bound := Vari.bound_inj.mpr he
      rcases kid_avoids hokm.between (hokm.kids_lo hml) (hokm.kids_hi hml) hl.listed
        (List.mem_map_of_mem hc) with hx | hx
      · exact absurd (hcb ▸ hx) (not_le.mpr hlo)
      · exact absurd (hcb ▸ hx) (not_le.mpr hhi)
    obtain ⟨q, hq, hqlo, hqhi⟩ := hokm.child_scan hkey hml hlo' hhi' havoid
    obtain rfl : q = p := kid_unique hokm.between (hokm.kids_lo hml) (hokm.kids_hi hml)
      (List.mem_of_getElem? hq) hl.listed ⟨hqlo, hqhi⟩ ⟨hlo, hhi⟩
    have hno : ¬(m.cells[scan key m.cells]?.any fun c => key.eq c.key) = true := by
      intro hany
      obtain ⟨c, hc, heqv⟩ := (Option.any_eq_true _ _).mp hany
      have hc' := List.mem_of_getElem? hc
      exact havoid c hc' ((Vari.eq_iff hkey (hokm.keys c hc')).mp heqv).symm
    have hstep : ∀ fuel, f + 1 ≤ fuel →
        Runs P s₀ (searchRowPtr P.toPagerOps key fuel n.parentID) h Q R A := by
      intro fuel hfuel
      obtain ⟨fuel, rfl⟩ : ∃ f, fuel = f + 1 := ⟨fuel - 1, by omega⟩
      exact runs_searchRowPtr_child ((heq _ hmem (by omega)).trans hm) hml hno hq hA
        (hrec fuel (by omega))
    intro fuel hfuel
    exact ih hmem (by omega) (by omega) hlo' hhi' hstep fuel (by omega)

/-- The search for a key below the page that could not be split aborts. -/
theorem CutAt.runs_search_stuck {c : Cut T} (hc : CutAt deg g.nodes g.root L c)
    (ht : Tree deg g.nodes g.root L) (hkey : key.isNaN = false) (hlo : L.lo c.id < key.bound)
    (hhi : key.bound < L.hi c.id) {fuel : ℕ} (hfuel : L.height g.root < fuel) :
    Runs P s₀ (search P.toPagerOps fuel key) { g with nodes := stuckNodes g.nodes c }
      (fun _ _ => False) (fun _ => False) (· = .abort) := by
  have hokp := ht.node_of hc.pid_mem hc.parent
  have hb := ht.kid_bounds hc.mem hc.ne_root hc.node
  have hle := ht.top _ hc.pid_mem
  have hid := hc.height_pid
  have hlen := hokp.children_length hc.p_leaf
  refine runs_bind (runs_rootPageID (runs_bind ?_))
  refine ht.runs_searchRowPtr_above (A := (· = .abort)) hkey rfl (fun q _ hh => ?_)
    (L.height g.root - L.height c.n.parentID) hc.pid_mem le_rfl (by omega) (hb.1.trans_lt hlo)
    (hhi.trans_le hb.2) (f := 1) (fun fuel hf => ?_) fuel (by omega)
  · have h1 : q ≠ c.id := by
      rintro rfl
      omega
    have h2 : q ≠ c.n.parentID := by
      rintro rfl
      omega
    simp [stuckNodes, h1, h2]
  · obtain ⟨fuel, rfl⟩ : ∃ f, fuel = f + 1 := ⟨fuel - 1, by omega⟩
    refine runs_searchRowPtr_malformed (n := { c.p with cells := c.C ++ c.m :: c.D }) ?_ hc.p_leaf
      (by simp) ?_ rfl
    · simp [stuckNodes, hc.pid_ne_id]
    · rw [hc.p_cells] at hlen
      simp only [List.length_append, List.length_cons] at hlen ⊢
      omega

/-- Nothing that can be seen of the tree from outside has changed. -/
structure Unchanged (P : PagerOps ℕ σ T) (st st' : BtreeState σ) : Prop where
  root : st'.rootPageID = st.rootPageID
  answers : ∀ key r, Answers P st key r → Answers P st' key r

/-- If the insertion throws, nothing has changed. -/
def AllOrNothing (P : PagerOps ℕ σ T) (t : ℕ) (st : BtreeState σ) (v : T) (key : Vari) : Prop :=
  ∀ fuel e st', insert P t fuel v key st = .throw e st' → Unchanged P st st'

variable {st st' : BtreeState σ} {t u : ℕ} {ovf : Option ℕ}

theorem Balanced.answers_none_iff (hb : Balanced True t u (heap P st) L ovf)
    (hS : Searchable (heap P st).nodes (heap P st).root L) (hok : P.Ok st.pager)
    (hkey : key.isNaN = false) : Answers P.toPagerOps st key none ↔ ¬HasKey (heap P st).nodes L key := by
  obtain ⟨r, st', hr, -, -, -, hres⟩ := ok_of_wp (wp_mono (Runs.start hok
    (runs_search (R := fun _ => False) (A := fun _ => False) hb hS (fun _ => hkey)
      (Nat.lt_succ_self _)))
    (fun _ _ hq => hq) (fun _ _ hr => hr.2.2) fun _ hA => hA)
  constructor
  · intro hans hyes
    obtain ⟨st'', hr'⟩ := hans.eq (by rw [hr]; exact nofun)
    obtain ⟨rfl, -⟩ : r = none ∧ st' = st'' := by simpa using hr.symm.trans hr'
    rcases hres trivial with ⟨c, hc, hcr, hv⟩ | ⟨hno, -⟩
    · simp at hv
    · exact hno hyes
  · intro hno
    rcases hres trivial with ⟨c, hc, hcr, -⟩ | ⟨-, rfl⟩
    · exact absurd ⟨c, hc, hcr⟩ hno
    · exact ⟨_, st', hr⟩

/-- An exception of the cascade is visible from outside. -/
theorem Thrown.not_unchanged (hu : 2 ≤ u) (hu' : u ≤ 2 ^ 15) {id id' : ℕ} {L' : Layout}
    (ht : Thrown True t u h L id (heap P st') g L' id') (hroot : h.root = st.rootPageID)
    (hok' : P.Ok st'.pager) (hkey : key.isNaN = false) (hlo : L.lo id < key.bound)
    (hhi : key.bound < L.hi id) (hhas : HasKey h.nodes L key)
    (hans : Answers P.toPagerOps st key none) : ¬Unchanged P.toPagerOps st st' := by
  have htree := ht.balanced.tree trivial
  have hhas' : HasKey g.nodes L' key := by
    obtain ⟨c, hc, hr⟩ := hhas
    exact ⟨c, (ht.grown.cells c).mpr hc, hr⟩
  have hstuck := ht.stuck
  have hb := ht.balanced
  generalize hh : heap P st' = h' at hstuck
  intro hun
  cases hstuck with
  | root he =>
    subst hh
    exact (hb.answers_none_iff (hb.sized.searchable hu hu') hok' hkey).mp (hun.answers key none hans) hhas'
  -- the old root is no longer the root
  | newRoot g' he hne =>
    have hroot' : h'.root = st'.rootPageID := by rw [← hh]; rfl
    exact hne (by rw [hroot', hun.root, ht.root_eq, hroot])
  -- the search for the key comes to the page whose children were cut off, and aborts
  | parent c hid hc =>
    have hab : Runs P st'.pager (search P.toPagerOps (L'.height g.root + 1) key) (heap P st')
        (fun _ _ => False) (fun _ => False) (· = .abort) :=
      runs_congr hh (hc.runs_search_stuck htree hkey (hid ▸ (ht.lo trivial).trans_lt hlo)
        (hid ▸ hhi.trans_le (ht.hi trivial)) (Nat.lt_succ_self _))
    obtain ⟨m, hm⟩ := abort_of_wp (wp_mono (hab.start hok')
      (fun _ _ hq => hq.2.2) (fun _ _ hr => hr.2.2) fun _ hA => hA)
    obtain ⟨st'', hst⟩ := (hun.answers key none hans).eq (by rw [hm]; exact nofun)
    exact absurd (hm.symm.trans hst) (by simp)

theorem Balanced.insert_ne_throw {o : Prop} (hb : Balanced o t u (heap P st) L none)
    (hdeg : effectiveDegree t = u) (hu : 2 ≤ u) (hok : P.Ok st.pager)
    (hkey : o → key.isNaN = false) {v : T} {k : ℕ} (hk : L.height st.rootPageID ≤ k)
    (hle : insertNeeds (P.view st.pager) st.rootPageID key (k + 1) ≤ P.avail st.pager)
    (fuel : ℕ) (e : Exn) (st' : BtreeState σ) :
    insert P.toPagerOps t fuel v key st ≠ .throw e st' := by
  intro hthrow
  have hmax : insert P.toPagerOps t (max fuel (L.height st.rootPageID + 2)) v key st = .throw e st' := by
    rw [(insert_approx _ (le_max_left fuel _) t v key).eq (by rw [hthrow]; exact nofun), hthrow]
  obtain ⟨-, -, -, id, g, hins, hneeds, hlt, -⟩ := (wp_of_throw hmax).mp
    (Runs.start hok (runs_insert (A := fun _ => False) hb hdeg hu hkey (le_max_right fuel _) hk))
  rw [← hneeds, hins.avail_eq] at hlt
  exact absurd hle (not_le.mpr hlt)

theorem Balanced.insertNeeds_le_avail {o : Prop} (hb : Balanced o t u (heap P st) L none)
    (hdeg : effectiveDegree t = u) (hu : 2 ≤ u) (hok : P.Ok st.pager) (hkey : o → key.isNaN = false) {v : T}
    {fuel : ℕ} {r : Bool} (hret : insert P.toPagerOps t fuel v key st = .ok r st') (f : ℕ) :
    insertNeeds (P.view st.pager) st.rootPageID key f ≤ P.avail st.pager := by
  by_cases hf : f ≤ L.height st.rootPageID
  · have hpath : leafOf (P.view st.pager) key f st.rootPageID = none :=
      hb.linked.leafOf_eq_none key hb.linked.root_mem hf
    rw [insertNeeds, hpath]
    exact zero_le
  obtain ⟨k, rfl⟩ : ∃ k, f = k + 1 := ⟨f - 1, by omega⟩
  have hmax : insert P.toPagerOps t (max fuel (L.height st.rootPageID + 2)) v key st = .ok r st' := by
    rw [(insert_approx _ (le_max_left fuel _) t v key).eq (by simp [hret]), hret]
  have hk : L.height st.rootPageID ≤ k := by omega
  rcases ((wp_of_ok hmax).mp (Runs.start hok (runs_insert (A := fun _ => False) hb hdeg hu hkey
    (le_max_right fuel _) hk))).2.2 with ⟨-, -, h0, -⟩ | ⟨-, -, id, g, hins, hneeds, L', -, -, -, havail, -⟩
  · exact h0.le.trans zero_le
  · rw [hins.avail_eq, ← hneeds] at havail
    exact le_add_self.trans havail.ge

theorem Balanced.allOrNothing_iff (hb : Balanced True t u (heap P st) L none)
    (hdeg : effectiveDegree t = u) (hu : 2 ≤ u) (hok : P.Ok st.pager) (hkey : key.isNaN = false)
    {v : T} {k : ℕ} (hk : L.height st.rootPageID ≤ k) :
    AllOrNothing P.toPagerOps t st v key ↔
      insertNeeds (P.view st.pager) st.rootPageID key (k + 1) ≤ P.avail st.pager := by
  refine ⟨fun hall => ?_, fun hle fuel e st' hthrow =>
    absurd hthrow (hb.insert_ne_throw hdeg hu hok (fun _ => hkey) hk hle fuel e st')⟩
  have hu' : u ≤ 2 ^ 15 := hdeg ▸ effectiveDegree_le t
  have hruns := Runs.start hok (runs_insert (v := v) (A := fun _ => False) hb hdeg hu
    (fun _ => hkey) (Nat.le_refl (L.height st.rootPageID + 2)) hk)
  rcases ok_or_throw_of_wp hruns with ⟨b, st', hret, -⟩ |
    ⟨e, st', hthrow, hok', -, hno, id, g, hins, -, -, g', L', id', hth⟩
  · exact hb.insertNeeds_le_avail hdeg hu hok (fun _ => hkey) hret (k + 1)
  · have hS := hb.sized.searchable hu hu'
    refine absurd (hall _ e st' hthrow) (hth.not_unchanged hu hu' hins.root_eq hok' hkey
      (hins.lo trivial) (hins.hi trivial) ?_ ((hb.answers_none_iff hS hok hkey).mpr (hno trivial)))
    exact ⟨_, (hins.cells _).mpr (.inl rfl), rfl⟩

section Empty

variable {par : ℕ} {n : BtreeNodePage T}

theorem searchable_single {nodes : ℕ → Option (BtreeNodePage T)} {root : ℕ}
    (hn : nodes root = some n) (hl : n.leaf = true) (hlen : n.cells.length ≤ 1) :
    Searchable nodes root (.single root) := by
  have hone : ∀ p ∈ (Layout.single root).pages, ∀ m, nodes p = some m → p = root ∧ m = n := by
    intro p hp m hm
    obtain rfl : p = root := by simpa [Layout.single] using hp
    exact ⟨rfl, Option.some.inj (hm.symm.trans hn)⟩
  refine ⟨fun p hp m hm hf => ?_, fun p hp hr m hm => absurd (hone p hp m hm).1 hr,
    fun p hp m hm => ?_⟩
  · rw [(hone p hp m hm).2, hl] at hf
    cases hf
  · rw [(hone p hp m hm).2, CELLID_INVALID]
    omega

theorem insertNeeds_empty (hu : effectiveDegree t = 1) {nodes : ℕ → Option (BtreeNodePage T)}
    {root : ℕ} (hn : nodes root = some (.new t par true true root)) (k : ℕ) :
    insertNeeds nodes root key (k + 1) = ⊤ := by
  have hmax : (BtreeNodePage.new t par true true root : BtreeNodePage T).maxKeys = 1 := by
    rw [maxKeys_eq, BtreeNodePage.new, hu]
  have hpath : leafOf nodes key (k + 1) root = some root := by
    rw [leafOf, hn]
    rfl
  rw [insertNeeds, hpath, Option.elim_some, splitsNeeded, hn, Option.elim_some, hmax,
    if_neg (by simp), if_pos (by rfl), rootSplitNeeds, hmax, if_neg (lt_irrefl 1)]

theorem not_hasKey_empty {nodes : ℕ → Option (BtreeNodePage T)} {root : ℕ}
    (hn : nodes root = some (.new t par true true root)) : ¬HasKey nodes (.single root) key := by
  rw [(represents_single hn).hasKey_iff]
  simp

theorem insertAt_empty (hn : h.nodes h.root = some (.new t par true true h.root))
    (hkey : key.isNaN = false) (v : T) :
    InsertAt True t 1 h (.single h.root) ⟨key, v⟩ h.root
      (h.set h.root ((BtreeNodePage.new t par true true h.root).setCells [⟨key, v⟩])) := by
  have hb : Balanced True t 1 h (.single h.root) none := balanced_single rfl hn
  exact hb.insertAt (c := ⟨key, v⟩) (fun _ => hkey) hb.linked.root_mem hn rfl fun _ =>
    ⟨key.bot_lt_bound, key.bound_lt_top, not_hasKey_empty hn⟩

theorem allOrNothing_iff_degreeOne (hu : effectiveDegree t = 1) (hok : P.Ok st.pager)
    (hn : P.view st.pager st.rootPageID = some (.new t par true true st.rootPageID))
    (hkey : key.isNaN = false) {v : T} :
    AllOrNothing P.toPagerOps t st v key ↔ P.avail st.pager = ⊤ := by
  have hruns := fun fuel => Runs.start hok (runs_insert_degreeOne hu fuel v key hn)
  refine ⟨fun hall => ?_, fun htop fuel e st' hthrow => ?_⟩
  swap
  · obtain ⟨-, -, hne, -⟩ := (wp_of_throw hthrow).mp (hruns fuel)
    exact absurd htop hne
  by_contra hne
  obtain ⟨a, ha⟩ := ENat.ne_top_iff_exists.mp hne
  have hend : ¬((a + 1 : ℕ) : ℕ∞) ≤ P.avail st.pager := by
    rw [← ha]
    exact_mod_cast Nat.not_succ_le_self a
  rcases ok_or_throw_of_wp (wp_mono (hruns (a + 1)) (fun _ _ hq => hq) (fun _ _ hr => hr)
    fun _ hA => absurd hA.2 hend) with ⟨_, _, -, -, -, hff⟩ | ⟨e, st', hthrow, hok', -, -, hset | hroot⟩
  · exact hff
  · have hins := insertAt_empty (h := heap P st) hn hkey v
    rw [← hset] at hins
    have hS : Searchable (heap P st').nodes (heap P st').root (.single st.rootPageID) := by
      rw [hset]
      exact searchable_single (Function.update_self ..) rfl (by simp)
    refine (hins.balanced.answers_none_iff hS hok' hkey).mp ((hall _ e st' hthrow).answers key none ?_)
      ⟨_, (hins.cells _).mpr (.inl rfl), rfl⟩
    exact ((balanced_single (u := 1) rfl hn).answers_none_iff
      (searchable_single hn rfl (by simp [BtreeNodePage.new])) hok hkey).mpr (not_hasKey_empty hn)
  · exact hroot (hall _ e st' hthrow).root

end Empty

section Reached

variable {ops : List (TreeOp T)} {rs : List (Reply T)} {st₀ : BtreeState σ}

/-- An insertion into a reachable tree is all or nothing exactly if the pages suffice for its
cascade; if they do, it does not throw, whatever the keys are. -/
theorem insert_allOrNothing_iff (ht : 2 ≤ t) (ht' : t < 2 ^ 16) (hreach : Reaches P t st₀ ops rs st)
    (v : T) (key : Vari) :
    (insertNeeds (P.view st.pager) st.rootPageID key (ops.length + 2) ≤ P.avail st.pager →
      ∀ fuel e st', insert P.toPagerOps t fuel v key st ≠ .throw e st') ∧
    ((∀ op ∈ ops, op.key.isNaN = false) → key.isNaN = false →
      (AllOrNothing P.toPagerOps t st v key ↔
        insertNeeds (P.view st.pager) st.rootPageID key (ops.length + 2) ≤ P.avail st.pager)) := by
  rcases effectiveDegree_cases ht ht' with ⟨-, hu⟩ | ⟨-, hu⟩
  · constructor
    · intro hle fuel e st'
      obtain ⟨hok, -, L, hpost⟩ := hreach.runPost (o := False) hu False.elim
      refine hpost.balanced.insert_ne_throw rfl hu hok False.elim ?_ hle fuel e st'
      exact hpost.height.trans (by simp [Layout.single])
    · intro hops hkey
      obtain ⟨hok, -, L, hpost⟩ := hreach.runPost (o := True) hu fun _ => hops
      refine hpost.balanced.allOrNothing_iff rfl hu hok hkey ?_
      exact hpost.height.trans (by simp [Layout.single])
  · obtain ⟨hok, heq⟩ := hreach.heap_eq hu
    obtain ⟨-, par, hn⟩ := hreach.empty
    obtain ⟨hview, hroot, -⟩ : P.view st.pager = P.view st₀.pager ∧
      st.rootPageID = st₀.rootPageID ∧ P.avail st.pager = P.avail st₀.pager := by
      simpa [heap] using heq
    rw [← hview, ← hroot] at hn
    rw [insertNeeds_empty hu hn, top_le_iff]
    refine ⟨fun htop fuel e st' hthrow => ?_, fun _ hkey => allOrNothing_iff_degreeOne hu hok hn hkey⟩
    obtain ⟨-, -, hne, -⟩ := (wp_of_throw hthrow).mp
      (Runs.start hok (runs_insert_degreeOne hu fuel v key hn))
    exact hne htop

end Reached

def fullRoot : BtreeState (Memory ℕ) :=
  ⟨⟨[{ (BtreeNodePage.new 2 PGID_INVALID true true 0 : BtreeNodePage ℕ) with
    cells := [⟨.int 1, 10⟩, ⟨.int 2, 20⟩] }], some 0⟩, 0⟩

/-- What the third key leaves behind. -/
def overfullRoot : BtreeState (Memory ℕ) :=
  ⟨⟨[{ (BtreeNodePage.new 2 PGID_INVALID true true 0 : BtreeNodePage ℕ) with
    cells := [⟨.int 1, 10⟩, ⟨.int 2, 20⟩, ⟨.int 3, 30⟩] }], some 0⟩, 0⟩

theorem reaches_fullRoot : Reaches memoryPager 2 (emptyMemory ℕ 2 (some 0))
    [.insert 10 (.int 1), .insert 20 (.int 2)] [.changed true, .changed true] fullRoot :=
  ⟨emptyTree_emptyMemory 2 (some 0), 3, rfl⟩

theorem allOrNothing_iff_fullRoot :
    (insertNeeds (memoryPager.view fullRoot.pager) 0 (.int 3) 4 ≤ memoryPager.avail fullRoot.pager →
      ∀ fuel e st', insert memoryPager.toPagerOps 2 fuel 30 (.int 3) fullRoot ≠ .throw e st') ∧
    (AllOrNothing memoryPager.toPagerOps 2 fullRoot 30 (.int 3) ↔
      insertNeeds (memoryPager.view fullRoot.pager) 0 (.int 3) 4 ≤
        memoryPager.avail fullRoot.pager) := by
  have h := insert_allOrNothing_iff (by decide) (by decide) reaches_fullRoot 30 (.int 3)
  exact ⟨h.1, h.2 (by decide) rfl⟩

/-- The insertion throws, and the key it did not insert is found afterwards. -/
theorem allOrNothing_counterexample :
    insert memoryPager.toPagerOps 2 3 30 (.int 3) fullRoot =
      .throw (.runtimeError "no page left") overfullRoot ∧
    Answers memoryPager.toPagerOps fullRoot (.int 3) none ∧
    ¬Answers memoryPager.toPagerOps overfullRoot (.int 3) none ∧
    ¬AllOrNothing memoryPager.toPagerOps 2 fullRoot 30 (.int 3) := by
  have hthrow : insert memoryPager.toPagerOps 2 3 30 (.int 3) fullRoot =
      .throw (.runtimeError "no page left") overfullRoot := rfl
  have hbefore : Answers memoryPager.toPagerOps fullRoot (.int 3) none := ⟨2, fullRoot, rfl⟩
  have hafter : ¬Answers memoryPager.toPagerOps overfullRoot (.int 3) none := by
    intro hans
    have hfound : search memoryPager.toPagerOps 2 (.int 3) overfullRoot = .ok (some 30) overfullRoot := rfl
    obtain ⟨st', hst⟩ := hans.eq (by rw [hfound]; exact nofun : search memoryPager.toPagerOps 2 _ _ ≠ _)
    exact absurd (hfound.symm.trans hst) (by simp)
  exact ⟨hthrow, hbefore, hafter, fun hall =>
    hafter ((hall _ _ _ hthrow).answers _ _ hbefore)⟩

end Kndb.Btree
