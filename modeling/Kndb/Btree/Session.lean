import Kndb.Btree.Operations

namespace Kndb.Btree

open Imp.Prog

variable {Ref σ T : Type}

inductive TreeOp (T : Type) where
  | insert (values : T) (key : Vari)
  | update (values : T) (key : Vari)
  | search (key : Vari)

inductive Reply (T : Type) where
  | changed (b : Bool)
  | found (v : Option T)
deriving DecidableEq

namespace TreeOp

def key : TreeOp T → Vari
  | insert _ k => k
  | update _ k => k
  | search k => k

def onMap : TreeOp T → (Rank → Option T) → Reply T × (Rank → Option T)
  | insert v k, m =>
    if (m k.rank).isSome then (.changed false, m)
    else (.changed true, Function.update m k.rank (some v))
  | update v k, m =>
    if (m k.rank).isSome then (.changed true, Function.update m k.rank (some v))
    else (.changed false, m)
  | search k, m => (.found (m k.rank), m)

def onTree (P : PagerOps Ref σ T) (m_degree fuel : ℕ) : TreeOp T → BtreeM σ (Reply T)
  | insert v k => do return .changed (← Btree.insert P m_degree fuel v k)
  | update v k => do return .changed (← Btree.update P fuel v k)
  | search k => do return .found (← Btree.search P fuel k)

end TreeOp

/-- The replies of a map to a run of operations. -/
def mapReplies : List (TreeOp T) → (Rank → Option T) → List (Reply T)
  | [], _ => []
  | op :: ops, m => (op.onMap m).1 :: mapReplies ops (op.onMap m).2

/-- The map after a run of operations. -/
def mapAfter : List (TreeOp T) → (Rank → Option T) → (Rank → Option T)
  | [], m => m
  | op :: ops, m => mapAfter ops (op.onMap m).2

def runOps (P : PagerOps Ref σ T) (m_degree fuel : ℕ) :
    List (TreeOp T) → BtreeM σ (List (Reply T))
  | [] => pure []
  | op :: ops => do
    let r ← op.onTree P m_degree fuel
    let rs ← runOps P m_degree fuel ops
    return r :: rs

section Step

variable {P : LawfulPager σ T} {s₀ : σ} {h : Heap T} {A : Imp.Stop → Prop}
variable {o : Prop} {deg u : ℕ} {L : Layout}

/-- The cells of the tree are the map. -/
def Represents (nodes : ℕ → Option (BtreeNodePage T)) (L : Layout) (m : Rank → Option T) : Prop :=
  ∀ r v, m r = some v ↔ ∃ c, CellIn nodes L c ∧ c.key.rank = r ∧ c.value = v

theorem Represents.hasKey_iff {nodes : ℕ → Option (BtreeNodePage T)} {m : Rank → Option T}
    (hm : Represents nodes L m) (key : Vari) : HasKey nodes L key ↔ (m key.rank).isSome := by
  rw [Option.isSome_iff_exists]
  constructor
  · rintro ⟨c, hc, hr⟩
    exact ⟨c.value, (hm _ _).mpr ⟨c, hc, hr, rfl⟩⟩
  · rintro ⟨v, hv⟩
    obtain ⟨c, hc, hr, -⟩ := (hm _ _).mp hv
    exact ⟨c, hc, hr⟩

theorem Represents.update {nodes nodes' : ℕ → Option (BtreeNodePage T)} {L' : Layout}
    {m : Rank → Option T} (hm : Represents nodes L m) {k : Vari} {v : T}
    (hcells : ∀ d, CellIn nodes' L' d ↔
      d = ⟨k, v⟩ ∨ CellIn nodes L d ∧ d.key.rank ≠ k.rank) :
    Represents nodes' L' (Function.update m k.rank (some v)) := by
  intro r w
  by_cases hr : r = k.rank
  · subst hr
    rw [Function.update_self, Option.some.injEq]
    constructor
    · rintro rfl
      exact ⟨⟨k, v⟩, (hcells _).mpr (.inl rfl), rfl, rfl⟩
    · rintro ⟨c, hc, hcr, rfl⟩
      rcases (hcells c).mp hc with rfl | ⟨-, hne⟩
      · rfl
      · exact absurd hcr hne
  · rw [Function.update_of_ne hr, hm]
    refine exists_congr fun c => ⟨?_, ?_⟩
    · rintro ⟨hc, rfl, hv⟩
      exact ⟨(hcells c).mpr (.inr ⟨hc, hr⟩), rfl, hv⟩
    · rintro ⟨hc, rfl, hv⟩
      rcases (hcells c).mp hc with rfl | ⟨hc, -⟩
      · exact absurd rfl hr
      · exact ⟨hc, rfl, hv⟩

structure StepPost (o : Prop) (deg u : ℕ) (h : Heap T) (L : Layout) (op : TreeOp T) (r : Reply T)
    (h' : Heap T) (L' : Layout) : Prop where
  evolved : Evolved h L h' L'
  balanced : Balanced o deg u h' L' none
  height : L'.height h'.root ≤ L.height h.root + 1
  map : o → ∀ m, Represents h.nodes L m →
    r = (op.onMap m).1 ∧ Represents h'.nodes L' (op.onMap m).2
  same : r ≠ .changed true → h' = h
  root : (∀ v k, op ≠ .insert v k) → h'.root = h.root

def StepThrows (o : Prop) (deg u k : ℕ) (h : Heap T) (L : Layout) (op : TreeOp T) (h' : Heap T) :
    Prop :=
  ∃ v key, op = .insert v key ∧ (o → ¬HasKey h.nodes L key) ∧ ∃ id g,
    InsertAt o deg u h L ⟨key, v⟩ id g ∧
    insertNeeds h.nodes h.root key (k + 1) = splitsPending g.nodes k id ∧
    SplitThrows o deg u k id g L h'

/-- The cell that the operation writes, whatever cell it finds, has the property if that cell does. -/
def TreeOp.Keeps (K : Cell T → Prop) : TreeOp T → Prop
  | insert v key => K ⟨key, v⟩
  | update v _ => ∀ c, K c → K ⟨c.key, v⟩
  | search _ => True

/-- What is true of every cell, and of the one that the operation writes, stays true of every cell. -/
def KeepsCells (nodes : ℕ → Option (BtreeNodePage T)) (L : Layout) (op : TreeOp T)
    (nodes' : ℕ → Option (BtreeNodePage T)) (L' : Layout) : Prop :=
  ∀ K, op.Keeps K → (∀ c, CellIn nodes L c → K c) → ∀ c, CellIn nodes' L' c → K c

theorem runs_onTree (hb : Balanced o deg u h L none) (hdeg : effectiveDegree deg = u) (hu : 2 ≤ u)
    {op : TreeOp T} (hkey : o → op.key.isNaN = false) {fuel k : ℕ}
    (hfuel : L.height h.root + 2 ≤ fuel) (hk : L.height h.root ≤ k) :
    Runs P s₀ (op.onTree P.toPagerOps deg fuel) h
      (fun r h' => ∃ L', StepPost o deg u h L op r h' L' ∧ KeepsCells h.nodes L op h'.nodes L')
      (StepThrows o deg u k h L op) A := by
  have hu' : u ≤ 2 ^ 15 := hdeg ▸ effectiveDegree_le deg
  cases op with
  | insert v key =>
    refine runs_bind (runs_mono (runs_insert hb hdeg hu hkey hfuel hk) ?_
      (fun h' hr => ⟨v, key, rfl, hr⟩) fun _ hA => hA)
    rintro r h' (⟨rfl, rfl, -, hyes⟩ | ⟨rfl, hno, id, g, hins, -, L', hg, hb', hh, -⟩)
    · refine runs_pure ⟨L, ⟨.of_frame (fun _ _ => rfl) rfl, hb, Nat.le_succ _, fun ho m hm => ?_, fun _ => rfl,
        fun _ => rfl⟩, fun K _ hK => hK⟩
      have := (hm.hasKey_iff key).mp (hyes ho)
      simpa [TreeOp.onMap, this] using hm
    -- the cell is put into a leaf first, and the cascade starts from there
    · have hev : Evolved h L g L := .of_frame (fun q hq => hins.frame q fun he => hq (he ▸ hins.mem))
        hins.avail_eq
      refine runs_pure ⟨L', ⟨hev.trans hg.toEvolved, hb', by rwa [hins.root_eq] at hh, fun ho m hm => ?_,
        fun hne => absurd rfl hne, fun hno => absurd rfl (hno v key)⟩, fun K hop hK c hc => ?_⟩
      swap
      · rcases (hins.cells c).mp ((hg.cells c).mp hc) with rfl | hc
        · exact hop
        · exact hK c hc
      have habs : (m key.rank).isSome = false := by
        rw [← Bool.not_eq_true, ← hm.hasKey_iff]
        exact hno ho
      simp only [TreeOp.onMap, habs, Bool.false_eq_true, if_false, true_and]
      refine hm.update (k := key) fun d => ?_
      rw [hg.cells, hins.cells]
      refine or_congr_right ⟨fun hd => ⟨hd, fun hr => hno ho ⟨d, hd, hr⟩⟩, And.left⟩
  | update v key =>
    refine runs_bind (runs_mono (runs_update hb hu hu' hkey (by omega)) ?_
      (fun _ hr => absurd hr id) fun _ hA => hA)
    rintro r h' (⟨rfl, hb', hroot, hav, hframe, hwritten, hord⟩ | ⟨rfl, rfl, hno⟩)
    · refine runs_pure ⟨L, ⟨.of_frame hframe hav, hb', by rw [hroot]; omega, fun ho m hm => ?_,
        fun hne => absurd rfl hne, fun _ => hroot⟩, fun K hop hK d hd => ?_⟩
      swap
      · rcases hwritten d hd with hd | ⟨c, hc, rfl⟩
        · exact hK d hd
        · exact hop c (hK c hc)
      obtain ⟨hyes, k', hk', hcells⟩ := hord ho
      change k'.rank = key.rank at hk'
      change ∀ d : Cell T, _ ↔ _ ∨ _ ∧ d.key.rank ≠ key.rank at hcells
      simp only [TreeOp.onMap, (hm.hasKey_iff key).mp hyes, if_true, true_and]
      rw [← hk'] at hcells ⊢
      exact hm.update hcells
    · refine runs_pure ⟨L, ⟨.of_frame (fun _ _ => rfl) rfl, hb, Nat.le_succ _, fun ho m hm => ?_, fun _ => rfl,
        fun _ => rfl⟩, fun K _ hK => hK⟩
      have habs : (m key.rank).isSome = false := by
        rw [← Bool.not_eq_true, ← hm.hasKey_iff]
        exact hno ho
      simpa [TreeOp.onMap, habs] using hm
  | search key =>
    refine runs_bind (runs_mono (runs_search hb (hb.sized.searchable hu hu') hkey (by omega)) ?_
      (fun _ hr => absurd hr id) fun _ hA => hA)
    rintro r h' ⟨rfl, hord⟩
    refine runs_pure ⟨L, ⟨.of_frame (fun _ _ => rfl) rfl, hb, Nat.le_succ _, fun ho m hm => ⟨?_, hm⟩,
      fun _ => rfl, fun _ => rfl⟩, fun K _ hK => hK⟩
    simp only [TreeOp.onMap, Reply.found.injEq]
    rcases hord ho with ⟨c, hc, hr, rfl⟩ | ⟨hno, rfl⟩
    · exact ((hm _ _).mpr ⟨c, hc, hr, rfl⟩).symm
    · rw [hm.hasKey_iff, Option.not_isSome_iff_eq_none] at hno
      exact hno.symm

theorem StepThrows.avail_ne_top {k : ℕ} {op : TreeOp T} {h' : Heap T}
    (ht : StepThrows o deg u k h L op h') : h.avail ≠ ⊤ := by
  obtain ⟨v, key, -, -, id, g, hins, -, hlt, -⟩ := ht
  rw [hins.avail_eq] at hlt
  exact hlt.ne_top

theorem Evolved.avail_top {h' : Heap T} {L' : Layout} (he : Evolved h L h' L')
    (htop : h.avail = ⊤) : h'.avail = ⊤ := by
  have := he.avail
  rw [htop, top_add] at this
  by_contra hne
  lift h'.avail to ℕ using hne with a
  exact absurd this.symm (by norm_cast)

structure RunPost (o : Prop) (deg u : ℕ) (h : Heap T) (L : Layout) (ops : List (TreeOp T))
    (rs : List (Reply T)) (h' : Heap T) (L' : Layout) : Prop where
  evolved : Evolved h L h' L'
  balanced : Balanced o deg u h' L' none
  height : L'.height h'.root ≤ L.height h.root + ops.length
  map : o → ∀ m, Represents h.nodes L m →
    rs = mapReplies ops m ∧ Represents h'.nodes L' (mapAfter ops m)

/-- A run of operations answers as the map does, and throws only if pages are limited. -/
theorem runs_runOps (hdeg : effectiveDegree deg = u) (hu : 2 ≤ u) {ops : List (TreeOp T)}
    (hkey : o → ∀ op ∈ ops, op.key.isNaN = false) {fuel : ℕ} (hb : Balanced o deg u h L none)
    (hfuel : L.height h.root + ops.length + 1 ≤ fuel) :
    Runs P s₀ (runOps P.toPagerOps deg fuel ops) h
      (fun rs h' => ∃ L', RunPost o deg u h L ops rs h' L') (fun _ => h.avail ≠ ⊤) A := by
  induction ops generalizing h L with
  | nil =>
    exact runs_pure ⟨L, .of_frame (fun _ _ => rfl) rfl, hb, le_rfl, fun _ _ hm => ⟨rfl, hm⟩⟩
  | cons op ops ih =>
    -- one call makes the tree higher by one level at most
    rw [List.length_cons] at hfuel
    refine runs_bind (runs_mono (runs_onTree hb hdeg hu (fun ho => hkey ho op (by simp))
      (by omega) le_rfl) ?_ (fun _ ht => ht.avail_ne_top) fun _ hA => hA)
    rintro r h' ⟨L', ⟨hev, hb', hh, hmap, -, -⟩, -⟩
    refine runs_bind (runs_mono (ih (fun ho op' hop' => hkey ho op' (by simp [hop'])) hb'
      (by omega)) ?_ (fun _ hne htop => hne (hev.avail_top htop)) fun _ hA => hA)
    rintro rs h'' ⟨L'', hpost⟩
    refine runs_pure ⟨L'', hev.trans hpost.evolved, hpost.balanced, ?_, fun ho m hm => ?_⟩
    · have := hpost.height
      rw [List.length_cons]
      omega
    · obtain ⟨hr, hm'⟩ := hmap ho m hm
      obtain ⟨hrs, hm''⟩ := hpost.map ho _ hm'
      exact ⟨by rw [mapReplies, hr, hrs], hm''⟩

def EmptyTree (P : LawfulPager σ T) (t : ℕ) (st : BtreeState σ) : Prop :=
  P.Ok st.pager ∧ ∃ par, P.view st.pager st.rootPageID = some (.new t par true true st.rootPageID)

def Layout.single (root : ℕ) : Layout := ⟨{root}, fun _ => 0, fun _ => ⊥, fun _ => ⊤⟩

theorem balanced_single {root par : ℕ} (hroot : h.root = root)
    (hn : h.nodes root = some (.new deg par true true root)) :
    Balanced o deg u h (.single root) none := by
  subst hroot
  have hord : Ordered (.single h.root) h.root (.new deg par true true h.root : BtreeNodePage T) := by
    constructor <;> simp [BtreeNodePage.new, keyBounds, Layout.single]
  have hlink : LinkOk deg h.nodes h.root (.single h.root) h.root
      (.new deg par true true h.root : BtreeNodePage T) := by
    constructor <;> simp [BtreeNodePage.new, Layout.single]
  have hlinked : Linked deg h.nodes h.root (.single h.root) := by
    refine ⟨by simp [Layout.single], by simp [Layout.single], fun p hp => ?_⟩
    obtain rfl : p = h.root := by simpa [Layout.single] using hp
    exact ⟨_, hn, hlink⟩
  have hall : ∀ p ∈ (Layout.single h.root).pages, ∀ n, h.nodes p = some n →
      p = h.root ∧ n = .new deg par true true h.root := by
    intro p hp n hn'
    obtain rfl : p = h.root := by simpa [Layout.single] using hp
    exact ⟨rfl, Option.some.inj (hn'.symm.trans hn)⟩
  refine ⟨hlinked, ⟨⟨?_, ?_, ?_⟩, ?_⟩, fun _ => ⟨hlinked, rfl, rfl, ?_⟩⟩
  · exact fun p hp hr n hn' => absurd (hall p hp n hn').1 hr
  · intro p hp n hn'
    rw [(hall p hp n hn').2]
    simp [BtreeNodePage.new]
  · intro p hp n hn' hl
    rw [(hall p hp n hn').2] at hl
    simp [BtreeNodePage.new] at hl
  · intro n hn' hl
    rw [(hall _ hlinked.root_mem n hn').2] at hl
    simp [BtreeNodePage.new] at hl
  · intro p hp n hn'
    obtain ⟨rfl, rfl⟩ := hall p hp n hn'
    exact hord

theorem represents_single {root par : ℕ} {nodes : ℕ → Option (BtreeNodePage T)}
    (hn : nodes root = some (.new deg par true true root)) :
    Represents nodes (.single root) fun _ => none := by
  intro r v
  refine iff_of_false (by simp) ?_
  rintro ⟨c, ⟨p, hp, n, hn', hc⟩, -⟩
  obtain rfl : p = root := by simpa [Layout.single] using hp
  rw [← Option.some.inj (hn.symm.trans hn')] at hc
  simp [BtreeNodePage.new] at hc

end Step
end Kndb.Btree
