import Kndb.MemCache
import Kndb.Btree.OutOfPages
import Kndb.Btree.Shape
import Kndb.Pager.Run
import Kndb.Table.Invariant

namespace Kndb.Table

open Imp Imp.Prog Btree LawfulCache Pager

variable {σ : Type} {C : LawfulCache σ} {m m₁ : Mem} {N root' : ℕ} {st st' : TableState σ} {t : Table}
variable {types : Tuple} {L L' : Layout} {M : Rank → Option Tuple} {op : TupleOp} {fuel : ℕ}
variable {r : Reply Tuple}

theorem TableOk.refused (ok : C.Ok st.pager) (hinv : Inv (C.mem st.pager) N)
    (h : TableOk (C.mem st.pager) st.table types L M) {e : Exn} (herr : op.error types = some e) (fuel : ℕ) :
    ∃ s', C.Ok s' ∧ C.mem s' = C.mem st.pager ∧ op.run C.toCacheOps fuel st = .throw e { st with pager := s' } := by
  obtain ⟨s', ok', hm, hrun⟩ := op.run_eq st ok hinv h.page h.types_ne fuel
  rw [show op.error (pageOf st.table types M).types = some e from herr] at hrun
  exact ⟨s', ok', hm, hrun⟩

theorem TableOk.advance (h : TableOk m t types L M) (hinv₁ : Inv m₁ N) (hf : Frame m m₁)
    (herr : op.error types = none) (hkey : op.key.isNaN = false)
    (hpost : StepPost True t.degree (effectiveDegree t.degree) (treeAt m t.rootPageID) L op.treeOp r
      (treeAt m₁ root') L') :
    r = (op.treeOp.onMap M).1 ∧
      Advance m (m₁.set t.tablePageID (.table (pageOf { t with rootPageID := root' } types (op.treeOp.onMap M).2)))
        t { t with rootPageID := root' } types L L' (op.treeOp.onMap M).2 := by
  have hp₁ := h.page.frame hf
  obtain ⟨hinv₂, hlive₂, hat₂, hp₂⟩ :=
    hp₁.set hinv₁ (pageOf { t with rootPageID := root' } types (op.treeOp.onMap M).2)
  obtain ⟨hr, hrep⟩ := hpost.map trivial M h.represents
  have hnode : ∀ x ∈ L'.pages, ∃ n, nodeAt m₁ x = some n := fun x hx => by
    obtain ⟨n, hn, -⟩ := (hpost.balanced.tree trivial).node x hx
    exact ⟨n, hn⟩
  have hfresh : ∀ x ∈ L'.pages, x ∉ L.pages → x ∉ liveIds m := fun x hx hnot =>
    fresh_of_evolved hpost.evolved hf hnode hx hnot
  refine ⟨hr, ⟨N, hinv₂⟩, ⟨hp₂, h.types_ne, h.degree, ?_, ?_, ?_⟩, rfl, ?_, hpost.evolved.pages, hfresh,
    fun x hx hnot hxid => ?_, hpost.height⟩
  · rw [treeAt, hat₂, remaining, hlive₂]
    exact hpost.balanced
  · rw [hat₂]
    exact hrep
  · exact op.rows_onMap herr h.types_ne hkey h.rows
  · rw [hlive₂]
    exact hf.live
  · rw [Mem.set_of_ne hxid]
    exact view_of_evolved hpost.evolved hf hx fun hmem => hfresh x hmem hnot hx

/-- The number of keys grows with each row that is inserted, below the bound of the counter. -/
theorem recorded_pageOf (hfin : (keys M).Finite) (hlt : (keys (op.treeOp.onMap M).2).ncard < 2 ^ 64)
    (hins : op.inserted (op.treeOp.onMap M).1 = true) :
    recorded (pageOf t types M) t.rootPageID root' =
      pageOf { t with rootPageID := root' } types (op.treeOp.onMap M).2 := by
  have hcard := op.ncard_keys_onMap hfin
  rw [if_pos hins] at hcard
  have hmod : ((keys M).ncard + 1) % 2 ^ 64 = (keys (op.treeOp.onMap M).2).ncard := by
    rw [← hcard, Nat.mod_eq_of_lt hlt]
  rw [recorded, pageOf, TablePage.addTuple, hmod]
  split_ifs with hroot
  · rfl
  · rw [not_not.mp hroot]
    rfl

theorem TupleOp.eq_of_inserted (h : op.inserted r = true) : r = .changed true := by
  cases op with
  | insert values =>
    cases r with
    | changed b => exact congrArg Reply.changed h
    | found v => cases h
  | update values => cases h
  | read key => cases h

theorem root_eq_of_not_inserted {o : Prop} {deg u : ℕ} {h h' : Heap Tuple}
    (hpost : StepPost o deg u h L op.treeOp r h' L') (hins : op.inserted r = false) : h'.root = h.root := by
  cases op with
  | insert values =>
    refine congrArg Heap.root (hpost.same ?_)
    rintro rfl
    cases hins
  | update values => exact hpost.root nofun
  | read key => exact hpost.root nofun

theorem pageOf_eq_self {u : ℕ} {h h' : Heap Tuple} (hfin : (keys M).Finite)
    (hpost : StepPost True t.degree u h L op.treeOp r h' L') (hr : r = (op.treeOp.onMap M).1)
    (hins : op.inserted r = false) (hroot : h.root = t.rootPageID) (hroot' : h'.root = root') :
    pageOf { t with rootPageID := root' } types (op.treeOp.onMap M).2 = pageOf t types M := by
  have hcard := op.ncard_keys_onMap hfin
  rw [← hr, hins] at hcard
  rw [pageOf, pageOf, hcard, ← hroot', root_eq_of_not_inserted hpost hins, hroot]
  rfl

/-- There are pages for all the nodes that a call creates. -/
def PagesSuffice (m : Mem) (root : ℕ) (op : TupleOp) : Prop :=
  ∀ values, op = .insert values → ∀ f, insertNeeds (nodeAt m) root (values.headD (.int 0)) f ≤ remaining m

theorem pagesSuffice_of_ne {root : ℕ} (hop : ∀ values, op ≠ .insert values) : PagesSuffice m root op :=
  fun values heq => absurd heq (hop values)

theorem pagesSuffice_new {deg par root : ℕ} (hdeg : 2 ≤ effectiveDegree deg)
    (hroot : nodeAt m root = some (.new deg par true true root)) (op : TupleOp) : PagesSuffice m root op := by
  intro values _ f
  have hmax : 1 < (BtreeNodePage.new deg par true true root : BtreeNodePage Tuple).maxKeys := by
    rw [maxKeys_eq, show (BtreeNodePage.new deg par true true root : BtreeNodePage Tuple).degree = deg from rfl]
    omega
  cases f with
  | zero => exact zero_le
  | succ f =>
    have hpath : leafOf (nodeAt m) (values.headD (.int 0)) (f + 1) root = some root := by
      rw [leafOf, hroot]
      rfl
    rw [insertNeeds, hpath, Option.elim_some, splitsNeeded, hroot, Option.elim_some]
    exact (if_pos hmax).trans_le zero_le

/-- A call on the tree throws only where the pages do not suffice and the key is new. -/
theorem not_pagesSuffice {o : Prop} {deg u k root : ℕ} {h' : Heap Tuple}
    (hthrow : StepThrows o deg u k (treeAt m root) L op.treeOp h') :
    ¬PagesSuffice m root op ∧ (o → ¬HasKey (nodeAt m) L op.key) := by
  obtain ⟨v, key, hop, hno, id, g, hins, hneeds, hlt, -⟩ := hthrow
  rw [← hneeds, hins.avail_eq] at hlt
  cases op with
  | insert values =>
    cases hop
    exact ⟨fun hpages => absurd (hpages v rfl (k + 1)) (not_le.mpr hlt), hno⟩
  | update values => cases hop
  | read key => cases hop

/-- The call on the tree returns, or no page is left.  This does not depend on the order of the keys. -/
theorem onTree_of_balanced {o : Prop} {s : σ} {deg root : ℕ} (op : TupleOp) (ok : C.Ok s) (hinv : Inv (C.mem s) N)
    (hb : Balanced o deg (effectiveDegree deg) (treeAt (C.mem s) root) L none) (hu : 2 ≤ effectiveDegree deg)
    (hkey : o → op.key.isNaN = false) (hfuel : L.height root + 2 ≤ fuel) :
    (∃ r b, op.treeOp.onTree (nodeOps C.toCacheOps) deg fuel ⟨s, root⟩ = .ok r b ∧ C.Ok b.pager ∧
        (∃ N, Inv (C.mem b.pager) N) ∧ Frame (C.mem s) (C.mem b.pager) ∧
        (Tidy (C.mem s) → Tidy (C.mem b.pager)) ∧ ∃ L', StepPost o deg (effectiveDegree deg) (treeAt (C.mem s) root) L
            op.treeOp r (treeAt (C.mem b.pager) b.rootPageID) L' ∧
          KeepsCells (nodeAt (C.mem s)) L op.treeOp (nodeAt (C.mem b.pager)) L') ∨
      (¬PagesSuffice (C.mem s) root op ∧ (o → ¬HasKey (nodeAt (C.mem s)) L op.key)) ∧
        ∃ b, op.treeOp.onTree (nodeOps C.toCacheOps) deg fuel ⟨s, root⟩ = .throw sizeLimit b := by
  have hruns : Runs (tidyPager C) (⟨s, root⟩ : BtreeState σ).pager
      (op.treeOp.onTree (nodeOps C.toCacheOps) deg fuel) (heap (tidyPager C) ⟨s, root⟩) _ _ fun _ => False :=
    runs_onTree hb rfl hu (fun ho => by rw [TupleOp.key_treeOp]; exact hkey ho) hfuel
      (Nat.le_of_add_right_le hfuel)
  have ok' : (tidyPager C).Ok (⟨s, root⟩ : BtreeState σ).pager := ⟨ok, N, hinv⟩
  rcases ok_or_throw_of_wp (Runs.start_full ok' hruns) with
    ⟨r, b, hb, ⟨ok', hinv'⟩, ⟨hf, ht⟩, L', hpost⟩ | ⟨e, b, hb, rfl, -, -, hthrow⟩
  · exact .inl ⟨r, b, hb, ok', hinv', hf, ht, L', hpost⟩
  · exact .inr ⟨not_pagesSuffice hthrow, b, hb⟩

/-- A call on the tree returns only where the pages suffice. -/
theorem pagesSuffice_of_onTree {o : Prop} {s : σ} {deg root : ℕ} {b : BtreeState σ} (ok : C.Ok s)
    (hinv : Inv (C.mem s) N) (hb : Balanced o deg (effectiveDegree deg) (treeAt (C.mem s) root) L none)
    (hu : 2 ≤ effectiveDegree deg) (hkey : o → op.key.isNaN = false)
    (hret : op.treeOp.onTree (nodeOps C.toCacheOps) deg fuel ⟨s, root⟩ = .ok r b) : PagesSuffice (C.mem s) root op := by
  rintro values rfl f
  obtain ⟨changed, hinsert, -⟩ := ok_of_map hret
  have hb' : Balanced o deg (effectiveDegree deg) (heap (tidyPager C) (⟨s, root⟩ : BtreeState σ)) L none := hb
  exact hb'.insertNeeds_le_avail rfl hu ⟨ok, N, hinv⟩ hkey hinsert f

theorem TableOk.onTree {o : Prop} {s : σ} (ok : C.Ok s) (hinv : Inv (C.mem s) N)
    (h : TableOk (C.mem s) t types L M) (hdeg : 2 ≤ effectiveDegree (tableDegree types))
    (hkey : o → op.key.isNaN = false) (hfuel : L.height t.rootPageID + 2 ≤ fuel) :
    (∃ r b, op.treeOp.onTree (nodeOps C.toCacheOps) t.degree fuel ⟨s, t.rootPageID⟩ = .ok r b ∧ C.Ok b.pager ∧
        (∃ N, Inv (C.mem b.pager) N) ∧ Frame (C.mem s) (C.mem b.pager) ∧
        (Tidy (C.mem s) → Tidy (C.mem b.pager)) ∧ ∃ L', StepPost o t.degree (effectiveDegree t.degree)
            (treeAt (C.mem s) t.rootPageID) L op.treeOp r (treeAt (C.mem b.pager) b.rootPageID) L') ∨
      (¬PagesSuffice (C.mem s) t.rootPageID op ∧ (o → M op.key.rank = none)) ∧
        ∃ b, op.treeOp.onTree (nodeOps C.toCacheOps) t.degree fuel ⟨s, t.rootPageID⟩ = .throw sizeLimit b := by
  have hu : 2 ≤ effectiveDegree t.degree := by rwa [h.degree]
  have hb : Balanced o t.degree (effectiveDegree t.degree) (treeAt (C.mem s) t.rootPageID) L none :=
    ⟨h.balanced.linked, h.balanced.sized, fun _ => h.tree⟩
  rcases onTree_of_balanced op ok hinv hb hu hkey hfuel with
    ⟨r, b, hb, ok', hinv', hf, ht, L', hpost, -⟩ | ⟨⟨hpages, hno⟩, b, hb⟩
  · exact .inl ⟨r, b, hb, ok', hinv', hf, ht, L', hpost⟩
  · refine .inr ⟨⟨hpages, fun ho => ?_⟩, b, hb⟩
    rw [← Option.not_isSome_iff_eq_none, ← h.represents.hasKey_iff]
    exact hno ho

/-- A call answers as the map does and leaves the table of the new map behind, unless pages have run
out.  Only the calls that answer true change anything. -/
def Responds (C : LawfulCache σ) (types : Tuple) (L : Layout) (M : Rank → Option Tuple) (op : TupleOp) (fuel : ℕ)
    (st : TableState σ) : Prop :=
  (∃ st' L', op.run C.toCacheOps fuel st = .answer (op.onRows types M).1 st' ∧ C.Ok st'.pager ∧
      Advance (C.mem st.pager) (C.mem st'.pager) st.table st'.table types L L' (op.onRows types M).2 ∧
      ((op.onRows types M).1 ≠ .ok (.changed true) → C.mem st'.pager = C.mem st.pager ∧ st'.table = st.table)) ∨
    (op.error types = none ∧ ¬PagesSuffice (C.mem st.pager) st.table.rootPageID op ∧ M op.key.rank = none) ∧
      ∃ st', op.run C.toCacheOps fuel st = .throw sizeLimit st'

/-- Besides, the pages that a call takes are those of the tree. -/
def RespondsWithin (C : LawfulCache σ) (types : Tuple) (L : Layout) (M : Rank → Option Tuple) (op : TupleOp)
    (fuel : ℕ) (st : TableState σ) : Prop :=
  (∃ st' L', op.run C.toCacheOps fuel st = .answer (op.onRows types M).1 st' ∧ C.Ok st'.pager ∧
      Advance (C.mem st.pager) (C.mem st'.pager) st.table st'.table types L L' (op.onRows types M).2 ∧
      Confined (C.mem st.pager) (C.mem st'.pager) L' ∧
      ((op.onRows types M).1 ≠ .ok (.changed true) → C.mem st'.pager = C.mem st.pager ∧ st'.table = st.table)) ∨
    (op.error types = none ∧ ¬PagesSuffice (C.mem st.pager) st.table.rootPageID op ∧ M op.key.rank = none) ∧
      ∃ st', op.run C.toCacheOps fuel st = .throw sizeLimit st'

theorem RespondsWithin.responds (h : RespondsWithin C types L M op fuel st) : Responds C types L M op fuel st :=
  h.imp_left fun ⟨st', L', hrun, ok', hadv, _, hsame⟩ => ⟨st', L', hrun, ok', hadv, hsame⟩

theorem TableOk.run_within (ok : C.Ok st.pager) (hinv : Inv (C.mem st.pager) N)
    (h : TableOk (C.mem st.pager) st.table types L M) (hdeg : 2 ≤ effectiveDegree (tableDegree types))
    (hkey : op.key.isNaN = false) (hfuel : L.height st.table.rootPageID + 2 ≤ fuel) :
    RespondsWithin C types L M op fuel st := by
  obtain ⟨s₁, ok₁, hm₁, hrun⟩ := op.run_eq st ok hinv h.page h.types_ne fuel
  cases herr : op.error types with
  | some e =>
    left
    rw [show op.error (pageOf st.table types M).types = some e from herr] at hrun
    refine ⟨{ st with pager := s₁ }, L, ?_, ok₁, ?_, hm₁ ▸ .refl _ L, fun _ => ⟨hm₁, rfl⟩⟩
    · rw [hrun, TupleOp.onRows, herr]
      rfl
    · rw [hm₁, TupleOp.onRows, herr]
      exact h.advance_refl hinv
  | none =>
    rw [show op.error (pageOf st.table types M).types = none from herr] at hrun
    rw [RespondsWithin, hrun, TupleOp.onRows, herr]
    rcases (hm₁ ▸ h : TableOk (C.mem s₁) st.table types L M).onTree ok₁ (hm₁ ▸ hinv) hdeg
        (fun _ : True => hkey) hfuel with
      ⟨r, b, hb, ok', ⟨N', hinv'⟩, hf, ht, L', hpost⟩ | ⟨⟨hpages, hno⟩, b, hb⟩
    · left
      rw [hm₁] at hf hpost ht
      obtain ⟨hr, hadv⟩ := h.advance hinv' hf herr hkey hpost
      have hconf := confined_of_evolved hpost.evolved hf ht
      by_cases hins : op.inserted r = true
      · obtain ⟨s₂, ok₂, hm₂, hrec⟩ := recordInsert_eq (TupleOp.afterTree ⟨s₁, st.table⟩ b) ok' hinv'
          (h.page.frame hf) st.table.rootPageID
        obtain ⟨N₂, hinv₂⟩ := hadv.inv
        rw [recorded_pageOf (finite_keys h.tree h.represents) (hadv.table.ncard_lt hinv₂) (hr ▸ hins)] at hm₂
        refine ⟨⟨s₂, { st.table with rootPageID := b.rootPageID }⟩, L', ?_, ok₂, ?_, ?_, fun hne => ?_⟩
        · rw [← hr]
          exact TupleOp.body_of_inserted ⟨s₁, st.table⟩ hb hins hrec
        · exact hm₂ ▸ hadv
        · exact hm₂ ▸ hconf.setTable hinv' (h.page.frame hf) _
        · exact absurd (congrArg Except.ok (hr.symm.trans (TupleOp.eq_of_inserted hins))) hne
      · rw [Bool.not_eq_true] at hins
        have hpage : pageOf { st.table with rootPageID := b.rootPageID } types (op.treeOp.onMap M).2 =
            pageOf st.table types M :=
          pageOf_eq_self (finite_keys h.tree h.represents) hpost hr hins rfl rfl
        rw [hpage, Mem.set_eq_self (h.page.frame hf).2] at hadv
        refine ⟨TupleOp.afterTree ⟨s₁, st.table⟩ b, L', ?_, ok', hadv, hconf, fun hne => ?_⟩
        · rw [← hr]
          exact TupleOp.body_of_not_inserted ⟨s₁, st.table⟩ hb hins
        · have hsame := hpost.same fun heq => hne (congrArg Except.ok (hr.symm.trans heq))
          obtain ⟨hmem, hroot⟩ := mem_eq_of_treeAt_eq hinv hinv' hsame hf
          refine ⟨hmem, ?_⟩
          rw [TupleOp.afterTree, hroot]
    · right
      exact ⟨⟨rfl, hm₁ ▸ hpages, hno trivial⟩, _, TupleOp.body_of_throw ⟨s₁, st.table⟩ hb⟩

theorem TableOk.run (ok : C.Ok st.pager) (hinv : Inv (C.mem st.pager) N)
    (h : TableOk (C.mem st.pager) st.table types L M) (hdeg : 2 ≤ effectiveDegree (tableDegree types))
    (hkey : op.key.isNaN = false) (hfuel : L.height st.table.rootPageID + 2 ≤ fuel) :
    Responds C types L M op fuel st := (h.run_within ok hinv hdeg hkey hfuel).responds

theorem TableOk.run_within_of_ended (ok : C.Ok st.pager) (hinv : Inv (C.mem st.pager) N)
    (h : TableOk (C.mem st.pager) st.table types L M) (hdeg : 2 ≤ effectiveDegree (tableDegree types))
    (hkey : op.key.isNaN = false) (hne : op.run C.toCacheOps fuel st ≠ .timeout) :
    RespondsWithin C types L M op fuel st := by
  have hmax := (op.run_approx C.toCacheOps (le_max_left fuel (L.height st.table.rootPageID + 2))).eq hne
  rw [RespondsWithin, ← hmax]
  exact h.run_within ok hinv hdeg hkey (le_max_right ..)

theorem TableOk.run_of_ended (ok : C.Ok st.pager) (hinv : Inv (C.mem st.pager) N)
    (h : TableOk (C.mem st.pager) st.table types L M) (hdeg : 2 ≤ effectiveDegree (tableDegree types))
    (hkey : op.key.isNaN = false) (hne : op.run C.toCacheOps fuel st ≠ .timeout) :
    Responds C types L M op fuel st := (h.run_within_of_ended ok hinv hdeg hkey hne).responds

theorem TableOk.throws_of_not_pagesSuffice (ok : C.Ok st.pager) (hinv : Inv (C.mem st.pager) N)
    (h : TableOk (C.mem st.pager) st.table types L M) (hdeg : 2 ≤ effectiveDegree (tableDegree types))
    (hkey : op.key.isNaN = false) (herr : op.error types = none)
    (hpages : ¬PagesSuffice (C.mem st.pager) st.table.rootPageID op)
    (hne : op.run C.toCacheOps fuel st ≠ .timeout) : ∃ st', op.run C.toCacheOps fuel st = .throw sizeLimit st' := by
  have hmax := (op.run_approx C.toCacheOps (le_max_left fuel (L.height st.table.rootPageID + 2))).eq hne
  rw [← hmax]
  obtain ⟨s₁, ok₁, hm₁, hrun⟩ := op.run_eq st ok hinv h.page h.types_ne (max fuel (L.height st.table.rootPageID + 2))
  rw [show op.error (pageOf st.table types M).types = none from herr] at hrun
  rw [hrun]
  rw [← hm₁] at h hinv hpages
  have hu : 2 ≤ effectiveDegree st.table.degree := by rwa [h.degree]
  rcases onTree_of_balanced op ok₁ hinv h.balanced hu (fun _ => hkey) (le_max_right ..) with
    ⟨r, b, hret, -⟩ | ⟨-, b, hthrow⟩
  · exact absurd (pagesSuffice_of_onTree ok₁ hinv h.balanced hu (fun _ => hkey) hret) hpages
  · exact ⟨_, TupleOp.body_of_throw ⟨s₁, st.table⟩ hthrow⟩

theorem TableOk.answered {x : Except Exn (Reply Tuple)} (ok : C.Ok st.pager) (hinv : Inv (C.mem st.pager) N)
    (h : TableOk (C.mem st.pager) st.table types L M) (hdeg : 2 ≤ effectiveDegree (tableDegree types))
    (hkey : op.key.isNaN = false) (hrun : op.run C.toCacheOps fuel st = .answer x st') (hne : x ≠ .error sizeLimit) :
    C.Ok st'.pager ∧ (∃ N, Inv (C.mem st'.pager) N) ∧ ∃ L M, TableOk (C.mem st'.pager) st'.table types L M := by
  have hended : op.run C.toCacheOps fuel st ≠ .timeout := hrun ▸ Outcome.answer_ne_timeout
  rcases h.run_of_ended ok hinv hdeg hkey hended with ⟨st₁, L', hs₁, ok', hadv, -⟩ | ⟨-, st₁, hs₁⟩
  · obtain ⟨-, rfl⟩ := Outcome.answer_inj (hrun.symm.trans hs₁)
    exact ⟨ok', hadv.inv, L', _, hadv.table⟩
  · exact absurd (Outcome.answer_inj (hrun.symm.trans (show _ = Outcome.answer (.error sizeLimit) st₁ from hs₁))).1 hne

/-- What a call answers, if it may recurse deep enough. -/
def Gives (C : LawfulCache σ) (st : TableState σ) (op : TupleOp) (x : Except Exn (Reply Tuple)) : Prop :=
  ∃ fuel st', op.run C.toCacheOps fuel st = .answer x st'

theorem Gives.unique {x y : Except Exn (Reply Tuple)} (hx : Gives C st op x) (hy : Gives C st op y) : x = y := by
  obtain ⟨f, s, hs⟩ := hx
  obtain ⟨g, s', hs'⟩ := hy
  have heq := eq_of_approx (fun _ _ hle => op.run_approx C.toCacheOps hle)
    (hs ▸ Outcome.answer_ne_timeout : op.run C.toCacheOps f st ≠ _)
    (hs' ▸ Outcome.answer_ne_timeout : op.run C.toCacheOps g st ≠ _)
  exact (Outcome.answer_inj ((hs.symm.trans heq).trans hs')).1

/-- The states of a run on a new table with the columns `types`. -/
inductive Run (C : LawfulCache σ) (types : Tuple) : TableState σ → Prop
  | create {s s' : σ} {live : Finset ℕ} {name : List Byte} {t : Table} : Pager.Run C s live →
      create C.toCacheOps name types s = .ok t s' → Run C types ⟨s', t⟩
  | returns {st st' : TableState σ} {op : TupleOp} {fuel : ℕ} {r : Reply Tuple} : Run C types st →
      op.key.isNaN = false → op.run C.toCacheOps fuel st = .ok r st' → Run C types st'
  | throws {st st' : TableState σ} {op : TupleOp} {fuel : ℕ} {e : Exn} : Run C types st →
      op.key.isNaN = false → op.run C.toCacheOps fuel st = .throw e st' → e ≠ sizeLimit → Run C types st'

theorem accepts_of_create {s s' : σ} {name : List Byte} (ok : C.Ok s) (hinv : Inv (C.mem s) N)
    (h : create C.toCacheOps name types s = .ok t s') : TablePage.Accepts types := by
  by_contra hacc
  have hargs : ¬PageArgs.Accepts (.table types PGID_INVALID) := hacc
  obtain ⟨page, s₁, hpage, -⟩ := ok_of_bind h
  rcases createNewPage_cases ok hinv (.table types PGID_INVALID) with
    ⟨-, s₂, hs₂, -⟩ | ⟨-, -, msg, hmsg⟩ | ⟨hfull, -⟩
  · rw [hpage] at hs₂
    cases hs₂
  · rw [hpage] at hmsg
    cases hmsg
  · obtain ⟨msg, hmsg⟩ := aborts_createNewPage (C := C) hinv hargs hfull ok rfl
    rw [hpage] at hmsg
    cases hmsg

theorem created_of_create {s s' : σ} {live : Finset ℕ} {name : List Byte} (hrun : Pager.Run C s live)
    (hcreate : create C.toCacheOps name types s = .ok t s') :
    C.Ok s' ∧ types ≠ [] ∧ Created (C.mem s) (C.mem s') types t := by
  obtain ⟨ok, -, N, hinv⟩ := hrun.inv
  have hacc := accepts_of_create ok hinv hcreate
  rcases create_cases name ok hinv hacc with ⟨-, s₂, hs₂, -⟩ | ⟨-, id, s₂, hs₂, -⟩ | ⟨-, t', s₂, hs₂, ok', -, -, hnew⟩
  · rw [hcreate] at hs₂
    cases hs₂
  · rw [hcreate] at hs₂
    cases hs₂
  · rw [hcreate] at hs₂
    cases hs₂
    exact ⟨ok', hacc.1, hnew⟩

theorem remaining_empty : remaining (Mem.cache.mem ⟨fun _ => none, 0⟩) = 65342 := by
  rw [remaining, run_empty.inv.2.1]
  rfl

theorem exists_create {s : σ} {live : Finset ℕ} (hrun : Pager.Run C s live) (hrem : 2 ≤ remaining (C.mem s))
    (hacc : TablePage.Accepts types) : ∃ t s', create C.toCacheOps [] types s = .ok t s' ∧ C.Ok s' ∧
      Created (C.mem s) (C.mem s') types t := by
  obtain ⟨ok, -, N, hinv⟩ := hrun.inv
  rcases create_cases [] ok hinv hacc with ⟨h, -⟩ | ⟨h, -⟩ | ⟨-, t, s', hcreate, ok', -, -, hnew⟩
  · omega
  · omega
  · exact ⟨t, s', hcreate, ok', hnew⟩

theorem Run.tableOk (h : Run C types st) (hdeg : 2 ≤ effectiveDegree (tableDegree types)) :
    C.Ok st.pager ∧ (∃ N, Inv (C.mem st.pager) N) ∧ ∃ L M, TableOk (C.mem st.pager) st.table types L M := by
  induction h with
  | @create s s' live name t hrun hcreate =>
    obtain ⟨ok, hne, hnew⟩ := created_of_create hrun hcreate
    exact ⟨ok, hnew.inv, _, _, hnew.tableOk hne⟩
  | @returns st st' op fuel r _ hkey hrun ih =>
    obtain ⟨ok, ⟨N, hinv⟩, L, M, htable⟩ := ih
    exact htable.answered (x := .ok r) ok hinv hdeg hkey hrun nofun
  | @throws st st' op fuel e _ hkey hrun hne ih =>
    obtain ⟨ok, ⟨N, hinv⟩, L, M, htable⟩ := ih
    exact htable.answered (x := .error e) ok hinv hdeg hkey hrun fun heq => hne (Except.error.inj heq)

theorem exists_insert_first {s : σ} (values : Tuple) (ok : C.Ok s) (h : Created m (C.mem s) types t) (hne : types ≠ [])
    (hdeg : 2 ≤ effectiveDegree (tableDegree types)) (herr : tupleError types values = none)
    (hkey : (values.headD (.int 0)).isNaN = false) :
    ∃ st', TupleOp.run C.toCacheOps 2 (.insert values) ⟨s, t⟩ = .ok (.changed true) st' := by
  obtain ⟨N, hinv⟩ := h.inv
  have ok₀ : C.Ok (⟨s, t⟩ : TableState σ).pager := ok
  have herr' : TupleOp.error types (.insert values) = none := herr
  have hkey' : (TupleOp.insert values).key.isNaN = false := hkey
  rcases (h.tableOk hne).run ok₀ hinv hdeg hkey' (le_refl 2) with
    ⟨st', L', hrun, -⟩ | ⟨⟨-, hpages, -⟩, -⟩
  · rw [TupleOp.onRows_of_none herr'] at hrun
    exact ⟨st', hrun⟩
  · refine absurd (pagesSuffice_new ?_ h.root _) hpages
    rwa [h.degree]

/-- What is stored about a table, whose leaves are `d` levels below the root, agrees: the number of
tuples on the table page is the number of keys in the tree, whose root is the one on the page, and the
rows have the types of the table. -/
structure Consistent (C : LawfulCache σ) (types : Tuple) (st : TableState σ) (d : ℕ) : Prop where
  leaves : LeavesAt (nodeAt (C.mem st.pager)) d st.table.rootPageID
  ascends : Ascends (nodeAt (C.mem st.pager)) st.table.rootPageID d
  page : ∃ p, C.view st.pager st.table.tablePageID = some (.table p) ∧ p.types = types ∧
    p.btreePageID = st.table.rootPageID ∧
    p.numTuples = (inorder (nodeAt (C.mem st.pager)) d st.table.rootPageID).length
  rows : ∀ c ∈ inorder (nodeAt (C.mem st.pager)) d st.table.rootPageID,
    ∃ key columns, c.value = key :: columns ∧ c.key.eq key = true ∧ sameTypes c.value types = true
  /-- A call ends if it may recurse as deep as the tree, and changes something only if it answers true, or if
  the pages do not suffice for a new key. -/
  calls : ∀ op : TupleOp, op.key.isNaN = false → ∀ fuel, d + 2 ≤ fuel →
    (∃ r st', op.run C.toCacheOps fuel st = .ok r st' ∧
      (r ≠ .changed true → C.mem st'.pager = C.mem st.pager ∧ st'.table = st.table)) ∨
    (∃ e st', op.run C.toCacheOps fuel st = .throw e st' ∧ (e = badCount ∨ e = badTypes ∨ e = badKey) ∧
      C.mem st'.pager = C.mem st.pager ∧ st'.table = st.table) ∨
    (op.error types = none ∧ ¬PagesSuffice (C.mem st.pager) st.table.rootPageID op ∧
      (∀ c ∈ inorder (nodeAt (C.mem st.pager)) d st.table.rootPageID, c.key.eq op.key = false)) ∧
      ∃ st', op.run C.toCacheOps fuel st = .throw sizeLimit st'

theorem TupleOp.error_cases {e : Exn} (h : op.error types = some e) :
    e = badCount ∨ e = badTypes ∨ e = badKey := by
  have htuple : ∀ values, tupleError types values = some e → e = badCount ∨ e = badTypes := by
    intro values herr
    rw [tupleError] at herr
    split_ifs at herr
    · exact .inl (Option.some.inj herr).symm
    · exact .inr (Option.some.inj herr).symm
  cases op with
  | insert values => exact (htuple values h).imp_right .inl
  | update values => exact (htuple values h).imp_right .inl
  | read key =>
    right
    right
    cases types with
    | nil => exact (Option.some.inj h).symm
    | cons type types =>
      rw [error, keyError] at h
      split_ifs at h
      exact (Option.some.inj h).symm

theorem TableOk.consistent (ok : C.Ok st.pager) (hinv : Inv (C.mem st.pager) N)
    (h : TableOk (C.mem st.pager) st.table types L M) (hdeg : 2 ≤ tableDegree types) :
    Consistent C types st (L.height st.table.rootPageID) where
  leaves := h.tree.leavesAt h.tree.root_mem rfl
  ascends := h.tree.ascends
  page := ⟨_, h.page.2, rfl, rfl, ncard_keys h.tree h.represents⟩
  rows c hc := by
    have hcell := (h.tree.mem_inorder_root c).mp hc
    have hrow := (h.represents c.key.rank c.value).mpr ⟨c, hcell, rfl, rfl⟩
    obtain ⟨htypes, key, columns, hvalue, hrank, hnan⟩ := h.rows _ _ hrow
    obtain ⟨p, hp, n, hn, hmem⟩ := hcell
    have hkey := (h.tree.ordered p hp n hn).keys c hmem
    exact ⟨key, columns, hvalue, (Vari.eq_iff hkey hnan).mpr hrank.symm, htypes⟩
  calls op hkey fuel hfuel := by
    rcases h.run ok hinv (effectiveDegree_tableDegree_ge hdeg) hkey hfuel with
      ⟨st', L', hrun, -, -, hsame⟩ | ⟨⟨herr, hpages, hnone⟩, st', hrun⟩
    · cases herr : op.error types with
      | none =>
        rw [TupleOp.onRows, herr] at hrun hsame
        exact .inl ⟨_, st', hrun, fun hne => hsame fun heq => hne (Except.ok.inj heq)⟩
      | some e =>
        rw [TupleOp.onRows, herr] at hrun hsame
        refine .inr (.inl ⟨e, st', hrun, TupleOp.error_cases herr, hsame fun heq => ?_⟩)
        cases heq
    · refine .inr (.inr ⟨⟨herr, hpages, fun c hc => ?_⟩, st', hrun⟩)
      have hcell := (h.tree.mem_inorder_root c).mp hc
      have hrow := (h.represents c.key.rank c.value).mpr ⟨c, hcell, rfl, rfl⟩
      obtain ⟨p, hp, n, hn, hmem⟩ := hcell
      rw [← Bool.not_eq_true, Vari.eq_iff ((h.tree.ordered p hp n hn).keys c hmem) hkey]
      intro hr
      rw [hr, hnone] at hrow
      cases hrow

/-- After every run what is stored about the table agrees, and a call that throws or answers false
has changed nothing. -/
theorem consistent_of_run (h : Run C types st) (hdeg : 2 ≤ tableDegree types) : ∃ d, Consistent C types st d := by
  obtain ⟨ok, ⟨N, hinv⟩, L, M, htable⟩ := h.tableOk (effectiveDegree_tableDegree_ge hdeg)
  exact ⟨_, htable.consistent ok hinv hdeg⟩

/-- A table of one column in an empty file, before and after the first row. -/
theorem consistent_int : ∃ t m st', create Mem.cache.toCacheOps [] [.int 0] ⟨fun _ => none, 0⟩ = .ok t m ∧
    TupleOp.run Mem.cache.toCacheOps 2 (.insert [.int 5]) ⟨m, t⟩ = .ok (.changed true) st' ∧
    (∃ d, Consistent Mem.cache [.int 0] ⟨m, t⟩ d) ∧ ∃ d, Consistent Mem.cache [.int 0] st' d := by
  have hdeg : 2 ≤ tableDegree [.int 0] := by decide
  obtain ⟨t, m, hcreate, ok, hnew⟩ := exists_create run_empty (by rw [remaining_empty]; decide)
    (show TablePage.Accepts [.int 0] from ⟨by simp, by decide⟩)
  obtain ⟨st', hrun⟩ := exists_insert_first [.int 5] ok hnew (by simp) (by decide) (by decide) rfl
  have htable := Run.create run_empty hcreate
  exact ⟨t, m, st', hcreate, hrun, consistent_of_run htable hdeg, consistent_of_run (htable.returns rfl hrun) hdeg⟩

end Kndb.Table
