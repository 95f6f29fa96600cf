import Kndb.PageCache.Refines

namespace Kndb.PageCache

open Imp Imp.Prog

variable {P B : Type} {F : PageFormat P B} {Good : P → Prop}
variable {s s' : PageCache P B} {id page : ℕ} {p : P} {M : ℕ → Option P}

/-- Runs on a file with the contents `blocks`, and what the map holds: the pages that have been
inserted, changed or retrieved. -/
inductive MapRun (F : PageFormat P B) (Good : P → Prop) (capacity : ℕ) (blocks : ℕ → B) :
    PageCache P B → (ℕ → Option P) → Prop
  | start (numBlocks : ℕ) (objects : ℕ → P) (junk : ℕ → Junk) :
      MapRun F Good capacity blocks (new capacity numBlocks blocks objects junk) fun _ => none
  | insert {s s' : PageCache P B} {M : ℕ → Option P} {p : P} : MapRun F Good capacity blocks s M →
      Good p → F.pageID p < s.numBlocks → insertPage F none p s = .ok () s' →
      MapRun F Good capacity blocks s' (Function.update M (F.pageID p) (some p))
  | retrieve {s s' : PageCache P B} {M : ℕ → Option P} {id page : ℕ} {p : P} :
      MapRun F Good capacity blocks s M → M id = some p →
      retrievePage F none (F.type p) id s = .ok page s' → MapRun F Good capacity blocks s' M
  /-- A page that is retrieved first is what can be constructed from its block. -/
  | read {s s' : PageCache P B} {M : ℕ → Option P} {T : PageType} {id page : ℕ} {p : P} :
      MapRun F Good capacity blocks s M → M id = none → id < s.numBlocks → Good p →
      F.ofBytes (s.junk s.uses) T id (blocks id) = some p → retrievePage F none T id s = .ok page s' →
      MapRun F Good capacity blocks s' (Function.update M id (some p))
  | write {s s' : PageCache P B} {M : ℕ → Option P} {id page : ℕ} : MapRun F Good capacity blocks s M →
      Cached F s id page → writePage F none id s = .ok () s' → MapRun F Good capacity blocks s' M
  | change {s : PageCache P B} {M : ℕ → Option P} {id page : ℕ} {p : P} :
      MapRun F Good capacity blocks s M → Cached F s id page → Good p → F.pageID p = id →
      MapRun F Good capacity blocks (store page p s) (Function.update M id (some p))

structure MapOk (F : PageFormat P B) (Good : P → Prop) (blocks : ℕ → B) (s : PageCache P B)
    (M : ℕ → Option P) : Prop where
  insert : ∀ p, Good p → F.pageID p < s.numBlocks → ∃ s', insertPage F none p s = .ok () s'
  retrieve : ∀ id p, M id = some p → ∃ page s', retrievePage F none (F.type p) id s = .ok page s' ∧
    s'.objects page = p ∧ Cached F s' id page
  read : ∀ T id p, M id = none → id < s.numBlocks → Good p →
    F.ofBytes (s.junk s.uses) T id (blocks id) = some p →
    ∃ page s', retrievePage F none T id s = .ok page s' ∧ s'.objects page = p ∧ Cached F s' id page
  write : ∀ id page, Cached F s id page → ∃ s', writePage F none id s = .ok () s'
  flush : ∀ order : List ℕ, order.Nodup → (∀ id, id ∈ order ↔ (s.map id).isSome = true) →
    ∃ s', flush F order s = .ok () s' ∧ (∀ id, M id = none → s'.blocks id = blocks id) ∧
      ∀ id p, M id = some p → (∃ J, F.toBytes J p = some (s'.blocks id)) ∧
        ∀ J, F.ofBytes J (F.type p) id (s'.blocks id) = some p

structure Mapped (F : PageFormat P B) (Good : P → Prop) (blocks : ℕ → B) (s : PageCache P B)
    (es : List Entry) (M : ℕ → Option P) : Prop extends Refines F Good Eq s es M where
  untouched : ∀ id, M id = none → s.blocks id = blocks id

variable {blocks : ℕ → B} {es : List Entry}

theorem Mapped.not_cached (h : Mapped F Good blocks s es M) (hid : M id = none) : id ∉ ids F s es := by
  intro hin
  obtain ⟨e, he, rfl⟩ := mem_ids.mp hin
  rw [h.cached e he] at hid
  cases hid

theorem Mapped.cached_mem (h : Mapped F Good blocks s es M) (hc : Cached F s id page) :
    ∃ e ∈ es, e.page = page ∧ idAt F s e.page = id := by
  obtain ⟨e, he, rfl, hid⟩ := h.cached_iff.mp hc
  exact ⟨e, he, rfl, hid⟩

theorem Mapped.insert (hF : F.Recovers Good Eq) (h : Mapped F Good blocks s es M) (hp : Good p)
    (hlt : F.pageID p < s.numBlocks) : ∃ s' es', insertPage F none p s = .ok () s' ∧
      s'.capacity = s.capacity ∧
      Mapped F Good blocks s' es' (Function.update M (F.pageID p) (some p)) := by
  obtain ⟨s', es', M', hrun, hev, href, hfade⟩ := h.toRefines.insertPage hF hp hlt
  rw [hfade.eq] at href
  have hret := hev.returned h.coherent (h.toLinked.inserted p) rfl rfl (idAt_placed p s)
    fun e he => Function.update_of_ne (h.page_lt e he).ne ..
  refine ⟨s', es', hrun, hret.capacity, href, fun id hid => ?_⟩
  have hne : id ≠ F.pageID p := by
    rintro rfl
    rw [Function.update_self] at hid
    cases hid
  rw [Function.update_of_ne hne] at hid
  rw [hret.blocks id (by simpa using hne) (h.not_cached hid), h.untouched id hid]

theorem Mapped.retrieve (hF : F.Recovers Good Eq) (h : Mapped F Good blocks s es M)
    (hcap : s.capacity ≠ 0) (hp : M id = some p) : ∃ page s' es',
      retrievePage F none (F.type p) id s = .ok page s' ∧ s'.objects page = p ∧ Cached F s' id page ∧
      s'.capacity = s.capacity ∧ Mapped F Good blocks s' es' M := by
  obtain ⟨page, s', es', M', hrun, hfetched, hfade⟩ := h.toRefines.retrievePage hF hcap hp
  have href := hfetched.refines
  obtain ⟨it, rest, rfl⟩ := hfetched.front hcap
  rw [hfade.eq] at href
  refine ⟨page, s', _, hrun, hfetched.object, ?_, hfetched.returned.capacity, href, fun x hx => ?_⟩
  · refine href.cached_iff.mpr ⟨⟨it, page⟩, List.mem_cons_self .., rfl, ?_⟩
    rw [idAt, hfetched.object, (h.good hp).2.1]
  · have hne : x ≠ id := by
      rintro rfl
      rw [hp] at hx
      cases hx
    rw [hfetched.returned.blocks x (by simpa using hne) (h.not_cached hx), h.untouched x hx]

theorem Mapped.read (hF : F.Recovers Good Eq) (h : Mapped F Good blocks s es M) (hcap : s.capacity ≠ 0) {T : PageType}
    (hid : M id = none) (hlt : id < s.numBlocks) (hp : Good p)
    (hread : F.ofBytes (s.junk s.uses) T id (blocks id) = some p) : ∃ page s' es',
      retrievePage F none T id s = .ok page s' ∧ s'.objects page = p ∧
      Cached F s' id page ∧ s'.capacity = s.capacity ∧
      Mapped F Good blocks s' es' (Function.update M id (some p)) := by
  obtain rfl := F.pageID_ofBytes hread
  obtain rfl := F.type_ofBytes hread
  rw [← h.untouched _ hid] at hread
  obtain ⟨s', es', M', hrun, hev, href, hfade⟩ :=
    h.toRefines.retrieve_miss hF hcap (h.not_cached hid) hlt hp hread
  rw [hfade.eq] at href
  have hfetched := hev.fetched h.toRefines (h.not_cached hid) rfl href
  obtain ⟨it, rest, rfl⟩ := hfetched.front hcap
  refine ⟨_, s', _, hrun, hfetched.object, ?_, hfetched.returned.capacity, href, fun x hx => ?_⟩
  · refine href.cached_iff.mpr ⟨⟨it, s.nextObject⟩, List.mem_cons_self .., rfl, ?_⟩
    rw [idAt, hfetched.object]
  · have hne : x ≠ F.pageID p := by
      rintro rfl
      rw [Function.update_self] at hx
      cases hx
    rw [Function.update_of_ne hne] at hx
    rw [hfetched.returned.blocks x (by simpa using hne) (h.not_cached hx), h.untouched x hx]

theorem Mapped.write (hF : F.Recovers Good Eq) (h : Mapped F Good blocks s es M) (hc : Cached F s id page) :
    ∃ s', writePage F none id s = .ok () s' ∧ s'.capacity = s.capacity ∧ Mapped F Good blocks s' es M := by
  obtain ⟨e, he, -, rfl⟩ := h.cached_mem hc
  obtain ⟨b, -, hrun, href⟩ := h.toRefines.writePage hF he
  refine ⟨_, hrun, rfl, href, fun x hx => ?_⟩
  rw [← h.untouched x hx]
  refine Function.update_of_ne ?_ ..
  rintro rfl
  exact h.not_cached hx (mem_ids.mpr ⟨e, he, rfl⟩)

theorem Mapped.change (h : Mapped F Good blocks s es M) (hc : Cached F s id page) (hp : Good p)
    (hid : F.pageID p = id) :
    Mapped F Good blocks (PageCache.store page p s) es (Function.update M id (some p)) := by
  obtain ⟨e, he, rfl, rfl⟩ := h.cached_mem hc
  refine ⟨h.toRefines.store he hp hid, fun x hx => ?_⟩
  have hne : x ≠ idAt F s e.page := by
    rintro rfl
    rw [Function.update_self] at hx
    cases hx
  rw [Function.update_of_ne hne] at hx
  exact h.untouched x hx

theorem MapRun.mapped {capacity : ℕ} (hF : F.Recovers Good Eq) (hcap : 1 ≤ capacity)
    (h : MapRun F Good capacity blocks s M) : s.capacity ≠ 0 ∧ ∃ es, Mapped F Good blocks s es M := by
  induction h with
  | start numBlocks objects junk =>
    exact ⟨Nat.pos_iff_ne_zero.mp hcap, [], refines_new .., fun _ _ => rfl⟩
  | insert _ hp hlt hrun ih =>
    obtain ⟨hc, es, hs⟩ := ih
    obtain ⟨t, es', ht, hct, hm⟩ := hs.insert hF hp hlt
    rw [hrun] at ht
    cases ht
    exact ⟨hct ▸ hc, es', hm⟩
  | retrieve _ hp hrun ih =>
    obtain ⟨hc, es, hs⟩ := ih
    obtain ⟨page, t, es', ht, -, -, hct, hm⟩ := hs.retrieve hF hc hp
    rw [hrun] at ht
    cases ht
    exact ⟨hct ▸ hc, es', hm⟩
  | read _ hid hlt hp hread hrun ih =>
    obtain ⟨hc, es, hs⟩ := ih
    obtain ⟨page, t, es', ht, -, -, hct, hm⟩ := hs.read hF hc hid hlt hp hread
    rw [hrun] at ht
    cases ht
    exact ⟨hct ▸ hc, es', hm⟩
  | write _ hcached hrun ih =>
    obtain ⟨hc, es, hs⟩ := ih
    obtain ⟨t, ht, hct, hm⟩ := hs.write hF hcached
    rw [hrun] at ht
    cases ht
    exact ⟨hct ▸ hc, es, hm⟩
  | change _ hcached hp hid ih =>
    obtain ⟨hc, es, hs⟩ := ih
    exact ⟨hc, es, hs.change hcached hp hid⟩

theorem Mapped.flush (hF : F.Recovers Good Eq) (h : Mapped F Good blocks s es M) {order : List ℕ}
    (hn : order.Nodup) (horder : ∀ id, id ∈ order ↔ (s.map id).isSome = true) :
    ∃ s', PageCache.flush F order s = .ok () s' ∧ (∀ id, M id = none → s'.blocks id = blocks id) ∧
      ∀ id p, M id = some p → ∃ J, F.toBytes J p = some (s'.blocks id) := by
  obtain ⟨s', hrun, -, -, hother, hblocks⟩ := h.toRefines.flush hF hn
    fun id hid => h.map_isSome_iff.mp ((horder id).mp hid)
  refine ⟨s', hrun, fun id hid => ?_, fun id p hp => ?_⟩
  · rw [hother id fun hin => h.not_cached hid (h.map_isSome_iff.mp ((horder id).mp hin)), h.untouched id hid]
  · by_cases hin : id ∈ order
    · exact hblocks id hin p hp
    · rw [hother id hin]
      obtain ⟨J, p₀, rfl, hb⟩ :=
        (h.stored (fun hids => hin ((horder id).mpr (h.map_isSome_iff.mpr hids))) hp).toBytes
      exact ⟨J, hb⟩

/-- The cache behaves as a map, in every run with changes to pages that are still in it. -/
theorem cacheIsMap_of_run {capacity : ℕ} (hF : F.Recovers Good Eq) (hcap : 1 ≤ capacity)
    (h : MapRun F Good capacity blocks s M) : MapOk F Good blocks s M := by
  obtain ⟨hc, es, hs⟩ := h.mapped hF hcap
  refine ⟨fun p hp hlt => ?_, fun id p hp => ?_, fun T id p hid hlt hp hread => ?_, fun id page hcached => ?_,
    fun order hn horder => ?_⟩
  · obtain ⟨s', es', hrun, -⟩ := hs.insert hF hp hlt
    exact ⟨s', hrun⟩
  · obtain ⟨page, s', es', hrun, hobj, hcached, -⟩ := hs.retrieve hF hc hp
    exact ⟨page, s', hrun, hobj, hcached⟩
  · obtain ⟨page, s', es', hrun, hobj, hcached, -⟩ := hs.read hF hc hid hlt hp hread
    exact ⟨page, s', hrun, hobj, hcached⟩
  · obtain ⟨s', hrun, -⟩ := hs.write hF hcached
    exact ⟨s', hrun⟩
  · obtain ⟨s', hrun, huntouched, hblocks⟩ := hs.flush hF hn horder
    refine ⟨s', hrun, huntouched, fun id p hp => ⟨hblocks id p hp, fun J => ?_⟩⟩
    obtain ⟨J₀, hb⟩ := hblocks id p hp
    obtain ⟨hgood, hpid, -⟩ := hs.good hp
    obtain ⟨b, hb', q, rfl, -, hread⟩ := hF J₀ p hgood
    obtain rfl : s'.blocks id = b := Option.some.inj (hb.symm.trans hb')
    rw [← hpid]
    exact hpid ▸ hread J

theorem format_recovers_eq : Page.format.Recovers
    (fun p => p.Sound ∧ (p.type = .schema ∨ p.type = .node)) Eq := by
  intro J p ⟨hp, ht⟩
  obtain ⟨b, hb, q, hagain, hq, hread⟩ := Page.format_recovers J p hp
  have heq : p = q := by
    cases p with
    | schema p => exact hagain
    | node p => exact hagain
    | fsm p => rcases ht with ht | ht <;> cases ht
    | table p => rcases ht with ht | ht <;> cases ht
  exact ⟨b, hb, q, heq, ⟨hq, heq ▸ ht⟩, hread⟩

def emptyLeaf (pageID degree : ℕ) : Page := .node (.new degree 0 true true pageID)

theorem emptyLeaf_good (pageID : ℕ) {degree : ℕ} (h : degree < 2 ^ 16) :
    (emptyLeaf pageID degree).Sound ∧ ((emptyLeaf pageID degree).type = .schema ∨
      (emptyLeaf pageID degree).type = .node) :=
  ⟨Page.nodeSound_new h (Nat.two_pow_pos 32) (.inl rfl), .inr rfl⟩

def single : PageCache Page Block :=
  new 1 3 (fun _ => []) (fun _ => .schema (.new 0)) fun _ => ⟨fun _ => 0, fun _ => []⟩

def IsSingleRun (s : PageCache Page Block) (page : ℕ) : Prop := ∃ s₁ s₂,
  insertPage Page.format none (emptyLeaf 1 7) single = .ok () s₁ ∧
    retrievePage Page.format none .node 1 s₁ = .ok page s₂ ∧
      insertPage Page.format none (emptyLeaf 2 8) s₂ = .ok () s

theorem mapRun_single : ∃ s M, IsSingleRun s 0 ∧ M 1 = some (emptyLeaf 1 7) ∧
    s.list = [⟨2, some 1⟩] ∧ MapRun Page.format
      (fun p => p.Sound ∧ (p.type = .schema ∨ p.type = .node)) 1 (fun _ => []) s M := by
  have hstart : MapRun Page.format (fun p => p.Sound ∧ (p.type = .schema ∨ p.type = .node)) 1
    (fun _ => []) single fun _ => none := .start ..
  have h₁ := hstart.insert (emptyLeaf_good 1 (show 7 < 2 ^ 16 by decide)) (by decide) rfl
  have hM : Function.update (fun _ => none) 1 (some (emptyLeaf 1 7)) 1 = some (emptyLeaf 1 7) := rfl
  have h₂ := h₁.retrieve (p := emptyLeaf 1 7) hM rfl
  have h₃ := h₂.insert (emptyLeaf_good 2 (show 8 < 2 ^ 16 by decide)) (by decide) rfl
  exact ⟨_, _, ⟨_, _, rfl, rfl, rfl⟩, rfl, rfl, h₃⟩

theorem cacheIsMap_single : ∃ s M, IsSingleRun s 0 ∧ M 1 = some (emptyLeaf 1 7) ∧
    MapOk Page.format (fun p => p.Sound ∧ (p.type = .schema ∨ p.type = .node)) (fun _ => []) s M := by
  obtain ⟨s, M, hs, hM, -, hrun⟩ := mapRun_single
  exact ⟨s, M, hs, hM, cacheIsMap_of_run format_recovers_eq le_rfl hrun⟩

/-- A page is retrieved, another one is inserted, and then the first is changed through the reference:
the change is lost. -/
theorem cacheIsMap_counterexample : ∃ s, IsSingleRun s 0 ∧ ∃ page s',
    retrievePage Page.format none .node 1 (store 0 (emptyLeaf 1 9) s) = .ok page s' ∧
      s'.objects page = emptyLeaf 1 7 ∧ emptyLeaf 1 7 ≠ emptyLeaf 1 9 := by
  obtain ⟨s, M, hs, hM, hlist, hrun⟩ := mapRun_single
  obtain ⟨hcap, es, hmapped⟩ := hrun.mapped format_recovers_eq le_rfl
  have hout : ∀ e ∈ es, e.page ≠ 0 := by
    intro e he
    have hmem : e.node ∈ s.list := hmapped.list ▸ List.mem_map_of_mem he
    rw [hlist, List.mem_singleton] at hmem
    have hpage : e.page = 1 := Option.some.inj (congrArg ListNode.page hmem)
    omega
  have hstore : Mapped Page.format _ (fun _ => []) (store 0 (emptyLeaf 1 9) s) es M :=
    ⟨hmapped.toRefines.store_dangling hout _, hmapped.untouched⟩
  obtain ⟨page, s', es', hret, hobj, -⟩ := hstore.retrieve format_recovers_eq hcap hM
  exact ⟨s, hs, page, s', hret, hobj, by decide⟩

end Kndb.PageCache
