import Kndb.LawfulCache
import Kndb.PageCache.Recent

/-!
# A cache that evicts nothing

The page cache with room for one more page before each call.  As long as it has that room anyway, its
calls are those of the cache as it is.  Since no page leaves it, a page id is as good as the address of
the page, and stands for it.
-/

namespace Kndb

open Imp Imp.Prog Codec

namespace Page

def typeID : PageType → ℕ
  | .schema => 1
  | .fsm => 2
  | .table => 3
  | .node => 4

theorem typeID_inj {T T' : PageType} (h : typeID T = typeID T') : T = T' := by
  cases T <;> cases T' <;> first | rfl | cases h

theorem eq_of_checkType {α : Type} {k : ℕ} {m : String} {f : Unit → Code Bytes α} {b rest : Bytes} {a : α}
    (h : (getLE 1 >>= fun x => require (x = k) m >>= f) b = .ok a rest) : k = ofLE (b.take 1) := by
  obtain ⟨x, s, hx, h⟩ := ok_of_bind h
  obtain ⟨hk, -⟩ := ok_of_require h
  obtain ⟨l, hl, rfl⟩ := ok_of_map hx
  rw [Codec.read] at hl
  split_ifs at hl
  cases hl
  exact (of_decide_eq_true hk).symm

theorem typeID_of_parse {J : Junk} {id : ℕ} {T : PageType} {b rest : Bytes} {p : Page}
    (h : parse J id T b = .ok p rest) : typeID T = ofLE (b.take 1) := by
  cases T with
  | schema =>
    obtain ⟨q, h, -⟩ := ok_of_map h
    obtain ⟨entries, s, h, -⟩ := ok_of_bind h
    exact eq_of_checkType (k := 1) h
  | fsm =>
    obtain ⟨q, h, -⟩ := ok_of_map h
    exact eq_of_checkType (k := 2) h
  | table =>
    obtain ⟨q, h, -⟩ := ok_of_map h
    exact eq_of_checkType (k := 3) h
  | node =>
    obtain ⟨q, h, -⟩ := ok_of_map h
    obtain ⟨header, s, h, -⟩ := ok_of_bind h
    exact eq_of_checkType (k := 4) h

/-- The page that a block holds, of whatever class it is. -/
def readAny (J : Junk) (id : ℕ) (b : Block) : Option Page :=
  [PageType.schema, .fsm, .table, .node].findSome? fun T => format.ofBytes J T id b

theorem readAny_eq {J : Junk} {id : ℕ} {b : Block} {p : Page} (h : format.ofBytes J p.type id b = some p) :
    readAny J id b = some p := by
  have hother : ∀ T, T ≠ p.type → format.ofBytes J T id b = none := by
    intro T hT
    by_contra hne
    obtain ⟨q, hq⟩ := Option.ne_none_iff_exists'.mp hne
    obtain ⟨rest, hp⟩ := returned_eq_some.mp h
    obtain ⟨rest', hq⟩ := returned_eq_some.mp hq
    exact hT (typeID_inj ((typeID_of_parse hq).trans (typeID_of_parse hp).symm))
  rw [readAny]
  cases p with
  | schema _ => simp [List.findSome?, show format.ofBytes J .schema id b = _ from h]
  | fsm _ => simp [List.findSome?, hother .schema nofun, show format.ofBytes J .fsm id b = _ from h]
  | table _ =>
    simp [List.findSome?, hother .schema nofun, hother .fsm nofun, show format.ofBytes J .table id b = _ from h]
  | node _ =>
    simp [List.findSome?, hother .schema nofun, hother .fsm nofun, hother .table nofun,
      show format.ofBytes J .node id b = _ from h]

end Page

namespace PageCache

variable {P B : Type} {F : PageFormat P B} {s s' : PageCache P B} {es : List Entry} {e : Entry} {id : ℕ}

def makeRoom (s : PageCache P B) : PageCache P B := { s with capacity := max s.capacity (s.list.length + 1) }

/-- The address of the page object with an id, if it is in the cache. -/
def address (s : PageCache P B) (id : ℕ) : Option ℕ :=
  match s.map id with
  | some (some it) => (s.node it).bind ListNode.page
  | _ => none

theorem makeRoom_eq (h : s.list.length < s.capacity) : makeRoom s = s := by
  rw [makeRoom, max_eq_left (Nat.succ_le_of_lt h)]

theorem Linked.address_eq (h : Linked F s es) (he : e ∈ es) : address s (idAt F s e.page) = some e.page := by
  rw [address, h.map_some e he]
  simp only [h.node_eq he, Option.bind_some, Entry.node]

theorem Linked.address_eq_none (h : Linked F s es) (hid : id ∉ PageCache.ids F s es) : address s id = none := by
  rw [address, h.map_none id hid]

theorem Linked.makeRoom (h : Linked F s es) : Linked F (makeRoom s) es := h.congr rfl rfl rfl le_rfl fun _ _ => rfl

theorem Linked.lt_capacity (h : Linked F s es) : es.length < (PageCache.makeRoom s).capacity := by
  have hlen : s.list.length = es.length := by rw [h.list, List.length_map]
  exact Nat.lt_of_lt_of_le (hlen ▸ Nat.lt_succ_self _) (le_max_right ..)

/-- What the classes above use of the cache, if nothing is evicted. -/
def keepingOps : CacheOps ℕ (PageCache Page Block) where
  retrievePage T id := do
    change makeRoom
    let _ ← retrievePage Page.format none T id
    return id
  insertPage p := do
    change makeRoom
    insertPage Page.format none p
  load id s := match address s id with
    | some page => s.objects page
    -- nobody has a reference to a page that is not in the cache
    | none => (Page.readAny (s.junk s.uses) id (s.blocks id)).getD (.schema (.new id))
  store id p s := match address s id with
    | some page => store page p s
    | none => inserted Page.format p (makeRoom s)
  getNumBlocks := getNumBlocks
  createMultipleBlocks := createMultipleBlocks

section Room

variable {s s' : PageCache Page Block} {p : Page} {page : ℕ}

/-- With room for another page the cache is called as it is, and a page is read through its id as it is
through the address that the cache returns. -/
theorem keepingOps_retrievePage {T : PageType} (h : s.list.length < s.capacity) :
    keepingOps.retrievePage T id s = (do
      let _ ← retrievePage Page.format none T id
      return id) s := by
  change (retrievePage Page.format none T id >>= fun _ => pure id) (makeRoom s) = _
  rw [makeRoom_eq h]

theorem keepingOps_insertPage (h : s.list.length < s.capacity) :
    keepingOps.insertPage p s = insertPage Page.format none p s := by
  change insertPage Page.format none p (makeRoom s) = _
  rw [makeRoom_eq h]

theorem Linked.load_eq {es : List Entry} (h : Linked Page.format s es) (he : e ∈ es) :
    keepingOps.load (idAt Page.format s e.page) s = s.objects e.page := by
  change (match address s _ with
    | some page => s.objects page
    | none => _) = _
  rw [h.address_eq he]

end Room

/-- The pages of `base` stand in their blocks. -/
def OnFile (base : ℕ → Option Page) (s : PageCache Page Block) : Prop :=
  ∀ id p, base id = some p → id < s.numBlocks ∧ ∀ J, Page.format.ofBytes J p.type id (s.blocks id) = some p

/-- The state of a cache that has not evicted anything since its file held the pages of `base`. -/
structure Resident (base : ℕ → Option Page) (s : PageCache Page Block) (es : List Entry) : Prop extends
    Coherent Page.format s es where
  inFile : ∀ e ∈ es, idAt Page.format s e.page < s.numBlocks
  onFile : OnFile base s

/-- The pages in the cache and those of `base` that have not been read yet. -/
def pages (base : ℕ → Option Page) (s : PageCache Page Block) (id : ℕ) : Option Page :=
  match address s id with
  | some page => some (s.objects page)
  | none => base id

section Resident

variable {base : ℕ → Option Page} {s s' t : PageCache Page Block} {es es' : List Entry} {p q : Page} {page : ℕ}

theorem pages_of_mem (h : Linked Page.format s es) (he : e ∈ es) :
    pages base s (idAt Page.format s e.page) = some (s.objects e.page) := by
  rw [pages, h.address_eq he]

theorem pages_of_not_mem (h : Linked Page.format s es) (hid : id ∉ ids Page.format s es) :
    pages base s id = base id := by
  rw [pages, h.address_eq_none hid]

theorem pages_toFront (h : Linked Page.format s es) (h' : Linked Page.format s' (toFront Page.format page id s es))
    (hfront : s'.objects page = p) (hid : p.pageID = id) (hobjects : ∀ e ∈ es, idAt Page.format s e.page ≠ id →
      s'.objects e.page = s.objects e.page) : pages base s' = Function.update (pages base s) id (some p) := by
  have hat : idAt Page.format s' page = id := (congrArg Page.pageID hfront).trans hid
  have hsame : ∀ e ∈ es, idAt Page.format s e.page ≠ id → idAt Page.format s' e.page = idAt Page.format s e.page :=
    fun e he hne => congrArg Page.pageID (hobjects e he hne)
  funext x
  by_cases hx : x = id
  · rw [hx, Function.update_self, ← hat, pages_of_mem h' (e := ⟨s.nextIt, page⟩) (List.mem_cons_self ..), hfront]
  rw [Function.update_of_ne hx]
  by_cases hmem : x ∈ ids Page.format s es
  · obtain ⟨e, he, rfl⟩ := mem_ids.mp hmem
    have he' : e ∈ toFront Page.format page id s es :=
      List.mem_cons_of_mem _ (List.mem_filter.mpr ⟨he, decide_eq_true hx⟩)
    rw [pages_of_mem h he, ← hsame e he hx, pages_of_mem h' he', hobjects e he hx]
  · rw [pages_of_not_mem h hmem, pages_of_not_mem h']
    intro hin
    obtain ⟨e, he, rfl⟩ := mem_ids.mp hin
    rcases List.mem_cons.mp he with rfl | he
    · exact hx hat
    · obtain ⟨he, hne⟩ := List.mem_filter.mp he
      rw [hsame e he (of_decide_eq_true hne)] at hmem
      exact hmem (mem_ids.mpr ⟨e, he, rfl⟩)

theorem pages_congr (h : Linked Page.format s es) (h' : Linked Page.format s' es) (hobjects : s'.objects = s.objects) :
    pages base s' = pages base s := by
  have hat : idAt Page.format s' = idAt Page.format s := by
    funext x
    rw [idAt, idAt, hobjects]
  have hids : ids Page.format s' es = ids Page.format s es := by rw [ids, ids, hat]
  funext x
  by_cases hmem : x ∈ ids Page.format s es
  · obtain ⟨e, he, rfl⟩ := mem_ids.mp hmem
    rw [pages_of_mem h he, ← hat, pages_of_mem h' he, hobjects]
  · rw [pages_of_not_mem h hmem, pages_of_not_mem h' (hids ▸ hmem)]

theorem Resident.makeRoom (h : Resident base s es) : Resident base (makeRoom s) es :=
  ⟨⟨h.toLinked.makeRoom, h.toLinked.lt_capacity.le⟩, h.inFile, h.onFile⟩

theorem Evicted.resident (h : Evicted Page.format t es s' es') (ht : Resident base t es) :
    Resident base s' es ∧ pages base s' = pages base t ∧ s'.numBlocks = t.numBlocks := by
  have hat : idAt Page.format s' = idAt Page.format t := by
    funext x
    rw [idAt, idAt, h.objects]
  obtain rfl : es' = es := h.take.trans (List.take_of_length_le ht.size)
  obtain ⟨-, hblocks⟩ | ⟨l, b, J, hl, -⟩ := h.blocks
  · refine ⟨⟨⟨h.linked, h.capacity ▸ ht.size⟩, fun e he => ?_, fun id p hp => ?_⟩,
      pages_congr ht.toLinked h.linked h.objects, h.numBlocks⟩
    · rw [hat, h.numBlocks]
      exact ht.inFile e he
    · rw [h.numBlocks, hblocks]
      exact ht.onFile id p hp
  · exact absurd (congrArg List.length hl) (by simp)

theorem Resident.inserted (h : Resident base s es) (hsize : es.length < s.capacity) (hlt : p.pageID < s.numBlocks) :
    Resident base (inserted Page.format p s) (toFront Page.format s.nextObject p.pageID s es) ∧
      pages base (PageCache.inserted Page.format p s) = Function.update (pages base s) p.pageID (some p) := by
  have hlinked : Linked Page.format (PageCache.inserted Page.format p s)
      (toFront Page.format s.nextObject p.pageID s es) := h.toLinked.inserted p
  have hself : (PageCache.inserted Page.format p s).objects s.nextObject = p := Function.update_self ..
  have hobjects : ∀ e ∈ es, (PageCache.inserted Page.format p s).objects e.page = s.objects e.page :=
    fun e he => Function.update_of_ne (h.page_lt e he).ne ..
  refine ⟨⟨⟨hlinked, toFront_length_le.trans hsize⟩, fun e he => ?_, h.onFile⟩,
    pages_toFront h.toLinked hlinked hself rfl fun e he _ => hobjects e he⟩
  rcases List.mem_cons.mp he with rfl | he
  · have hat : idAt Page.format (PageCache.inserted Page.format p s) s.nextObject = p.pageID :=
      congrArg Page.pageID hself
    rw [hat]
    exact hlt
  · have hmem := (List.mem_filter.mp he).1
    rw [show idAt Page.format (PageCache.inserted Page.format p s) e.page = idAt Page.format s e.page from
      congrArg Page.pageID (hobjects e hmem)]
    exact h.inFile e hmem

theorem Resident.lt_of_pages (h : Resident base s es) (hp : pages base s id = some p) : id < s.numBlocks := by
  by_cases hid : id ∈ ids Page.format s es
  · obtain ⟨e, he, rfl⟩ := mem_ids.mp hid
    exact h.inFile e he
  · rw [pages_of_not_mem h.toLinked hid] at hp
    exact (h.onFile id p hp).1

/-- With more room than the file has blocks there is always room for one more page. -/
theorem Resident.room (h : Resident base s es) (hcap : s.numBlocks < s.capacity) : s.list.length < s.capacity := by
  have hsub : ids Page.format s es ⊆ List.range s.numBlocks := by
    intro id hid
    obtain ⟨e, he, rfl⟩ := mem_ids.mp hid
    exact List.mem_range.mpr (h.inFile e he)
  have hle := (h.ids.subperm hsub).length_le
  rw [ids, List.length_map, List.length_range] at hle
  rw [h.list, List.length_map]
  exact hle.trans_lt hcap

theorem Resident.used (h : Resident base s es) : Resident base (used s) es :=
  ⟨⟨h.toLinked.congr rfl rfl rfl le_rfl fun _ _ => rfl, h.size⟩, h.inFile, h.onFile⟩

theorem Resident.insertPage (h : Resident base s es) (hlt : p.pageID < s.numBlocks) : ∃ s' es',
    keepingOps.insertPage p s = .ok () s' ∧ Resident base s' es' ∧
      pages base s' = Function.update (pages base s) p.pageID (some p) ∧ s'.numBlocks = s.numBlocks := by
  obtain ⟨hins, hpages⟩ := h.makeRoom.inserted h.toLinked.lt_capacity hlt
  have hwp : (PageCache.insertPage Page.format none p).wp (PageCache.makeRoom s) (fun _ s' => ∃ es',
      Evicted Page.format (PageCache.inserted Page.format p (PageCache.makeRoom s))
        (toFront Page.format s.nextObject p.pageID s es) s' es') (fun _ _ => False) fun _ => False :=
    wp_mono (wp_insertPage h.makeRoom.toLinked h.makeRoom.size p) (fun _ _ hq => hq)
      (fun _ _ hr => absurd hr.1.full hins.size.not_gt) fun _ hx => absurd hx.2.1 hins.size.not_gt
  obtain ⟨_, s', hrun, es', hev⟩ := ok_of_wp hwp
  obtain ⟨hres, hview, hn⟩ := hev.resident hins
  exact ⟨s', _, hrun, hres, hview.trans hpages, hn⟩

theorem Resident.retrieve_hit (h : Resident base s es) (he : e ∈ es) : ∃ s' es',
    keepingOps.retrievePage (s.objects e.page).type (idAt Page.format s e.page) s =
      .ok (idAt Page.format s e.page) s' ∧ Resident base s' es' ∧ pages base s' = pages base s ∧
        s'.numBlocks = s.numBlocks := by
  have hroom := h.makeRoom
  have hrun : PageCache.retrievePage Page.format none _ _ (PageCache.makeRoom s) = _ :=
    retrievePage_hit hroom.toLinked he hroom.size (s.objects e.page).type
  rw [if_pos (show Page.format.type ((PageCache.makeRoom s).objects e.page) = (s.objects e.page).type from rfl)] at hrun
  have hlinked := hroom.toLinked.touched he
  refine ⟨touched Page.format e (PageCache.makeRoom s), _, ?_, ⟨⟨hlinked, ?_⟩, fun e' he' => ?_, h.onFile⟩, ?_, rfl⟩
  · exact bind_ok hrun
  · exact (Linked.toFront_length he).trans hroom.size
  · rcases List.mem_cons.mp he' with rfl | he'
    · exact h.inFile e he
    · exact h.inFile e' (List.mem_filter.mp he').1
  · rw [pages_toFront h.toLinked hlinked rfl rfl fun _ _ _ => rfl]
    exact (Function.update_eq_iff).mpr ⟨(pages_of_mem h.toLinked he).symm, fun _ _ => rfl⟩

theorem Resident.retrieve_miss (h : Resident base s es) (hid : id ∉ ids Page.format s es) (hp : base id = some p) :
    ∃ s' es', keepingOps.retrievePage p.type id s = .ok id s' ∧ Resident base s' es' ∧ pages base s' = pages base s ∧
      s'.numBlocks = s.numBlocks := by
  obtain ⟨hlt, hread⟩ := h.onFile id p hp
  have hpid : p.pageID = id := Page.format.pageID_ofBytes (hread (s.junk s.uses))
  have hroom := h.makeRoom
  obtain ⟨hins, hpages⟩ := hroom.used.inserted h.toLinked.lt_capacity (show p.pageID < s.numBlocks from hpid ▸ hlt)
  rw [hpid] at hins hpages
  have hwp : (PageCache.retrievePage Page.format none p.type id).wp (PageCache.makeRoom s) (fun _ s' => ∃ es',
      Evicted Page.format (PageCache.inserted Page.format p (PageCache.used (PageCache.makeRoom s)))
        (toFront Page.format s.nextObject id s es) s' es') (fun _ _ => False) fun _ => False := by
    refine wp_mono (wp_retrievePage_miss hroom.toLinked hroom.size hid p.type) ?_ ?_ ?_
    · rintro page s' ⟨-, -, -, q, hq, hev⟩
      obtain rfl : p = q := Option.some.inj ((hread _).symm.trans hq)
      exact hev
    · rintro ex s' (⟨hle, -⟩ | ⟨-, q, hq, hover, -⟩)
      · exact hle.not_gt hlt
      · obtain rfl : p = q := Option.some.inj ((hread _).symm.trans hq)
        exact hover.full.not_ge hins.size
    · rintro x ⟨-, -, hnone | ⟨q, hq, hzero | hun⟩⟩
      · cases hnone.symm.trans (hread _)
      · exact (Nat.zero_le _).not_gt (hzero ▸ h.toLinked.lt_capacity)
      · obtain rfl : p = q := Option.some.inj ((hread _).symm.trans hq)
        exact hun.1.not_ge hins.size
  obtain ⟨page, s', hrun, es', hev⟩ := ok_of_wp hwp
  obtain ⟨hres, hview, hn⟩ := hev.resident hins
  refine ⟨s', _, bind_ok hrun, hres, hview.trans (hpages.trans ?_), hn⟩
  change Function.update (pages base s) id (some p) = _
  rw [← hp, ← (pages_of_not_mem h.toLinked hid : pages base s id = base id)]
  exact Function.update_eq_self ..

theorem Resident.store (h : Resident base s es) (hp : pages base s id = some p) (hid : q.pageID = id) :
    ∃ es', Resident base (keepingOps.store id q s) es' ∧
      pages base (keepingOps.store id q s) = Function.update (pages base s) id (some q) ∧
        (keepingOps.store id q s).numBlocks = s.numBlocks := by
  by_cases hmem : id ∈ ids Page.format s es
  · obtain ⟨e, he, rfl⟩ := mem_ids.mp hmem
    have hstore : keepingOps.store (idAt Page.format s e.page) q s = PageCache.store e.page q s := by
      change (match address s _ with
        | some page => PageCache.store page q s
        | none => _) = _
      rw [h.toLinked.address_eq he]
    have hat : ∀ x, idAt Page.format (PageCache.store e.page q s) x = idAt Page.format s x := idAt_store hid
    have hcoh := h.toCoherent.store hid
    rw [hstore]
    refine ⟨es, ⟨hcoh, fun e' he' => ?_, h.onFile⟩, ?_, rfl⟩
    · rw [hat]
      exact h.inFile e' he'
    · funext x
      by_cases hx : x ∈ ids Page.format s es
      · obtain ⟨e', he', rfl⟩ := mem_ids.mp hx
        rw [← hat e'.page, pages_of_mem hcoh.toLinked he', hat]
        by_cases hee : e' = e
        · subst hee
          rw [Function.update_self]
          exact congrArg some (Function.update_self ..)
        · rw [Function.update_of_ne fun heq => hee (h.eq_of_id he' he heq), pages_of_mem h.toLinked he']
          exact congrArg some (Function.update_of_ne (fun heq => hee (h.eq_of_page he' he heq)) ..)
      · have hids : ids Page.format (PageCache.store e.page q s) es = ids Page.format s es :=
          List.map_congr_left fun e' _ => hat e'.page
        rw [pages_of_not_mem hcoh.toLinked (hids ▸ hx), Function.update_of_ne, pages_of_not_mem h.toLinked hx]
        rintro rfl
        exact hx hmem
  · have hstore : keepingOps.store id q s = PageCache.inserted Page.format q (PageCache.makeRoom s) := by
      change (match address s id with
        | some page => _
        | none => PageCache.inserted Page.format q (PageCache.makeRoom s)) = _
      rw [h.toLinked.address_eq_none hmem]
    rw [pages_of_not_mem h.toLinked hmem] at hp
    obtain ⟨hins, hpages⟩ := h.makeRoom.inserted (p := q) h.toLinked.lt_capacity
      (show q.pageID < s.numBlocks from hid ▸ (h.onFile id p hp).1)
    rw [hstore, ← hid]
    exact ⟨_, hins, hpages, rfl⟩

/-- The cache with the file that held the pages of `base` when it was opened. -/
def keeping (base : ℕ → Option Page) : LawfulCache (PageCache Page Block) where
  toCacheOps := keepingOps
  Ok s := ∃ es, Resident base s es
  view := pages base
  pageID_eq := by
    rintro s id p ⟨es, h⟩ hp
    by_cases hid : id ∈ ids Page.format s es
    · obtain ⟨e, he, rfl⟩ := mem_ids.mp hid
      rw [pages_of_mem h.toLinked he] at hp
      cases hp
      rfl
    · rw [pages_of_not_mem h.toLinked hid] at hp
      exact Page.format.pageID_ofBytes ((h.onFile id p hp).2 (s.junk s.uses))
  retrieve_eq := by
    rintro s id p ⟨es, h⟩ hp
    by_cases hid : id ∈ ids Page.format s es
    · obtain ⟨e, he, rfl⟩ := mem_ids.mp hid
      rw [pages_of_mem h.toLinked he] at hp
      cases hp
      obtain ⟨s', es', hrun, hres, hview, hn⟩ := h.retrieve_hit he
      exact ⟨s', hrun, ⟨es', hres⟩, hview, hn⟩
    · rw [pages_of_not_mem h.toLinked hid] at hp
      obtain ⟨s', es', hrun, hres, hview, hn⟩ := h.retrieve_miss hid hp
      exact ⟨s', hrun, ⟨es', hres⟩, hview, hn⟩
  load_eq := by
    rintro s id p ⟨es, h⟩ hp
    by_cases hid : id ∈ ids Page.format s es
    · obtain ⟨e, he, rfl⟩ := mem_ids.mp hid
      rw [pages_of_mem h.toLinked he] at hp
      cases hp
      exact h.toLinked.load_eq he
    · change (match address s id with
        | some page => s.objects page
        | none => (Page.readAny (s.junk s.uses) id (s.blocks id)).getD _) = p
      rw [pages_of_not_mem h.toLinked hid] at hp
      rw [h.toLinked.address_eq_none hid, Page.readAny_eq ((h.onFile id p hp).2 _), Option.getD_some]
  store_eq := by
    rintro s id p q ⟨es, h⟩ hp hid -
    obtain ⟨es', hres, hview, hn⟩ := h.store hp hid
    exact ⟨⟨es', hres⟩, hview, hn⟩
  insert_eq := by
    rintro s p ⟨es, h⟩ hlt
    obtain ⟨s', es', hrun, hres, hview, hn⟩ := h.insertPage hlt
    exact ⟨s', hrun, ⟨es', hres⟩, hview, hn⟩
  grow_eq := by
    rintro s n ⟨es, h⟩ hn -
    have hrun : createMultipleBlocks n s = .ok s.numBlocks { s with numBlocks := s.numBlocks + n } := by
      rw [createMultipleBlocks, bind_ok (require_ok _ s (decide_eq_true hn))]
      exact congrArg (Outcome.ok · _) (Nat.add_sub_cancel ..)
    have hlinked : Linked Page.format { s with numBlocks := s.numBlocks + n } es :=
      h.toLinked.congr rfl rfl rfl le_rfl fun _ _ => rfl
    refine ⟨_, hrun, ⟨es, ⟨hlinked, h.size⟩, fun e he => Nat.lt_add_right n (h.inFile e he), fun id p hp => ?_⟩,
      pages_congr h.toLinked hlinked rfl, rfl⟩
    exact ⟨Nat.lt_add_right n (h.onFile id p hp).1, (h.onFile id p hp).2⟩

/-- A cache with more room than its file has blocks is called as it is. -/
theorem keepingOps_eq (h : (keeping base).Ok s) (hcap : s.numBlocks < s.capacity) :
    (∀ T id, keepingOps.retrievePage T id s = (do
      let _ ← retrievePage Page.format none T id
      return id) s) ∧ ∀ p, keepingOps.insertPage p s = PageCache.insertPage Page.format none p s := by
  obtain ⟨es, hes⟩ := h
  exact ⟨fun _ _ => keepingOps_retrievePage (hes.room hcap), fun _ => keepingOps_insertPage (hes.room hcap)⟩

theorem ok_new (capacity numBlocks : ℕ) (blocks : ℕ → Block) (objects : ℕ → Page) (junk : ℕ → Junk)
    (h : OnFile base (new capacity numBlocks blocks objects junk)) :
    (keeping base).Ok (new capacity numBlocks blocks objects junk) ∧
      (keeping base).mem (new capacity numBlocks blocks objects junk) = ⟨base, numBlocks⟩ :=
  ⟨⟨[], ⟨linked_new .., Nat.zero_le _⟩, nofun, h⟩, rfl⟩

end Resident

end PageCache
end Kndb
