import Kndb.Page

namespace Kndb

open Imp Imp.Prog

/-- The pages that a cache and its file hold, and the number of blocks of the file. -/
@[ext] structure Mem where
  view : ℕ → Option Page
  blocks : ℕ

namespace Mem

def set (id : ℕ) (p : Page) (m : Mem) : Mem := { m with view := Function.update m.view id (some p) }

@[simp] theorem set_blocks (id : ℕ) (p : Page) (m : Mem) : (m.set id p).blocks = m.blocks := rfl

@[simp] theorem set_self (id : ℕ) (p : Page) (m : Mem) : (m.set id p).view id = some p :=
  Function.update_self ..

theorem set_of_ne {id id' : ℕ} (h : id' ≠ id) (p : Page) (m : Mem) :
    (m.set id p).view id' = m.view id' := Function.update_of_ne h ..

theorem set_set (id : ℕ) (p q : Page) (m : Mem) : (m.set id p).set id q = m.set id q := by
  rw [set, set, Function.update_idem]
  rfl

theorem set_eq_self {id : ℕ} {p : Page} {m : Mem} (h : m.view id = some p) : m.set id p = m := by
  rw [set, ← h, Function.update_eq_self]

end Mem

/-- A page cache whose pages stay what they are until they are changed, and a file that grows as far
as the pager wants it to.  References are page ids. -/
structure LawfulCache (σ : Type) extends CacheOps ℕ σ where
  Ok : σ → Prop
  view : σ → ℕ → Option Page
  pageID_eq : ∀ {s id p}, Ok s → view s id = some p → p.pageID = id
  retrieve_eq : ∀ {s id p}, Ok s → view s id = some p → ∃ s', retrievePage p.type id s = .ok id s' ∧
    Ok s' ∧ view s' = view s ∧ getNumBlocks s' = getNumBlocks s
  load_eq : ∀ {s id p}, Ok s → view s id = some p → load id s = p
  store_eq : ∀ {s id p p'}, Ok s → view s id = some p → p'.pageID = id → p'.type = p.type →
    Ok (store id p' s) ∧ view (store id p' s) = Function.update (view s) id (some p') ∧
      getNumBlocks (store id p' s) = getNumBlocks s
  insert_eq : ∀ {s p}, Ok s → p.pageID < getNumBlocks s → ∃ s', insertPage p s = .ok () s' ∧ Ok s' ∧
    view s' = Function.update (view s) p.pageID (some p) ∧ getNumBlocks s' = getNumBlocks s
  grow_eq : ∀ {s n}, Ok s → 0 < n → getNumBlocks s + n ≤ MAX_FSMPAGES * FSMPage.getBlocksInPage → ∃ s',
    createMultipleBlocks n s = .ok (getNumBlocks s) s' ∧ Ok s' ∧ view s' = view s ∧
      getNumBlocks s' = getNumBlocks s + n

variable {σ α β T : Type} [PageClass T]

namespace LawfulCache

def mem (C : LawfulCache σ) (s : σ) : Mem := ⟨C.view s, C.getNumBlocks s⟩

variable (C : LawfulCache σ)

@[simp] theorem mem_view (s : σ) : (C.mem s).view = C.view s := rfl

/-- In every state that stands for `m` the program returns `a` and a state that stands for `m'`. -/
def Returns (p : Code σ α) (m : Mem) (a : α) (m' : Mem) : Prop :=
  ∀ s, C.Ok s → C.mem s = m → ∃ s', p s = .ok a s' ∧ C.Ok s' ∧ C.mem s' = m'

/-- In every state that stands for `m` the program throws `e`. -/
def Throws (p : Code σ α) (m : Mem) (e : Exn) (m' : Mem) : Prop :=
  ∀ s, C.Ok s → C.mem s = m → ∃ s', p s = .throw e s' ∧ C.Ok s' ∧ C.mem s' = m'

variable {C} {p : Code σ α} {f : α → Code σ β} {m m' m'' : Mem} {a : α} {b : β} {e : Exn}

theorem Returns.bind (h : C.Returns p m a m') (h' : C.Returns (f a) m' b m'') :
    C.Returns (p >>= f) m b m'' := by
  intro s ok hs
  obtain ⟨s', hp, ok', hs'⟩ := h s ok hs
  rw [bind_ok hp]
  exact h' s' ok' hs'

theorem Returns.throws (h : C.Returns p m a m') (h' : C.Throws (f a) m' e m'') :
    C.Throws (p >>= f) m e m'' := by
  intro s ok hs
  obtain ⟨s', hp, ok', hs'⟩ := h s ok hs
  rw [bind_ok hp]
  exact h' s' ok' hs'

theorem Throws.bind (h : C.Throws p m e m') : C.Throws (p >>= f) m e m' := by
  intro s ok hs
  obtain ⟨s', hp, hs'⟩ := h s ok hs
  exact ⟨s', by rw [bind_apply, seq, hp], hs'⟩

theorem returns_pure (a : α) (m : Mem) : C.Returns (pure a) m a m :=
  fun s ok hs => ⟨s, rfl, ok, hs⟩

theorem throws_raise (e : Exn) (m : Mem) : C.Throws (raise e : Code σ α) m e m :=
  fun s ok hs => ⟨s, rfl, ok, hs⟩

theorem returns_require {b : Bool} (msg : String) (hb : b = true) (m : Mem) :
    C.Returns (require b msg) m () m :=
  fun s ok hs => ⟨s, require_ok msg s hb, ok, hs⟩

theorem returns_getNumBlocks (m : Mem) : C.Returns (gets C.getNumBlocks) m m.blocks m :=
  fun s ok hs => ⟨s, by rw [← hs]; rfl, ok, hs⟩

theorem returns_retrievePage {id : ℕ} {pg : Page} (h : m.view id = some pg) :
    C.Returns (C.retrievePage pg.type id) m id m := by
  intro s ok hs
  subst hs
  obtain ⟨s', hr, ok', hv, hn⟩ := C.retrieve_eq ok h
  exact ⟨s', hr, ok', Mem.ext hv hn⟩

theorem returns_retrieve {id : ℕ} {t : T} (h : m.view id = some (PageClass.wrap t)) :
    C.Returns (C.retrieve T id) m id m := by
  have := returns_retrievePage (C := C) h
  rwa [PageClass.type_wrap] at this

theorem returns_deref {id : ℕ} {t : T} (h : m.view id = some (PageClass.wrap t)) :
    C.Returns (C.deref T id) m t m := by
  intro s ok hs
  subst hs
  exact ⟨s, by rw [CacheOps.deref, C.load_eq ok h, PageClass.cast_wrap], ok, rfl⟩

theorem wp_call {id : ℕ} {q : Code T α} {t : T} {s : σ} {Q : α → σ → Prop} {R : Exn → σ → Prop}
    {A : Stop → Prop} (ok : C.Ok s) (h : C.view s id = some (PageClass.wrap t)) :
    (C.call id q).wp s Q R A ↔ q.wp t (fun a t' => Q a (C.store id (PageClass.wrap t') s))
      (fun e t' => R e (C.store id (PageClass.wrap t') s)) A := by
  have hcall : C.call id q s =
      (q.zoom (fun _ : σ => t) fun t' s' => C.store id (PageClass.wrap t') s') s := by
    rw [CacheOps.call, C.load_eq ok h, PageClass.cast_wrap]
  rw [wp_congr hcall, wp_zoom]

theorem store_wrap {id : ℕ} {t t' : T} {s : σ} (ok : C.Ok s) (h : C.view s id = some (PageClass.wrap t))
    (hid : (PageClass.wrap t').pageID = (PageClass.wrap t).pageID) :
    C.Ok (C.store id (PageClass.wrap t') s) ∧
      C.mem (C.store id (PageClass.wrap t') s) = (C.mem s).set id (PageClass.wrap t') := by
  have htype : (PageClass.wrap t').type = (PageClass.wrap t).type := by simp
  obtain ⟨ok', hv, hn⟩ := C.store_eq ok h (hid.trans (C.pageID_eq ok h)) htype
  exact ⟨ok', Mem.ext hv hn⟩

theorem returns_call {id : ℕ} {q : Code T α} {t t' : T} (h : m.view id = some (PageClass.wrap t))
    (hq : q t = .ok a t') (hid : (PageClass.wrap t').pageID = (PageClass.wrap t).pageID) :
    C.Returns (C.call id q) m a (m.set id (PageClass.wrap t')) := by
  intro s ok hs
  subst hs
  obtain ⟨ok', hm⟩ := store_wrap (C := C) ok h hid
  refine ⟨_, ?_, ok', hm⟩
  rw [CacheOps.call, C.load_eq ok h, PageClass.cast_wrap]
  exact zoom_ok hq

theorem returns_modify {id : ℕ} {g : T → T} {t : T} (h : m.view id = some (PageClass.wrap t))
    (hid : (PageClass.wrap (g t)).pageID = (PageClass.wrap t).pageID) :
    C.Returns (C.call id (change g)) m () (m.set id (PageClass.wrap (g t))) :=
  returns_call h rfl hid

theorem returns_call_const {id : ℕ} {q : Code T α} {t : T}
    (h : m.view id = some (PageClass.wrap t)) (hq : q t = .ok a t) :
    C.Returns (C.call id q) m a m := by
  have := returns_call (C := C) h hq rfl
  rwa [Mem.set_eq_self h] at this

theorem returns_insertPage (pg : Page) (h : pg.pageID < m.blocks) :
    C.Returns (C.insertPage pg) m () (m.set pg.pageID pg) := by
  intro s ok hs
  subst hs
  obtain ⟨s', hr, ok', hv, hn⟩ := C.insert_eq ok h
  exact ⟨s', hr, ok', Mem.ext hv hn⟩

theorem returns_createMultipleBlocks {n : ℕ} (hn : 0 < n)
    (h : m.blocks + n ≤ MAX_FSMPAGES * FSMPage.getBlocksInPage) :
    C.Returns (C.createMultipleBlocks n) m m.blocks { m with blocks := m.blocks + n } := by
  intro s ok hs
  subst hs
  obtain ⟨s', hr, ok', hv, hn⟩ := C.grow_eq ok hn h
  exact ⟨s', hr, ok', Mem.ext hv hn⟩

/-- A program returns from a state as it does from the memory of that state. -/
theorem Returns.start {s : σ} (ok : C.Ok s) (h : C.Returns p (C.mem s) a m') :
    ∃ s', p s = .ok a s' ∧ C.Ok s' ∧ C.mem s' = m' := h s ok rfl

theorem Returns.ok_iff {s : σ} {b : α} (ok : C.Ok s) (h : C.Returns p (C.mem s) a m') :
    (∃ s', p s = .ok b s') ↔ b = a := by
  obtain ⟨t, hrun, -⟩ := h.start ok
  constructor
  · rintro ⟨s', hs'⟩
    rw [hrun] at hs'
    cases hs'
    rfl
  · rintro rfl
    exact ⟨t, hrun⟩

end LawfulCache
end Kndb
