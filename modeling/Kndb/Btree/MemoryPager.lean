import Kndb.Btree.Session

namespace Kndb.Btree

variable {T : Type}

structure Memory (T : Type) where
  pages : List (BtreeNodePage T)
  left : Option ℕ
deriving DecidableEq

namespace Memory

def getPage (id : ℕ) : Code (Memory T) ℕ := fun s =>
  if id < s.pages.length then .ok id s else .throw (.runtimeError "no such page") s

def createNewPage (mk : ℕ → BtreeNodePage T) : Code (Memory T) ℕ := fun s =>
  match s.left with
  | some 0 => .throw (.runtimeError "no page left") s
  | left => .ok s.pages.length ⟨s.pages ++ [mk s.pages.length], left.map (· - 1)⟩

def load (id : ℕ) (s : Memory T) : BtreeNodePage T :=
  s.pages[id]?.getD (.new 0 0 false false 0)

def store (id : ℕ) (n : BtreeNodePage T) (s : Memory T) : Memory T :=
  { s with pages := s.pages.set id n }

def avail (s : Memory T) : ℕ∞ := s.left.elim ⊤ fun n => n

def Ok (s : Memory T) : Prop :=
  ∀ (id : ℕ) (n : BtreeNodePage T), s.pages[id]? = some n → n.pageID = id

theorem set_getElem? {s : Memory T} {id : ℕ} {n : BtreeNodePage T} (hn : s.pages[id]? = some n)
    (n' : BtreeNodePage T) :
    (fun q => (s.pages.set id n')[q]?) = Function.update (fun q => s.pages[q]?) id (some n') := by
  obtain ⟨hlt, -⟩ := List.getElem?_eq_some_iff.mp hn
  funext q
  by_cases hq : q = id
  · subst hq
    simp [hlt]
  · rw [Function.update_of_ne hq, List.getElem?_set_ne (Ne.symm hq)]

theorem append_getElem? (s : Memory T) (n : BtreeNodePage T) :
    (fun q => (s.pages ++ [n])[q]?) =
      Function.update (fun q => s.pages[q]?) s.pages.length (some n) := by
  funext q
  by_cases hq : q = s.pages.length
  · subst hq
    simp
  · rw [Function.update_of_ne hq]
    rcases Nat.lt_or_gt_of_ne hq with hlt | hgt
    · exact List.getElem?_append_left hlt
    · rw [List.getElem?_eq_none (by simp; omega), List.getElem?_eq_none (by omega)]

theorem create_cases (mk : ℕ → BtreeNodePage T) (s : Memory T) :
    (s.avail = 0 ∧ createNewPage mk s = .throw (.runtimeError "no page left") s) ∨
      ∃ left, createNewPage mk s = .ok s.pages.length ⟨s.pages ++ [mk s.pages.length], left⟩ ∧
        s.avail = avail ⟨s.pages ++ [mk s.pages.length], left⟩ + 1 := by
  rcases s with ⟨pages, _ | _ | n⟩
  · exact .inr ⟨none, rfl, rfl⟩
  · exact .inl ⟨rfl, rfl⟩
  · exact .inr ⟨some n, rfl, by simp [avail]⟩

end Memory

open Memory in
def memoryPager : LawfulPager (Memory T) T where
  getPage := getPage
  createNewPage := createNewPage
  load := load
  store := store
  Ok := Memory.Ok
  view s id := s.pages[id]?
  avail := Memory.avail
  Full _ := True
  Frame _ _ := True
  frame_refl _ := trivial
  frame_trans _ _ := trivial
  pageID_eq ok hn := ok _ _ hn
  getPage_eq {s id n} ok hn :=
    ⟨s, if_pos (List.getElem?_eq_some_iff.mp hn).1, ok, rfl, rfl, trivial⟩
  load_eq _ hn := by rw [load, hn, Option.getD_some]
  store_ok {s id n n'} ok hn hid q m hm := by
    have := congrFun (set_getElem? hn n') q
    rw [show (s.pages.set id n')[q]? = some m from hm] at this
    by_cases hq : q = id
    · rw [hq, Function.update_self, Option.some.injEq] at this
      rw [this, hid, hq]
    · rw [Function.update_of_ne hq] at this
      exact ok q m this.symm
  store_view _ hn _ := set_getElem? hn _
  store_avail _ _ _ := rfl
  store_frame _ _ _ := trivial
  create_some {s} mk ok hmk ha := by
    obtain ⟨h0, -⟩ | ⟨left, hc, hav⟩ := create_cases mk s
    · exact absurd h0 ha
    have hview := append_getElem? s (mk s.pages.length)
    refine ⟨_, _, hc, fun q m hm => ?_, List.getElem?_eq_none le_rfl, hview, hav, trivial⟩
    have hq := congrFun hview q
    rw [show (s.pages ++ [mk s.pages.length])[q]? = some m from hm] at hq
    by_cases he : q = s.pages.length
    · rw [he, Function.update_self, Option.some.injEq] at hq
      rw [hq, hmk, he]
    · rw [Function.update_of_ne he] at hq
      exact ok q m hq.symm
  create_none {s} mk ok ha := by
    obtain ⟨-, hc⟩ | ⟨left, -, hav⟩ := create_cases mk s
    · exact ⟨_, s, hc, trivial, ok, rfl, ha, trivial⟩
    · exact absurd (hav.symm.trans ha) (by simp)

def emptyMemory (T : Type) (t : ℕ) (left : Option ℕ) : BtreeState (Memory T) :=
  ⟨⟨[.new t PGID_INVALID true true 0], left⟩, 0⟩

theorem emptyTree_emptyMemory (t : ℕ) (left : Option ℕ) :
    EmptyTree memoryPager t (emptyMemory T t left) := by
  refine ⟨fun id n hn => ?_, PGID_INVALID, rfl⟩
  rcases id with _ | id
  · obtain rfl : BtreeNodePage.new t PGID_INVALID true true 0 = n := by simpa [emptyMemory] using hn
    rfl
  · simp [emptyMemory] at hn

end Kndb.Btree
