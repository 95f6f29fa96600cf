import Mathlib.Algebra.GroupWithZero.Nat
import Mathlib.Order.Lattice
import Mathlib.Data.List.Pairwise
import Mathlib.Tactic.Common

namespace Ascending

variable {α β κ : Type*}

/-- In-order interleaving: `l₀ ++ c₀ :: l₁ ++ c₁ :: … ++ lₙ`. -/
def weave : List (List β) → List β → List β
  | [], _ => []
  | l :: _, [] => l
  | l :: ls, c :: cs => l ++ c :: weave ls cs

theorem map_weave {γ : Type*} (f : β → γ) (ls : List (List β)) (cs : List β) :
    (weave ls cs).map f = weave (ls.map (List.map f)) (cs.map f) := by
  induction ls generalizing cs with
  | nil => rfl
  | cons l ls ih =>
    cases cs with
    | nil => rfl
    | cons c cs => simp [weave, ih]

theorem mem_weave {x : β} (f : κ → List β) (kids : List κ) (cs : List β)
    (hlen : kids.length = cs.length + 1) :
    x ∈ weave (kids.map f) cs ↔ x ∈ cs ∨ ∃ k ∈ kids, x ∈ f k := by
  induction kids generalizing cs with
  | nil => simp at hlen
  | cons k kids ih =>
    cases cs with
    | nil =>
      obtain rfl : kids = [] := List.length_eq_zero_iff.mp (by simpa using hlen)
      simp [weave]
    | cons c cs =>
      have h := ih cs (by simpa using hlen)
      simp only [List.map_cons, weave, List.mem_append, List.mem_cons, h]
      constructor
      · rintro (h | h | h | ⟨k', hk', h⟩)
        · exact .inr ⟨k, .inl rfl, h⟩
        · exact .inl (.inl h)
        · exact .inl (.inr h)
        · exact .inr ⟨k', .inr hk', h⟩
      · rintro ((h | h) | ⟨k', rfl | hk', h⟩)
        · exact .inr (.inl h)
        · exact .inr (.inr (.inl h))
        · exact .inl h
        · exact .inr (.inr (.inr ⟨k', hk', h⟩))

theorem length_weave (f : κ → List β) (kids : List κ) (cs : List β) (hlen : kids.length = cs.length + 1) :
    (weave (kids.map f) cs).length = cs.length + (kids.map fun k => (f k).length).sum := by
  induction kids generalizing cs with
  | nil => simp at hlen
  | cons k kids ih =>
    cases cs with
    | nil =>
      obtain rfl : kids = [] := List.length_eq_zero_iff.mp (by simpa using hlen)
      simp [weave]
    | cons c cs =>
      have h := ih cs (by simpa using hlen)
      simp only [List.map_cons, weave, List.length_append, List.length_cons, List.sum_cons, h]
      omega

theorem mul_le_length_weave {m : ℕ} (f : κ → List β) (kids : List κ) (cs : List β)
    (hlen : kids.length = cs.length + 1) (h : ∀ k ∈ kids, m ≤ (f k).length + 1) :
    kids.length * m ≤ (weave (kids.map f) cs).length + 1 := by
  induction kids generalizing cs with
  | nil => simp at hlen
  | cons k kids ih =>
    have hk := h k (List.mem_cons_self ..)
    cases cs with
    | nil =>
      obtain rfl : kids = [] := List.length_eq_zero_iff.mp (by simpa using hlen)
      simpa [weave] using hk
    | cons c cs =>
      have hkids := ih cs (by simpa using hlen) fun k' hk' => h k' (List.mem_cons_of_mem _ hk')
      simp only [List.map_cons, weave, List.length_append, List.length_cons, Nat.add_mul, Nat.one_mul]
      omega

theorem weave_append_cons (ls : List (List β)) (cs ds : List β) (c : β) (hlen : cs.length < ls.length) :
    weave ls (cs ++ c :: ds) = weave (ls.take (cs.length + 1)) cs ++ c :: weave (ls.drop (cs.length + 1)) ds := by
  induction cs generalizing ls with
  | nil =>
    obtain _ | ⟨l, ls⟩ := ls
    · simp at hlen
    · simp [weave]
  | cons c' cs ih =>
    obtain _ | ⟨l, ls⟩ := ls
    · simp at hlen
    · have h := ih ls (by simpa using hlen)
      simp only [List.cons_append, List.length_cons, List.take_succ_cons, List.drop_succ_cons, weave, h,
        List.append_assoc]

theorem weave_insert (as bs : List (List β)) (l r cs ds : List β) (c : β) (hlen : as.length = cs.length) :
    weave (as ++ l :: r :: bs) (cs ++ c :: ds) = weave (as ++ (l ++ c :: r) :: bs) (cs ++ ds) := by
  induction as generalizing cs with
  | nil =>
    obtain rfl : cs = [] := List.length_eq_zero_iff.mp hlen.symm
    cases ds <;> simp [weave]
  | cons a as ih =>
    obtain _ | ⟨c', cs⟩ := cs
    · simp at hlen
    · have h := ih cs (by simpa using hlen)
      simp only [List.cons_append, weave, h]

section Order

variable [LinearOrder α] {a b m x : α}

/-- `a < l₀ < l₁ < … < b`. -/
def Between (a b : α) (l : List α) : Prop := (a :: (l ++ [b])).Pairwise (· < ·)

@[simp] theorem between_nil : Between a b [] ↔ a < b := by simp [Between]

theorem Between.sorted {l : List α} (h : Between a b l) : l.Pairwise (· < ·) :=
  (List.pairwise_append.mp (List.pairwise_cons.mp h).2).1

theorem Between.lt {l : List α} (h : Between a b l) : a < b :=
  (List.pairwise_cons.mp h).1 b (by simp)

theorem Between.mem {l : List α} (h : Between a b l) (hx : x ∈ l) : a < x ∧ x < b :=
  ⟨(List.pairwise_cons.mp h).1 x (by simp [hx]),
    (List.pairwise_append.mp (List.pairwise_cons.mp h).2).2.2 x hx b (by simp)⟩

theorem between_iff {l : List α} :
    Between a b l ↔ a < b ∧ l.Pairwise (· < ·) ∧ ∀ x ∈ l, a < x ∧ x < b := by
  refine ⟨fun h => ⟨h.lt, h.sorted, fun x hx => h.mem hx⟩, ?_⟩
  rintro ⟨hab, hl, hm⟩
  refine List.pairwise_cons.mpr ⟨?_, List.pairwise_append.mpr ⟨hl, by simp, ?_⟩⟩
  · intro y hy
    rcases List.mem_append.mp hy with hy | hy
    · exact (hm y hy).1
    · rw [List.mem_singleton.mp hy]
      exact hab
  · intro y hy z hz
    rw [List.mem_singleton.mp hz]
    exact (hm y hy).2

/-- A list splits at any of its elements, which becomes the common bound. -/
theorem between_append_cons {l r : List α} :
    Between a b (l ++ m :: r) ↔ Between a m l ∧ Between m b r := by
  simp only [between_iff, List.pairwise_append, List.pairwise_cons, List.mem_append,
    List.mem_cons]
  constructor
  · rintro ⟨hab, ⟨hl, ⟨hmr, hr⟩, hlr⟩, hmem⟩
    refine ⟨⟨(hmem m (by simp)).1, hl, ?_⟩, (hmem m (by simp)).2, hr, ?_⟩
    · exact fun x hx => ⟨(hmem x (.inl hx)).1, hlr x hx m (.inl rfl)⟩
    · exact fun x hx => ⟨hmr x hx, (hmem x (.inr (.inr hx))).2⟩
  · rintro ⟨⟨ham, hl, hlm⟩, hmb, hr, hrm⟩
    refine ⟨ham.trans hmb, ⟨hl, ⟨fun x hx => (hrm x hx).1, hr⟩, ?_⟩, ?_⟩
    · rintro x hx y (rfl | hy)
      · exact (hlm x hx).2
      · exact ((hlm x hx).2).trans (hrm y hy).1
    · rintro x (hx | rfl | hx)
      · exact ⟨(hlm x hx).1, (hlm x hx).2.trans hmb⟩
      · exact ⟨ham, hmb⟩
      · exact ⟨ham.trans (hrm x hx).1, (hrm x hx).2⟩

theorem Between.insert_of_forall {l r : List α} (h : Between a b (l ++ r)) (ham : a < m)
    (hmb : m < b) (hl : ∀ x ∈ l, x < m) (hr : ∀ x ∈ r, m < x) : Between a b (l ++ m :: r) := by
  have hs := List.pairwise_append.mp h.sorted
  refine between_append_cons.mpr ⟨between_iff.mpr ⟨ham, hs.1, ?_⟩, between_iff.mpr ⟨hmb, hs.2.1, ?_⟩⟩
  · exact fun x hx => ⟨(h.mem (by simp [hx])).1, hl x hx⟩
  · exact fun x hx => ⟨hr x hx, (h.mem (by simp [hx])).2⟩

theorem Between.insert {l r l' r' : List α} {p q : α} (h : Between a b (l ++ r))
    (hl : a :: l = l' ++ [p]) (hr : r ++ [b] = q :: r') (hpm : p < m) (hmq : m < q) :
    Between a b (l ++ m :: r) := by
  have hleft : Between a m l := by
    rcases List.eq_nil_or_concat l with rfl | ⟨l₀, y, rfl⟩
    · obtain rfl : a = p := by
        cases l' <;> simp_all
      exact between_nil.mpr hpm
    · rw [List.concat_eq_append] at h hl ⊢
      obtain ⟨-, rfl⟩ : a :: l₀ = l' ∧ y = p := by
        rw [← List.cons_append] at hl
        simpa using List.append_inj' hl rfl
      rw [List.append_assoc, List.singleton_append, between_append_cons] at h
      rw [between_append_cons]
      exact ⟨h.1, between_nil.mpr hpm⟩
  have hright : Between m b r := by
    cases r with
    | nil =>
      obtain rfl : b = q := by simp_all
      exact between_nil.mpr hmq
    | cons y r =>
      obtain ⟨rfl, -⟩ : y = q ∧ r ++ [b] = r' := by simpa using hr
      rw [between_append_cons] at h
      exact between_append_cons (l := []).mpr ⟨between_nil.mpr hmq, h.2⟩
  exact between_append_cons.mpr ⟨hleft, hright⟩

variable {kids : List κ} {lo hi : κ → α} {cs : List α}

theorem kid_bounds (h : Between a b cs) (hlo : kids.map lo = a :: cs)
    (hhi : kids.map hi = cs ++ [b]) {k : κ} (hk : k ∈ kids) : a ≤ lo k ∧ hi k ≤ b := by
  have h1 : lo k ∈ a :: cs := hlo ▸ List.mem_map_of_mem hk
  have h2 : hi k ∈ cs ++ [b] := hhi ▸ List.mem_map_of_mem hk
  constructor
  · rcases List.mem_cons.mp h1 with h1 | h1
    · exact h1.ge
    · exact (h.mem h1).1.le
  · rcases List.mem_append.mp h2 with h2 | h2
    · exact (h.mem h2).2.le
    · exact (List.mem_singleton.mp h2).le

theorem kids_pairwise (h : Between a b cs) (hlo : kids.map lo = a :: cs)
    (hhi : kids.map hi = cs ++ [b]) : kids.Pairwise (fun k k' => hi k ≤ lo k') := by
  induction cs generalizing a kids with
  | nil =>
    obtain ⟨k, rfl, -⟩ := List.map_eq_singleton_iff.mp hlo
    simp
  | cons c cs ih =>
    obtain ⟨k, ks, rfl, rfl, hlo'⟩ := List.map_eq_cons_iff.mp hlo
    obtain ⟨rfl, hhi'⟩ : hi k = c ∧ ks.map hi = cs ++ [b] := by simpa using hhi
    have h' : Between (hi k) b cs := (between_append_cons (l := []).mp h).2
    refine List.pairwise_cons.mpr ⟨?_, ih h' hlo' hhi'⟩
    exact fun k' hk' => (kid_bounds h' hlo' hhi' hk').1

theorem kid_avoids (h : Between a b cs) (hlo : kids.map lo = a :: cs)
    (hhi : kids.map hi = cs ++ [b]) {k : κ} (hk : k ∈ kids) (hx : x ∈ cs) :
    x ≤ lo k ∨ hi k ≤ x := by
  induction cs generalizing a kids with
  | nil => simp at hx
  | cons c cs ih =>
    obtain ⟨k₀, ks, rfl, rfl, hlo'⟩ := List.map_eq_cons_iff.mp hlo
    obtain ⟨rfl, hhi'⟩ : hi k₀ = c ∧ ks.map hi = cs ++ [b] := by simpa using hhi
    have h' : Between (hi k₀) b cs := (between_append_cons (l := []).mp h).2
    rcases List.mem_cons.mp hk with rfl | hk
    · rcases List.mem_cons.mp hx with rfl | hx
      · exact .inr le_rfl
      · exact .inr (h'.mem hx).1.le
    · rcases List.mem_cons.mp hx with rfl | hx
      · exact .inl (kid_bounds h' hlo' hhi' hk).1
      · exact ih h' hlo' hhi' hk hx

theorem kid_unique (h : Between a b cs) (hlo : kids.map lo = a :: cs)
    (hhi : kids.map hi = cs ++ [b]) {k k' : κ} (hk : k ∈ kids) (hk' : k' ∈ kids)
    (hx : lo k < x ∧ x < hi k) (hx' : lo k' < x ∧ x < hi k') : k = k' := by
  have hp := kids_pairwise h hlo hhi
  have hall : k = k' ∨ hi k ≤ lo k' ∨ hi k' ≤ lo k :=
    List.Pairwise.forall_of_forall_of_flip (R := fun k k' => k = k' ∨ hi k ≤ lo k' ∨ hi k' ≤ lo k)
      (fun _ _ => .inl rfl) (hp.imp fun h => .inr (.inl h)) (hp.imp fun h => .inr (.inr h)) hk hk'
  rcases hall with h | h | h
  · exact h
  · exact absurd (hx.2.trans_le h) (not_lt.mpr hx'.1.le)
  · exact absurd (hx'.2.trans_le h) (not_lt.mpr hx.1.le)

/-- The traversal of the children is ascending when each child's is. -/
theorem between_weave (f : κ → List α) (h : Between a b cs) (hlo : kids.map lo = a :: cs)
    (hhi : kids.map hi = cs ++ [b]) (hf : ∀ k ∈ kids, Between (lo k) (hi k) (f k)) :
    Between a b (weave (kids.map f) cs) := by
  induction cs generalizing a kids with
  | nil =>
    obtain ⟨k, rfl, rfl⟩ := List.map_eq_singleton_iff.mp hlo
    obtain rfl : hi k = b := by simpa using hhi
    simpa [weave] using hf k (by simp)
  | cons c cs ih =>
    obtain ⟨k, ks, rfl, rfl, hlo'⟩ := List.map_eq_cons_iff.mp hlo
    obtain ⟨rfl, hhi'⟩ : hi k = c ∧ ks.map hi = cs ++ [b] := by simpa using hhi
    have h' : Between (hi k) b cs := (between_append_cons (l := []).mp h).2
    have hks := ih h' hlo' hhi' fun k' hk' => hf k' (by simp [hk'])
    exact between_append_cons.mpr ⟨hf k (by simp), hks⟩

omit [LinearOrder α] in
theorem kid_at {i : ℕ} {k : κ} (hlo : kids.map lo = a :: cs) (hhi : kids.map hi = cs ++ [b])
    (hk : kids[i]? = some k) : (a :: cs)[i]? = some (lo k) ∧ (cs ++ [b])[i]? = some (hi k) := by
  rw [← hlo, ← hhi]
  simp [hk]

end Order
end Ascending
