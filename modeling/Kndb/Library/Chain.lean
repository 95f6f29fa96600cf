import Mathlib.Data.List.Nodup
import Mathlib.Logic.Function.Basic

namespace Chain

variable {α : Type} {next next' : α → α} {stop p q : α} {l l' : List α}

/-- Following `next` from `p` visits the elements of `l`, in order, and then reaches `stop`. -/
def Follows (next : α → α) (stop : α) : α → List α → Prop
  | p, [] => p = stop
  | p, q :: l => p = q ∧ q ≠ stop ∧ Follows next stop (next q) l

theorem Follows.congr (h : Follows next stop p l) (hl : ∀ q ∈ l, next' q = next q) :
    Follows next' stop p l := by
  induction l generalizing p with
  | nil => exact h
  | cons q l ih =>
    obtain ⟨hp, hq, htail⟩ := h
    refine ⟨hp, hq, ?_⟩
    rw [hl q (by simp)]
    exact ih htail fun r hr => hl r (by simp [hr])

theorem Follows.eq_stop_iff (h : Follows next stop p l) : p = stop ↔ l = [] := by
  cases l with
  | nil => exact iff_of_true h rfl
  | cons q l =>
    refine iff_of_false ?_ (by simp)
    rw [h.1]
    exact h.2.1

/-- A chain with a start of its own: `head` is an element outside the list whose pointer is where
the list begins. -/
def Lists (next : α → α) (head stop : α) (l : List α) : Prop :=
  l.Nodup ∧ head ∉ l ∧ Follows next stop (next head) l

section Lists

variable {head : α}

theorem Lists.congr (h : Lists next head stop l) (hhead : next' head = next head)
    (hl : ∀ q ∈ l, next' q = next q) : Lists next' head stop l :=
  ⟨h.1, h.2.1, by
    rw [hhead]
    exact h.2.2.congr hl⟩

variable [DecidableEq α]

theorem Lists.push (h : Lists next head stop l) (hq : q ∉ l) (hne : q ≠ head) (hstop : q ≠ stop) :
    Lists (Function.update (Function.update next head q) q (next head)) head stop (q :: l) := by
  obtain ⟨hnodup, hhead, hfollows⟩ := h
  refine ⟨List.nodup_cons.mpr ⟨hq, hnodup⟩, ?_, ?_⟩
  · intro hmem
    rcases List.mem_cons.mp hmem with rfl | hmem
    · exact hne rfl
    · exact hhead hmem
  · rw [Function.update_of_ne hne.symm, Function.update_self]
    refine ⟨rfl, hstop, ?_⟩
    rw [Function.update_self]
    apply hfollows.congr
    intro r hr
    rw [Function.update_of_ne (ne_of_mem_of_not_mem hr hq),
      Function.update_of_ne (ne_of_mem_of_not_mem hr hhead)]

theorem Lists.pop (h : Lists next head stop (q :: l)) :
    Lists (Function.update next head (next q)) head stop l := by
  obtain ⟨hnodup, hhead, -, -, hfollows⟩ := h
  refine ⟨(List.nodup_cons.mp hnodup).2, fun hmem => hhead (by simp [hmem]), ?_⟩
  rw [Function.update_self]
  apply hfollows.congr
  intro r hr
  apply Function.update_of_ne
  rintro rfl
  exact hhead (List.mem_cons_of_mem _ hr)

end Lists

end Chain
