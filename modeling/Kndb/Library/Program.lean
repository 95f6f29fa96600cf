import Mathlib.Logic.Basic
import Mathlib.Tactic.Common

/-!
# Imperative programs with exceptions, aborts and fuel

A program over a state `σ` either returns a value, throws an exception and leaves a state
behind, aborts the process, or does not end within the fuel it was given.  `wp` is the weakest
precondition: `Q` for the returned states, `R` for the states an exception leaves behind, and `A`
says which of the other two ends may occur.
-/

namespace Imp

/-- How a program over the state `σ` ends. -/
inductive Outcome (ε σ α : Type) where
  | ok (value : α) (state : σ)
  | throw (error : ε) (state : σ)
  | abort (message : String)
  | timeout
deriving DecidableEq

/-- The two ends that leave no state behind. -/
inductive Stop where
  | abort
  | timeout
deriving DecidableEq

/-- The outcome with a given answer, which is a value or an exception. -/
def Outcome.answer {ε σ α : Type} : Except ε α → σ → Outcome ε σ α
  | .ok a, s => .ok a s
  | .error e, s => .throw e s

theorem Outcome.answer_inj {ε σ α : Type} {s s' : σ} {x x' : Except ε α}
    (h : (.answer x s : Outcome ε σ α) = .answer x' s') : x = x' ∧ s = s' := by
  cases x <;> cases x' <;> cases h <;> exact ⟨rfl, rfl⟩

theorem Outcome.answer_of_ok {ε σ α : Type} {s s' : σ} {a : α} {x : Except ε α}
    (h : (.ok a s : Outcome ε σ α) = .answer x s') : x = .ok a ∧ s' = s := by
  cases x with
  | ok b =>
    cases h
    exact ⟨rfl, rfl⟩
  | error e => cases h

theorem Outcome.answer_of_throw {ε σ α : Type} {s s' : σ} {e : ε} {x : Except ε α}
    (h : (.throw e s : Outcome ε σ α) = .answer x s') : x = .error e ∧ s' = s := by
  cases x with
  | ok a => cases h
  | error e' =>
    cases h
    exact ⟨rfl, rfl⟩

theorem Outcome.answer_ne_timeout {ε σ α : Type} {s : σ} {x : Except ε α} :
    (.answer x s : Outcome ε σ α) ≠ .timeout := by
  cases x <;> exact nofun

theorem Outcome.answer_ne_abort {ε σ α : Type} {s : σ} {x : Except ε α} {m : String} :
    (.answer x s : Outcome ε σ α) ≠ .abort m := by
  cases x <;> exact nofun

def Outcome.value? {ε σ α : Type} : Outcome ε σ α → Option α
  | .ok a _ => some a
  | _ => none

def Outcome.stateD {ε σ α : Type} (s : σ) : Outcome ε σ α → σ
  | .ok _ s' => s'
  | .throw _ s' => s'
  | _ => s

theorem Outcome.eq_ok {ε σ α : Type} {o : Outcome ε σ α} {a : α} (h : o.value? = some a) (s : σ) :
    o = .ok a (o.stateD s) := by
  cases o <;> cases h
  rfl

def Prog (ε σ α : Type) : Type := σ → Outcome ε σ α

variable {ε σ τ α β : Type}

namespace Prog

def ret (a : α) : Prog ε σ α := fun s => .ok a s

def seq (p : Prog ε σ α) (f : α → Prog ε σ β) : Prog ε σ β := fun s =>
  match p s with
  | .ok a s' => f a s'
  | .throw e s' => .throw e s'
  | .abort m => .abort m
  | .timeout => .timeout

instance : Monad (Prog ε σ) where
  pure := ret
  bind := seq

def raise (e : ε) : Prog ε σ α := fun s => .throw e s

def halt (m : String) : Prog ε σ α := fun _ => .abort m

def outOfFuel : Prog ε σ α := fun _ => .timeout

def gets (f : σ → α) : Prog ε σ α := fun s => .ok (f s) s

def change (f : σ → σ) : Prog ε σ Unit := fun s => .ok () (f s)

/-- Stop the process unless `b`. -/
def require (b : Bool) (m : String) : Prog ε σ Unit := fun s =>
  if b then .ok () s else .abort m

/-- Run a program on a part of a larger state.  An exception keeps the changes to the part. -/
def zoom (get : τ → σ) (put : σ → τ → τ) (p : Prog ε σ α) : Prog ε τ α := fun t =>
  match p (get t) with
  | .ok a s => .ok a (put s t)
  | .throw e s => .throw e (put s t)
  | .abort m => .abort m
  | .timeout => .timeout

def at? (l : List α) (i : ℕ) : Prog ε σ α := fun s =>
  match l[i]? with
  | some a => .ok a s
  | none => .abort "index out of range"

/-- The weakest precondition. -/
def wp (p : Prog ε σ α) (s : σ) (Q : α → σ → Prop) (R : ε → σ → Prop) (A : Stop → Prop) :
    Prop :=
  match p s with
  | .ok a s' => Q a s'
  | .throw e s' => R e s'
  | .abort _ => A .abort
  | .timeout => A .timeout

section Rules

variable {p : Prog ε σ α} {f : α → Prog ε σ β} {s : σ}
variable {Q Q' : α → σ → Prop} {R R' : ε → σ → Prop} {A A' : Stop → Prop}

theorem bind_apply : (p >>= f) s = p.seq f s := rfl

theorem bind_ok {a : α} {s' : σ} (h : p s = .ok a s') : (p >>= f) s = f a s' := by
  rw [bind_apply, seq, h]

theorem ok_of_bind {b : β} {s' : σ} (h : (p >>= f) s = .ok b s') :
    ∃ a t, p s = .ok a t ∧ f a t = .ok b s' := by
  rw [bind_apply, seq] at h
  split at h
  · exact ⟨_, _, ‹_›, h⟩
  all_goals cases h

/-- What comes next only matters where the first part has returned. -/
theorem bind_congr_of_ok {g : α → Prog ε σ β} (h : ∀ a t, p s = .ok a t → f a t = g a t) :
    (p >>= f) s = (p >>= g) s := by
  rw [bind_apply, bind_apply, seq, seq]
  cases hp : p s with
  | ok a t => exact h a t hp
  | _ => rfl

theorem ok_of_map {g : α → β} {b : β} {s' : σ} (h : (p >>= fun a => pure (g a)) s = .ok b s') :
    ∃ a, p s = .ok a s' ∧ b = g a := by
  obtain ⟨a, t, hp, ht⟩ := ok_of_bind h
  cases ht
  exact ⟨a, hp, rfl⟩

theorem timeout_of_map {g : α → β} (h : (p >>= fun a => pure (g a)) s = .timeout) : p s = .timeout := by
  rw [bind_apply, seq] at h
  split at h
  · cases h
  · cases h
  · cases h
  · assumption

theorem map_map {γ : Type} (g : α → β) (f : β → γ) :
    ((p >>= fun a => pure (g a)) >>= fun b => pure (f b)) = p >>= fun a => pure (f (g a)) := by
  funext s
  rw [bind_apply, bind_apply, seq, bind_apply, seq, seq]
  cases p s <;> rfl

theorem throw_of_map {g : α → β} {e : ε} {s' : σ} (h : (p >>= fun a => pure (g a)) s = .throw e s') :
    p s = .throw e s' := by
  rw [bind_apply, seq] at h
  split at h
  · cases h
  · cases h
    assumption
  all_goals cases h

theorem require_ok {b : Bool} (m : String) (s : σ) (h : b = true) :
    (require b m : Prog ε σ Unit) s = .ok () s := if_pos h

theorem ok_of_require {b : Bool} {m : String} {f : Unit → Prog ε σ β} {a : β} {s' : σ}
    (h : (require b m >>= f) s = .ok a s') : b = true ∧ f () s = .ok a s' := by
  cases b with
  | true => exact ⟨rfl, h⟩
  | false => cases h

theorem zoom_ok {get : τ → σ} {put : σ → τ → τ} {t : τ} {a : α} {s' : σ} (h : p (get t) = .ok a s') :
    p.zoom get put t = .ok a (put s' t) := by
  rw [zoom, h]

theorem zoom_throw {get : τ → σ} {put : σ → τ → τ} {t : τ} {e : ε} {s' : σ} (h : p (get t) = .throw e s') :
    p.zoom get put t = .throw e (put s' t) := by
  rw [zoom, h]

theorem wp_mono (h : p.wp s Q R A) (hQ : ∀ a s', Q a s' → Q' a s') (hR : ∀ e s', R e s' → R' e s')
    (hA : ∀ x, A x → A' x) : p.wp s Q' R' A' := by
  unfold wp at *
  split <;> simp_all

theorem wp_of_forall (hQ : ∀ a s', Q a s') (hR : ∀ e s', R e s') (hA : ∀ x, A x) : p.wp s Q R A := by
  unfold wp
  split
  · exact hQ ..
  · exact hR ..
  · exact hA _
  · exact hA _

theorem wp_bind {Q : β → σ → Prop} :
    (p >>= f).wp s Q R A ↔ p.wp s (fun a s' => (f a).wp s' Q R A) R A := by
  unfold wp
  rw [bind_apply, seq]
  cases p s <;> rfl

theorem wp_bind_of_forall {Q : β → σ → Prop}
    (hf : ∀ a s', (f a).wp s' Q (fun _ _ => True) fun _ => True) :
    (p >>= f).wp s Q (fun _ _ => True) fun _ => True := by
  rw [wp_bind]
  unfold wp
  split
  · exact hf ..
  all_goals exact trivial

@[simp] theorem wp_pure (a : α) : (pure a : Prog ε σ α).wp s Q R A ↔ Q a s := Iff.rfl

@[simp] theorem wp_raise (e : ε) : (raise e : Prog ε σ α).wp s Q R A ↔ R e s := Iff.rfl

@[simp] theorem wp_halt (m : String) : (halt m : Prog ε σ α).wp s Q R A ↔ A .abort := Iff.rfl

@[simp] theorem wp_outOfFuel : (outOfFuel : Prog ε σ α).wp s Q R A ↔ A .timeout := Iff.rfl

@[simp] theorem wp_gets (g : σ → α) : (gets g : Prog ε σ α).wp s Q R A ↔ Q (g s) s := Iff.rfl

@[simp] theorem wp_change (g : σ → σ) {Q : Unit → σ → Prop} :
    (change g : Prog ε σ Unit).wp s Q R A ↔ Q () (g s) := Iff.rfl

theorem wp_require (b : Bool) (m : String) {Q : Unit → σ → Prop} :
    (require b m : Prog ε σ Unit).wp s Q R A ↔ (b = true → Q () s) ∧ (b = false → A .abort) := by
  cases b <;> simp [wp, require]

theorem wp_zoom {get : τ → σ} {put : σ → τ → τ} {t : τ} {Q : α → τ → Prop} {R : ε → τ → Prop} :
    (p.zoom get put).wp t Q R A ↔
      p.wp (get t) (fun a s' => Q a (put s' t)) (fun e s' => R e (put s' t)) A := by
  unfold wp zoom
  cases p (get t) <;> rfl

theorem wp_of_ok {a : α} {s' : σ} (h : p s = .ok a s') : p.wp s Q R A ↔ Q a s' := by
  unfold wp
  rw [h]

theorem wp_of_throw {e : ε} {s' : σ} (h : p s = .throw e s') : p.wp s Q R A ↔ R e s' := by
  unfold wp
  rw [h]

theorem wp_of_abort {m : String} (h : p s = .abort m) : p.wp s Q R A ↔ A .abort := by
  unfold wp
  rw [h]

theorem wp_congr {q : Prog ε σ α} {s' : σ} (h : p s = q s') : p.wp s Q R A ↔ q.wp s' Q R A := by
  unfold wp
  rw [h]

theorem wp_at? {l : List α} {i : ℕ} :
    (at? l i : Prog ε σ α).wp s Q R A ↔ (∀ a, l[i]? = some a → Q a s) ∧ (l[i]? = none → A .abort) := by
  unfold wp at?
  cases l[i]? <;> simp

theorem ok_of_wp (h : p.wp s Q (fun _ _ => False) fun _ => False) : ∃ a s', p s = .ok a s' ∧ Q a s' := by
  unfold wp at h
  split at h <;> simp_all

theorem ok_or_throw_of_wp (h : p.wp s Q R fun _ => False) :
    (∃ a s', p s = .ok a s' ∧ Q a s') ∨ ∃ e s', p s = .throw e s' ∧ R e s' := by
  unfold wp at h
  split at h <;> simp_all

theorem abort_of_wp (h : p.wp s (fun _ _ => False) (fun _ _ => False) (· = .abort)) :
    ∃ m, p s = .abort m := by
  unfold wp at h
  split at h <;> simp_all

theorem timeout_of_wp (h : p.wp s (fun _ _ => False) (fun _ _ => False) (· = .timeout)) :
    p s = .timeout := by
  unfold wp at h
  split at h <;> simp_all

theorem ne_timeout_of_wp (h : p.wp s Q R A) (hA : ¬A .timeout) : p s ≠ .timeout := by
  intro ht
  unfold wp at h
  rw [ht] at h
  exact hA h

end Rules

/-- Where `p` ends, `q` does the same. -/
def Approx (p q : Prog ε σ α) : Prop := ∀ s, p s = .timeout ∨ p s = q s

section Approx

variable {p q r : Prog ε σ α} {s : σ}

theorem Approx.refl (p : Prog ε σ α) : Approx p p := fun _ => .inr rfl

theorem approx_outOfFuel (p : Prog ε σ α) : Approx outOfFuel p := fun _ => .inl rfl

theorem Approx.bind {f g : α → Prog ε σ β} (h : Approx p q) (hf : ∀ a, Approx (f a) (g a)) :
    Approx (p >>= f) (q >>= g) := by
  intro s
  rw [bind_apply, bind_apply, seq, seq]
  rcases h s with ht | he
  · exact .inl (by rw [ht])
  · rw [← he]
    rcases p s with ⟨a, s'⟩ | _ | _ | _
    · exact hf a s'
    · exact .inr rfl
    · exact .inr rfl
    · exact .inl rfl

theorem Approx.ite {c : Prop} [Decidable c] {p' q' : Prog ε σ α} (h : Approx p q)
    (h' : Approx p' q') : Approx (if c then p else p') (if c then q else q') := by
  split
  · exact h
  · exact h'

theorem Approx.zoom {get : τ → σ} {put : σ → τ → τ} (h : Approx p q) :
    Approx (p.zoom get put) (q.zoom get put) := by
  intro t
  rcases h (get t) with ht | he
  · exact .inl (by rw [Prog.zoom, ht])
  · exact .inr (by rw [Prog.zoom, Prog.zoom, he])

/-- A program that ends is not changed by more fuel. -/
theorem Approx.eq (h : Approx p q) (hne : p s ≠ .timeout) : q s = p s :=
  ((h s).resolve_left hne).symm

theorem eq_of_approx {f : ℕ → Prog ε σ α} (hf : ∀ m n, m ≤ n → Approx (f m) (f n)) {m n : ℕ}
    (hm : f m s ≠ .timeout) (hn : f n s ≠ .timeout) : f m s = f n s := by
  rcases Nat.le_total m n with h | h
  · exact ((hf m n h).eq hm).symm
  · exact (hf n m h).eq hn

end Approx

end Prog
end Imp
