import Kndb.Library.Program

namespace Imp

variable {ε σ τ α β : Type} {R : σ → τ → Prop}

/-- The same end, with related states. -/
inductive Outcome.Rel (R : σ → τ → Prop) : Outcome ε σ α → Outcome ε τ α → Prop
  | ok {a : α} {s : σ} {t : τ} : R s t → Rel R (.ok a s) (.ok a t)
  | throw {e : ε} {s : σ} {t : τ} : R s t → Rel R (.throw e s) (.throw e t)
  | abort (m : String) : Rel R (.abort m) (.abort m)
  | timeout : Rel R .timeout .timeout

theorem Outcome.Rel.answer {o : Outcome ε σ α} {x : Except ε α} {t : τ} (h : o.Rel R (.answer x t)) :
    ∃ s, o = .answer x s ∧ R s t := by
  cases x with
  | ok a =>
    cases h with
    | ok hs => exact ⟨_, rfl, hs⟩
  | error e =>
    cases h with
    | throw hs => exact ⟨_, rfl, hs⟩

theorem Outcome.Rel.symm {o : Outcome ε σ α} {o' : Outcome ε τ α} (h : o.Rel R o') : o'.Rel (fun t s => R s t) o := by
  cases h with
  | ok hs => exact .ok hs
  | throw hs => exact .throw hs
  | abort m => exact .abort m
  | timeout => exact .timeout

namespace Prog

/-- What a program answers, be it an exception, after which the caller goes on. -/
def attempt (p : Prog ε σ α) : Prog ε σ (Except ε α) := fun s =>
  match p s with
  | .ok a s' => .ok (.ok a) s'
  | .throw e s' => .ok (.error e) s'
  | .abort m => .abort m
  | .timeout => .timeout

def Lockstep (R : σ → τ → Prop) (p : Prog ε σ α) (q : Prog ε τ α) : Prop := ∀ ⦃s t⦄, R s t → (p s).Rel R (q t)

section Rules

variable {p : Prog ε σ α} {q : Prog ε τ α} {f : α → Prog ε σ β} {g : α → Prog ε τ β}

theorem lockstep_pure (a : α) : Lockstep R (pure a : Prog ε σ α) (pure a) := fun _ _ h => .ok h

theorem lockstep_raise (e : ε) : Lockstep R (raise e : Prog ε σ α) (raise e) := fun _ _ h => .throw h

theorem lockstep_halt (m : String) : Lockstep R (halt m : Prog ε σ α) (halt m) := fun _ _ _ => .abort m

theorem lockstep_outOfFuel : Lockstep R (outOfFuel : Prog ε σ α) outOfFuel := fun _ _ _ => .timeout

theorem lockstep_gets {k : σ → α} {l : τ → α} (h : ∀ s t, R s t → k s = l t) :
    Lockstep R (gets k : Prog ε σ α) (gets l) := by
  intro s t hs
  rw [gets, gets, h s t hs]
  exact .ok hs

theorem lockstep_change {k : σ → σ} {l : τ → τ} (h : ∀ s t, R s t → R (k s) (l t)) :
    Lockstep R (change k : Prog ε σ Unit) (change l) := fun s t hs => .ok (h s t hs)

theorem lockstep_require (b : Bool) (m : String) : Lockstep R (require b m : Prog ε σ Unit) (require b m) := by
  intro s t hs
  cases b with
  | true => exact .ok hs
  | false => exact .abort m

theorem lockstep_at? (l : List α) (i : ℕ) : Lockstep R (at? l i : Prog ε σ α) (at? l i) := by
  intro s t hs
  rw [at?, at?]
  cases l[i]? with
  | some a => exact .ok hs
  | none => exact .abort _

/-- Both go on from where their first parts have returned. -/
theorem rel_bind {s : σ} {t : τ} (h : (p s).Rel R (q t))
    (hfg : ∀ a s' t', p s = .ok a s' → R s' t' → (f a s').Rel R (g a t')) : ((p >>= f) s).Rel R ((q >>= g) t) := by
  rw [bind_apply, bind_apply, seq, seq]
  generalize hp : p s = o at h
  generalize q t = o' at h
  cases h with
  | ok hs => exact hfg _ _ _ hp hs
  | throw hs => exact .throw hs
  | abort m => exact .abort m
  | timeout => exact .timeout

theorem Lockstep.bind (h : Lockstep R p q) (hfg : ∀ a, Lockstep R (f a) (g a)) : Lockstep R (p >>= f) (q >>= g) :=
  fun _ _ hs => rel_bind (h hs) fun a _ _ _ hs' => hfg a hs'

theorem Lockstep.map (h : Lockstep R p q) (k : α → β) :
    Lockstep R (p >>= fun a => pure (k a)) (q >>= fun a => pure (k a)) := h.bind fun a => lockstep_pure (k a)

theorem Lockstep.ite {c : Prop} [Decidable c] {p' : Prog ε σ α} {q' : Prog ε τ α} (h : Lockstep R p q)
    (h' : Lockstep R p' q') : Lockstep R (if c then p else p') (if c then q else q') := by
  split
  · exact h
  · exact h'

theorem Lockstep.guard {c : Prop} [Decidable c] {e : ε} {f : Unit → Prog ε σ α} {g : Unit → Prog ε τ α}
    (h : Lockstep R (f ()) (g ())) :
    Lockstep R (if c then raise e >>= f else f ()) (if c then raise e >>= g else g ()) :=
  .ite (fun _ _ hs => .throw hs) h

theorem Lockstep.attempt (h : Lockstep R p q) : Lockstep R p.attempt q.attempt := by
  intro s t hs
  have hrel := h hs
  rw [Prog.attempt, Prog.attempt]
  generalize p s = o at hrel
  generalize q t = o' at hrel
  cases hrel with
  | ok hs => exact .ok hs
  | throw hs => exact .ok hs
  | abort m => exact .abort m
  | timeout => exact .timeout

theorem Lockstep.zoom {υ ρ : Type} {S : υ → ρ → Prop} {get : υ → σ} {put : σ → υ → υ} {get' : ρ → τ}
    {put' : τ → ρ → ρ} (h : Lockstep R p q) (hget : ∀ x y, S x y → R (get x) (get' y))
    (hput : ∀ x y s t, S x y → R s t → S (put s x) (put' t y)) : Lockstep S (p.zoom get put) (q.zoom get' put') := by
  intro x y hxy
  have hrel := h (hget x y hxy)
  rw [Prog.zoom, Prog.zoom]
  generalize p (get x) = o at hrel
  generalize q (get' y) = o' at hrel
  cases hrel with
  | ok hs => exact .ok (hput _ _ _ _ hxy hs)
  | throw hs => exact .throw (hput _ _ _ _ hxy hs)
  | abort m => exact .abort m
  | timeout => exact .timeout

end Rules
end Prog
end Imp
