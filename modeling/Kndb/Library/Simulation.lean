import Kndb.Library.Program

/-!
# One program does what another one does

`Sim E p q s t Q R`: when `p` returns from the state `s`, so does `q` from the state `t`, and the values
and the states are related by `Q`.  When `p` throws an exception of `E`, so does `q`, and the states are
related by `R`.  Nothing is said about the other ways in which `p` may end.
-/

namespace Imp.Prog

variable {ε σ τ ρ υ α β γ δ : Type} {E : ε → Prop}

def Sim (E : ε → Prop) (p : Prog ε σ α) (q : Prog ε τ β) (s : σ) (t : τ) (Q : α → β → σ → τ → Prop)
    (R : σ → τ → Prop) : Prop :=
  p.wp s (fun a s' => ∃ b t', q t = .ok b t' ∧ Q a b s' t')
    (fun e s' => E e → ∃ t', q t = .throw e t' ∧ R s' t') fun _ => True

section Rules

variable {p : Prog ε σ α} {q : Prog ε τ β} {f : α → Prog ε σ γ} {g : β → Prog ε τ δ}
variable {s s' : σ} {t t' : τ} {a : α} {b : β} {Q : α → β → σ → τ → Prop} {R R' : σ → τ → Prop}

theorem sim_of_ok (hp : p s = .ok a s') (hq : q t = .ok b t') (h : Q a b s' t') : Sim E p q s t Q R :=
  (wp_of_ok hp).mpr ⟨b, t', hq, h⟩

theorem sim_of_abort {m : String} (hp : p s = .abort m) : Sim E p q s t Q R := (wp_of_abort hp).mpr trivial

theorem sim_of_timeout (hp : p s = .timeout) : Sim E p q s t Q R := by
  unfold Sim wp
  rw [hp]
  trivial

theorem sim_of_throw {e : ε} (hp : p s = .throw e s') (he : ¬E e) : Sim E p q s t Q R :=
  (wp_of_throw hp).mpr fun h => absurd h he

theorem sim_pure (h : Q a b s t) : Sim E (pure a : Prog ε σ α) (pure b : Prog ε τ β) s t Q R :=
  sim_of_ok rfl rfl h

theorem Sim.mono {Q' : α → β → σ → τ → Prop} (h : Sim E p q s t Q R)
    (hQ : ∀ a b s' t', Q a b s' t' → Q' a b s' t') (hR : ∀ s' t', R s' t' → R' s' t') :
    Sim E p q s t Q' R' := by
  apply wp_mono h
  · rintro a s' ⟨b, t', hq, hab⟩
    exact ⟨b, t', hq, hQ a b s' t' hab⟩
  · intro e s' hthrow he
    obtain ⟨t', hq, hr⟩ := hthrow he
    exact ⟨t', hq, hR s' t' hr⟩
  · exact fun _ _ => trivial

theorem Sim.and {Q₁ : α → σ → Prop} {R₁ : ε → σ → Prop} {A : Stop → Prop} (h : Sim E p q s t Q R)
    (hp : p.wp s Q₁ R₁ A) : Sim E p q s t (fun a b s' t' => Q₁ a s' ∧ Q a b s' t') R := by
  unfold Sim at h
  rcases hrun : p s with ⟨a, s'⟩ | ⟨e, s'⟩ | m | _
  · obtain ⟨b, t', hq, hab⟩ := (wp_of_ok hrun).mp h
    exact sim_of_ok hrun hq ⟨(wp_of_ok hrun).mp hp, hab⟩
  · exact (wp_of_throw hrun).mpr ((wp_of_throw hrun).mp h)
  · exact sim_of_abort hrun
  · exact sim_of_timeout hrun

/-- What follows the first parts may rely on that part of `p` having returned. -/
theorem Sim.bind {Q' : γ → δ → σ → τ → Prop} (h : Sim E p q s t Q R)
    (hf : ∀ a b s' t', p s = .ok a s' → Q a b s' t' → Sim E (f a) (g b) s' t' Q' R) :
    Sim E (p >>= f) (q >>= g) s t Q' R := by
  unfold Sim at h
  apply wp_bind.mpr
  rcases hp : p s with ⟨a, s'⟩ | ⟨e, s'⟩ | m | _
  · obtain ⟨b, t', hq, hab⟩ := (wp_of_ok hp).mp h
    apply (wp_of_ok hp).mpr
    apply wp_mono (hf a b s' t' hp hab)
    · rintro c s'' ⟨d, t'', hg, hcd⟩
      exact ⟨d, t'', (bind_ok hq).trans hg, hcd⟩
    · intro e s'' hthrow he
      obtain ⟨t'', hg, hr⟩ := hthrow he
      exact ⟨t'', (bind_ok hq).trans hg, hr⟩
    · exact fun _ _ => trivial
  · apply (wp_of_throw hp).mpr
    intro he
    obtain ⟨t', hq, hr⟩ := (wp_of_throw hp).mp h he
    exact ⟨t', by rw [bind_apply, seq, hq], hr⟩
  · exact (wp_of_abort hp).mpr trivial
  · unfold wp
    rw [hp]
    trivial

theorem sim_raise {e : ε} (h : R s t) : Sim E (raise e : Prog ε σ α) (raise e : Prog ε τ β) s t Q R :=
  fun _ => ⟨t, rfl, h⟩

/-- What follows an exception does not matter. -/
theorem sim_raise_bind {e : ε} {f : α → Prog ε σ γ} {g : β → Prog ε τ δ} {Q : γ → δ → σ → τ → Prop} (h : E e → R s t) :
    Sim E ((raise e : Prog ε σ α) >>= f) ((raise e : Prog ε τ β) >>= g) s t Q R := fun he => ⟨t, rfl, h he⟩

theorem sim_change {k : σ → σ} {l : τ → τ} {Q : Unit → Unit → σ → τ → Prop} (h : Q () () (k s) (l t)) :
    Sim E (change k) (change l) s t Q R := sim_of_ok rfl rfl h

theorem sim_gets {k : σ → α} {l : τ → β} {Q : γ → δ → σ → τ → Prop}
    (h : Sim E (f (k s)) (g (l t)) s t Q R) : Sim E (gets k >>= f) (gets l >>= g) s t Q R := h

theorem sim_require {c d : Bool} {m m' : String} {f : Unit → Prog ε σ γ} {g : Unit → Prog ε τ δ}
    {Q : γ → δ → σ → τ → Prop} (hcd : c = true → d = true) (h : c = true → Sim E (f ()) (g ()) s t Q R) :
    Sim E (require c m >>= f) (require d m' >>= g) s t Q R := by
  cases c with
  | false => trivial
  | true =>
    rw [hcd rfl]
    exact h rfl

theorem sim_ite {c d : Prop} [Decidable c] [Decidable d] {p' : Prog ε σ α} {q' : Prog ε τ β} (hcd : c ↔ d)
    (h : c → Sim E p q s t Q R) (h' : ¬c → Sim E p' q' s t Q R) :
    Sim E (if c then p else p') (if d then q else q') s t Q R := by
  by_cases hc : c
  · rw [if_pos hc, if_pos (hcd.mp hc)]
    exact h hc
  · rw [if_neg hc, if_neg (mt hcd.mpr hc)]
    exact h' hc

theorem sim_zoom {get : υ → σ} {put : σ → υ → υ} {get' : ρ → τ} {put' : τ → ρ → ρ} {x : υ} {y : ρ}
    {Q : α → β → υ → ρ → Prop} {R : υ → ρ → Prop}
    (h : Sim E p q (get x) (get' y) (fun a b s' t' => Q a b (put s' x) (put' t' y))
      fun s' t' => R (put s' x) (put' t' y)) : Sim E (p.zoom get put) (q.zoom get' put') x y Q R := by
  apply wp_zoom.mpr
  apply wp_mono h
  · rintro a s' ⟨b, t', hq, hab⟩
    exact ⟨b, put' t' y, zoom_ok hq, hab⟩
  · intro e s' hthrow he
    obtain ⟨t', hq, hr⟩ := hthrow he
    exact ⟨put' t' y, zoom_throw hq, hr⟩
  · exact fun _ hx => hx

theorem sim_at? {l : List α} {l' : List β} {i : ℕ} {Q : α → β → σ → τ → Prop}
    (h : ∀ a, l[i]? = some a → ∃ b, l'[i]? = some b ∧ Q a b s t) :
    Sim E (at? l i : Prog ε σ α) (at? l' i : Prog ε τ β) s t Q R := by
  cases ha : l[i]? with
  | none => exact sim_of_abort (m := "index out of range") (by rw [at?, ha])
  | some a =>
    obtain ⟨b, hb, hab⟩ := h a ha
    exact sim_of_ok (by rw [at?, ha]) (by rw [at?, hb]) hab

theorem sim_self {s : σ} {Q : α → σ → Prop} {R' : ε → σ → Prop} {A : Stop → Prop} {R : σ → σ → Prop} (h : p.wp s Q R' A)
    (hR : ∀ e s', R' e s' → R s' s') : Sim E p p s s (fun a b s' t' => b = a ∧ t' = s' ∧ Q a s') R := by
  rcases hp : p s with ⟨a, s'⟩ | ⟨e, s'⟩ | m | _
  · exact sim_of_ok hp hp ⟨rfl, rfl, (wp_of_ok hp).mp h⟩
  · exact (wp_of_throw hp).mpr fun _ => ⟨s', hp, hR e s' ((wp_of_throw hp).mp h)⟩
  · exact sim_of_abort hp
  · exact sim_of_timeout hp

theorem sim_index {l : List α} {i : ℕ} {f : α → Prog ε σ γ} {g : α → Prog ε τ δ} {Q : γ → δ → σ → τ → Prop}
    (hfg : ∀ a, l[i]? = some a → Sim E (f a) (g a) s t Q R) : Sim E (at? l i >>= f) (at? l i >>= g) s t Q R := by
  refine (sim_at? (Q := fun a b s' t' => a = b ∧ l[i]? = some a ∧ s' = s ∧ t' = t)
    fun a ha => ⟨a, ha, rfl, ha, rfl, rfl⟩).bind ?_
  rintro a b s' t' - ⟨rfl, ha, rfl, rfl⟩
  exact hfg a ha

theorem Sim.answer {q : Prog ε τ α} {x : Except ε α} (h : Sim E p q s t (fun a b s' t' => a = b ∧ R s' t') R)
    (hp : p s = .answer x s') (hE : ∀ e, x = .error e → E e) : ∃ t', q t = .answer x t' ∧ R s' t' := by
  cases x with
  | ok a =>
    obtain ⟨b, t', hq, rfl, hr⟩ := (wp_of_ok hp).mp h
    exact ⟨t', hq, hr⟩
  | error e => exact (wp_of_throw hp).mp h (hE e rfl)

end Rules
end Imp.Prog
