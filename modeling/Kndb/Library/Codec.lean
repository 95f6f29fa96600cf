import Mathlib.Data.Nat.Init
import Mathlib.Algebra.Order.Group.Nat
import Mathlib.Algebra.BigOperators.Group.List.Basic
import Mathlib.Tactic.Ring
import Kndb.Library.Program

namespace Codec

open Imp Prog

abbrev Bytes := List (BitVec 8)

abbrev Writer (ε α : Type) := Prog ε Bytes α
abbrev Reader (ε α : Type) := Prog ε Bytes α

variable {ε α β : Type}

/-- Append to a buffer of size `cap`. -/
def write (cap : ℕ) (l : Bytes) : Writer ε Unit := fun out =>
  if out.length + l.length ≤ cap then .ok () (out ++ l) else .abort "write past the end of the buffer"

def read (n : ℕ) : Reader ε Bytes := fun s =>
  if n ≤ s.length then .ok (s.take n) (s.drop n) else .abort "read past the end of the buffer"

def writeEach (w : α → Writer ε Unit) : List α → Writer ε Unit
  | [] => pure ()
  | a :: as => do
    w a
    writeEach w as

def readEach : List (Reader ε α) → Reader ε (List α)
  | [] => pure []
  | p :: ps => do
    let a ← p
    let as ← readEach ps
    return a :: as

def toLE : ℕ → ℕ → Bytes
  | 0, _ => []
  | k + 1, x => BitVec.ofNat 8 x :: toLE k (x / 256)

def ofLE : Bytes → ℕ
  | [] => 0
  | b :: l => b.toNat + 256 * ofLE l

@[simp] theorem toLE_length (k x : ℕ) : (toLE k x).length = k := by
  induction k generalizing x with
  | zero => rfl
  | succ k ih => rw [toLE, List.length_cons, ih]

theorem ofLE_toLE (k x : ℕ) : ofLE (toLE k x) = x % 256 ^ k := by
  induction k generalizing x with
  | zero => rw [toLE, ofLE, pow_zero, Nat.mod_one]
  | succ k ih =>
    rw [toLE, ofLE, ih, BitVec.toNat_ofNat, pow_succ' 256 k, Nat.mod_mul]

theorem ofLE_lt (l : Bytes) : ofLE l < 256 ^ l.length := by
  induction l with
  | nil => exact Nat.one_pos
  | cons b l ih =>
    have hb : b.toNat < 256 := b.isLt
    rw [ofLE, List.length_cons, pow_succ']
    omega

theorem toLE_mod (k x : ℕ) : toLE k (x % 256 ^ k) = toLE k x := by
  induction k generalizing x with
  | zero => rfl
  | succ k ih =>
    have hbyte : BitVec.ofNat 8 (x % (256 * 256 ^ k)) = BitVec.ofNat 8 x := by
      apply BitVec.eq_of_toNat_eq
      rw [BitVec.toNat_ofNat, BitVec.toNat_ofNat]
      exact Nat.mod_mul_right_mod x 256 (256 ^ k)
    rw [toLE, toLE, pow_succ', hbyte, Nat.mod_mul_right_div_self, ih]

/-- The writer needs `n` bytes, and what the reader makes of them satisfies `P`. -/
structure Recovers (cap : ℕ) (w : Writer ε Unit) (p : Reader ε α) (P : α → Prop) (n : ℕ) : Prop where
  fits : ∀ out : Bytes, out.length + n ≤ cap → ∃ l : Bytes, l.length = n ∧
    w out = .ok () (out ++ l) ∧ ∀ rest, ∃ a, P a ∧ p (l ++ rest) = .ok a rest
  overflows : ∀ out : Bytes, out.length ≤ cap → cap < out.length + n → ∃ m, w out = .abort m

section Rules

variable {cap n n' : ℕ} {w w' : Writer ε Unit} {p : Reader ε α} {f : α → Reader ε β}
variable {P P' : α → Prop} {Q : β → Prop}

theorem Recovers.mono (h : Recovers cap w p P n) (hP : ∀ a, P a → P' a) :
    Recovers cap w p P' n := by
  refine ⟨fun out hout => ?_, h.overflows⟩
  obtain ⟨l, hl, hw, hp⟩ := h.fits out hout
  refine ⟨l, hl, hw, fun rest => ?_⟩
  obtain ⟨a, ha, hr⟩ := hp rest
  exact ⟨a, hP a ha, hr⟩

theorem recovers_pure {a : α} (h : P a) : Recovers cap (pure () : Writer ε Unit) (pure a) P 0 := by
  constructor
  · intro out _
    exact ⟨[], rfl, by rw [List.append_nil]; rfl, fun rest => ⟨a, h, rfl⟩⟩
  · intro out h1 h2
    omega

theorem read_append {l : Bytes} (hl : l.length = n) (rest : Bytes) :
    (read n : Reader ε Bytes) (l ++ rest) = .ok l rest := by
  subst hl
  rw [read, if_pos (by simp), List.take_left, List.drop_left]

theorem recovers_read (l : Bytes) :
    Recovers cap (write cap l : Writer ε Unit) (read l.length) (· = l) l.length := by
  constructor
  · intro out hout
    exact ⟨l, rfl, if_pos hout, fun rest => ⟨l, rfl, read_append rfl rest⟩⟩
  · intro out _ hout
    exact ⟨_, if_neg (Nat.not_le.mpr hout)⟩

/-- One writer after the other; the second reader may depend on what the first has read. -/
theorem Recovers.bind (h : Recovers cap w p P n) (h' : ∀ a, P a → Recovers cap w' (f a) Q n')
    (hex : ∃ a, P a) : Recovers cap (w >>= fun _ => w') (p >>= f) Q (n + n') := by
  constructor
  · intro out hout
    obtain ⟨l, hl, hw, hp⟩ := h.fits out (by omega)
    obtain ⟨a₀, ha₀⟩ := hex
    obtain ⟨l', hl', hw', -⟩ := (h' a₀ ha₀).fits (out ++ l) (by rw [List.length_append]; omega)
    refine ⟨l ++ l', by rw [List.length_append, hl, hl'], ?_, fun rest => ?_⟩
    · rw [bind_ok hw, hw', List.append_assoc]
    · obtain ⟨a, ha, hr⟩ := hp (l' ++ rest)
      obtain ⟨l'', -, hw'', hp'⟩ := (h' a ha).fits (out ++ l) (by rw [List.length_append]; omega)
      obtain rfl : l' = l'' := by
        have := hw'.symm.trans hw''
        injection this with _ heq
        exact List.append_cancel_left heq
      obtain ⟨b, hb, hr'⟩ := hp' rest
      exact ⟨b, hb, by rw [List.append_assoc, bind_ok hr, hr']⟩
  · intro out hlen hout
    obtain ⟨a₀, ha₀⟩ := hex
    by_cases hn : out.length + n ≤ cap
    · obtain ⟨l, hl, hw, -⟩ := h.fits out hn
      obtain ⟨m, hm⟩ := (h' a₀ ha₀).overflows (out ++ l) (by rw [List.length_append]; omega)
        (by rw [List.length_append]; omega)
      exact ⟨m, by rw [bind_ok hw, hm]⟩
    · obtain ⟨m, hm⟩ := h.overflows out hlen (by omega)
      exact ⟨m, by rw [bind_apply, seq, hm]⟩

theorem Recovers.map {g : α → β} (h : Recovers cap w p P n) (hg : ∀ a, P a → Q (g a)) :
    Recovers cap w (p >>= fun a => pure (g a)) Q n := by
  refine ⟨fun out hout => ?_, h.overflows⟩
  obtain ⟨l, hl, hw, hp⟩ := h.fits out hout
  refine ⟨l, hl, hw, fun rest => ?_⟩
  obtain ⟨a, ha, hr⟩ := hp rest
  exact ⟨g a, hg a ha, by rw [bind_ok hr]; rfl⟩

theorem Recovers.require {b : Bool} (m : String) (hb : b = true) (h : Recovers cap w p P n) :
    Recovers cap w (Prog.require b m >>= fun _ => p) P n := by
  refine ⟨fun out hout => ?_, h.overflows⟩
  obtain ⟨l, hl, hw, hp⟩ := h.fits out hout
  refine ⟨l, hl, hw, fun rest => ?_⟩
  obtain ⟨a, ha, hr⟩ := hp rest
  exact ⟨a, ha, by rw [bind_ok (require_ok m _ hb), hr]⟩

theorem Recovers.checked {b : Bool} (m : String) (hb : b = true) (h : Recovers cap w p P n) :
    Recovers cap (Prog.require b m >>= fun _ => w) p P n := by
  have heq : ∀ out, (Prog.require b m >>= fun _ => w) out = w out := fun out =>
    bind_ok (require_ok m out hb)
  constructor
  · intro out hout
    rw [heq]
    exact h.fits out hout
  · intro out hlen hout
    rw [heq]
    exact h.overflows out hlen hout

/-- Element by element. -/
theorem recovers_each {w : α → Writer ε Unit} {r : α → Reader ε β} {size : α → ℕ} {R : α → β → Prop}
    {as : List α} (h : ∀ a ∈ as, Recovers cap (w a) (r a) (R a) (size a))
    (hex : ∀ a ∈ as, ∃ b, R a b) :
    Recovers cap (writeEach w as) (readEach (as.map r)) (List.Forall₂ R as) (as.map size).sum := by
  induction as with
  | nil => exact recovers_pure .nil
  | cons a as ih =>
    rw [List.map_cons, List.map_cons, List.sum_cons]
    refine (h a (by simp)).bind (fun b hb => ?_) (hex a (by simp))
    exact (ih (fun a' ha' => h a' (by simp [ha'])) fun a' ha' => hex a' (by simp [ha'])).map
      fun bs hbs => .cons hb hbs

theorem recovers_replicate {w : α → Writer ε Unit} {r : Reader ε β} {size : α → ℕ}
    {R : α → β → Prop} {as : List α} (h : ∀ a ∈ as, Recovers cap (w a) r (R a) (size a))
    (hex : ∀ a ∈ as, ∃ b, R a b) : Recovers cap (writeEach w as) (readEach (List.replicate as.length r))
      (List.Forall₂ R as) (as.map size).sum := by
  rw [← List.map_const']
  exact recovers_each h hex

theorem recovers_LE (k x : ℕ) :
    Recovers cap (write cap (toLE k x) : Writer ε Unit) (read k >>= fun l => pure (ofLE l))
      (· = x % 256 ^ k) k := by
  have h : Recovers cap (write cap (toLE k x) : Writer ε Unit) (read (toLE k x).length)
    (· = toLE k x) (toLE k x).length := recovers_read _
  rw [toLE_length] at h
  refine h.map ?_
  rintro l rfl
  exact ofLE_toLE k x

end Rules

structure Writes (cap : ℕ) (w : Writer ε Unit) (n : ℕ) : Prop where
  fits : ∀ out : Bytes, out.length + n ≤ cap → ∃ l : Bytes, l.length = n ∧ w out = .ok () (out ++ l)
  overflows : ∀ out : Bytes, out.length ≤ cap → cap < out.length + n → ∃ m, w out = .abort m

section Writes

variable {cap n n' : ℕ} {w w' : Writer ε Unit} {p : Reader ε α} {P : α → Prop}

theorem Recovers.writes (h : Recovers cap w p P n) : Writes cap w n := by
  refine ⟨fun out hout => ?_, h.overflows⟩
  obtain ⟨l, hl, hw, -⟩ := h.fits out hout
  exact ⟨l, hl, hw⟩

theorem writes_pure : Writes cap (pure () : Writer ε Unit) 0 :=
  (recovers_pure (P := fun _ => True) (a := ()) trivial).writes

theorem Writes.bind (h : Writes cap w n) (h' : Writes cap w' n') : Writes cap (w >>= fun _ => w') (n + n') := by
  constructor
  · intro out hout
    obtain ⟨l, hl, hw⟩ := h.fits out (by omega)
    obtain ⟨l', hl', hw'⟩ := h'.fits (out ++ l) (by rw [List.length_append]; omega)
    refine ⟨l ++ l', by rw [List.length_append, hl, hl'], ?_⟩
    rw [bind_ok hw, hw', List.append_assoc]
  · intro out hlen hout
    by_cases hn : out.length + n ≤ cap
    · obtain ⟨l, hl, hw⟩ := h.fits out hn
      obtain ⟨m, hm⟩ := h'.overflows (out ++ l) (by rw [List.length_append]; omega)
        (by rw [List.length_append]; omega)
      exact ⟨m, by rw [bind_ok hw, hm]⟩
    · obtain ⟨m, hm⟩ := h.overflows out hlen (by omega)
      exact ⟨m, by rw [bind_apply, seq, hm]⟩

theorem Writes.checked {b : Bool} (m : String) (hb : b = true) (h : Writes cap w n) :
    Writes cap (Prog.require b m >>= fun _ => w) n := by
  have heq : ∀ out, (Prog.require b m >>= fun _ => w) out = w out := fun out =>
    bind_ok (require_ok m out hb)
  constructor
  · intro out hout
    rw [heq]
    exact h.fits out hout
  · intro out hlen hout
    rw [heq]
    exact h.overflows out hlen hout

theorem writes_each {w : α → Writer ε Unit} {size : α → ℕ} {as : List α}
    (h : ∀ a ∈ as, Writes cap (w a) (size a)) : Writes cap (writeEach w as) (as.map size).sum := by
  induction as with
  | nil => exact writes_pure
  | cons a as ih =>
    rw [List.map_cons, List.sum_cons]
    exact (h a (List.mem_cons_self ..)).bind (ih fun a' ha' => h a' (List.mem_cons_of_mem _ ha'))

end Writes

/-- The writer only adds to the buffer. -/
def Appends (w : Writer ε Unit) : Prop := ∀ out out' : Bytes, w out = .ok () out' → out <+: out'

theorem appends_pure : Appends (pure () : Writer ε Unit) := by
  rintro out _ ⟨⟩
  exact List.prefix_rfl

theorem appends_write (cap : ℕ) (l : Bytes) : Appends (write cap l : Writer ε Unit) := by
  intro out out' h
  rw [write] at h
  split_ifs at h
  cases h
  exact List.prefix_append out l

theorem Appends.bind {w w' : Writer ε Unit} (h : Appends w) (h' : Appends w') :
    Appends (w >>= fun _ => w') := by
  intro out out' hw
  obtain ⟨_, mid, h1, h2⟩ := ok_of_bind hw
  exact (h _ _ h1).trans (h' _ _ h2)

theorem Appends.checked {w : Writer ε Unit} (b : Bool) (m : String) (h : Appends w) :
    Appends (Prog.require b m >>= fun _ => w) := by
  intro out out' hw
  cases b with
  | true => exact h _ _ hw
  | false => cases hw

theorem Appends.each {w : α → Writer ε Unit} (h : ∀ a, Appends (w a)) (as : List α) :
    Appends (writeEach w as) := by
  induction as with
  | nil => exact appends_pure
  | cons a as ih => exact (h a).bind ih

def Stays (cap : ℕ) (w : Writer ε α) : Prop :=
  ∀ (out : Bytes) a out', out.length ≤ cap → w out = .ok a out' → out'.length ≤ cap

section Stays

variable {cap : ℕ} {w : Writer ε α} {f : α → Writer ε β}

theorem stays_pure (a : α) : Stays cap (pure a : Writer ε α) := by
  rintro out _ _ hlen ⟨⟩
  exact hlen

theorem stays_gets (g : Bytes → α) : Stays cap (gets g : Writer ε α) := by
  rintro out _ _ hlen ⟨⟩
  exact hlen

theorem stays_require (b : Bool) (m : String) : Stays cap (Prog.require b m : Writer ε Unit) := by
  intro out _ out' hlen h
  cases b <;> cases h
  exact hlen

theorem stays_write (l : Bytes) : Stays cap (write cap l : Writer ε Unit) := by
  intro out _ out' hlen h
  rw [write] at h
  split_ifs at h with hroom
  cases h
  rwa [List.length_append]

theorem Stays.bind (h : Stays cap w) (hf : ∀ a, Stays cap (f a)) : Stays cap (w >>= f) := by
  intro out b out' hlen hw
  obtain ⟨a, mid, h1, h2⟩ := ok_of_bind hw
  exact hf a mid b out' (h out a mid hlen h1) h2

theorem stays_each {w : α → Writer ε Unit} (h : ∀ a, Stays cap (w a)) (as : List α) :
    Stays cap (writeEach w as) := by
  induction as with
  | nil => exact stays_pure ()
  | cons a as ih => exact (h a).bind fun _ => ih

end Stays

/-- The reader needs `k` bytes. -/
def Consumes (p : Reader ε α) (k : ℕ) : Prop := ∀ s a s', p s = .ok a s' → s'.length + k ≤ s.length

section Consumes

variable {p : Reader ε α} {f : α → Reader ε β} {k m : ℕ}

theorem Consumes.mono (h : Consumes p k) (hk : m ≤ k) : Consumes p m := fun s a s' hp =>
  (Nat.add_le_add_left hk _).trans (h s a s' hp)

theorem consumes_pure (a : α) : Consumes (pure a : Reader ε α) 0 := by
  intro s x s' h
  cases h
  exact le_rfl

theorem consumes_gets (g : Bytes → α) : Consumes (gets g : Reader ε α) 0 := by
  intro s x s' h
  cases h
  exact le_rfl

theorem consumes_read (k : ℕ) : Consumes (read k : Reader ε Bytes) k := by
  intro s x s' h
  rw [read] at h
  split_ifs at h with hk
  cases h
  rw [List.length_drop]
  omega

theorem Consumes.bind (h : Consumes p k) (hf : ∀ a, Consumes (f a) m) : Consumes (p >>= f) (k + m) := by
  intro s x s' hx
  obtain ⟨a, t, hp, hfa⟩ := ok_of_bind hx
  have h1 := h s a t hp
  have h2 := hf a t x s' hfa
  omega

theorem Consumes.map (h : Consumes p k) (g : α → β) : Consumes (p >>= fun a => pure (g a)) k :=
  h.bind fun a => consumes_pure (g a)

theorem consumes_each {ps : List (Reader ε α)} (h : ∀ p ∈ ps, Consumes p k) :
    Consumes (readEach ps) (ps.length * k) := by
  induction ps with
  | nil => exact (consumes_pure []).mono (by simp)
  | cons p ps ih =>
    have hps := ih fun q hq => h q (List.mem_cons_of_mem _ hq)
    refine ((h p (List.mem_cons_self ..)).bind fun a => hps.map _).mono ?_
    rw [List.length_cons, Nat.succ_mul, Nat.add_comm]

end Consumes

theorem readEach_length {ps : List (Reader ε α)} {s s' : Bytes} {as : List α}
    (h : readEach ps s = .ok as s') : as.length = ps.length := by
  induction ps generalizing s as with
  | nil =>
    cases h
    rfl
  | cons p ps ih =>
    obtain ⟨a, s₁, -, h⟩ := ok_of_bind h
    obtain ⟨as', s₂, h', h⟩ := ok_of_bind h
    cases h
    rw [List.length_cons, List.length_cons, ih h']

theorem forall_of_readEach {ps : List (Reader ε α)} {P : α → Prop} {s s' : Bytes} {as : List α}
    (hP : ∀ p ∈ ps, ∀ s a s', p s = .ok a s' → P a) (h : readEach ps s = .ok as s') :
    ∀ a ∈ as, P a := by
  induction ps generalizing s as with
  | nil =>
    cases h
    exact fun a ha => absurd ha List.not_mem_nil
  | cons p ps ih =>
    obtain ⟨a, s₁, h1, h⟩ := ok_of_bind h
    obtain ⟨as', s₂, h2, h⟩ := ok_of_bind h
    cases h
    intro x hx
    rcases List.mem_cons.mp hx with rfl | hx
    · exact hP p (List.mem_cons_self ..) _ _ _ h1
    · exact ih (fun q hq => hP q (List.mem_cons_of_mem _ hq)) h2 x hx

end Codec
