import Kndb.Library.Codec

namespace Codec

open Imp Prog

/-- The offset of the next read, and the addresses of the bytes that have been read. -/
structure Cursor where
  offset : ℕ
  reads : List ℕ
deriving DecidableEq

namespace Cursor

def start : Cursor := { offset := 0, reads := [] }

/-- The offset is less than `M`. -/
def advance (M k : ℕ) (c : Cursor) : Cursor :=
  { offset := (c.offset + k) % M, reads := c.reads ++ List.range' c.offset k }

def Inside (cap : ℕ) (c : Cursor) : Prop := ∀ i ∈ c.reads, i < cap

structure At (M cap n : ℕ) (c : Cursor) : Prop where
  offset_eq : c.offset = n % M
  inside_iff : c.Inside cap ↔ n ≤ cap

variable {M cap n k : ℕ} {c : Cursor}

theorem at_start : start.At M cap 0 :=
  ⟨(Nat.zero_mod M).symm, iff_of_true (fun _ hi => absurd hi List.not_mem_nil) (Nat.zero_le _)⟩

theorem inside_advance : (c.advance M k).Inside cap ↔ c.Inside cap ∧ (k = 0 ∨ c.offset + k ≤ cap) := by
  simp only [Inside, advance, List.mem_append, List.mem_range'_1]
  constructor
  · intro h
    refine ⟨fun i hi => h i (.inl hi), ?_⟩
    by_contra hk
    rw [not_or] at hk
    have hlast := h (c.offset + k - 1) (.inr (by omega))
    omega
  · rintro ⟨h, hk⟩ i (hi | hi)
    · exact h i hi
    · omega

/-- The first read that leaves the buffer starts inside it, so that it does so before any wrap. -/
theorem At.advance (h : c.At M cap n) (hM : cap < M) (k : ℕ) : (c.advance M k).At M cap (n + k) := by
  refine ⟨?_, ?_⟩
  · rw [Cursor.advance, h.offset_eq, Nat.mod_add_mod]
  rw [inside_advance, h.inside_iff]
  constructor
  · rintro ⟨hn, hk⟩
    rw [h.offset_eq, Nat.mod_eq_of_lt (hn.trans_lt hM)] at hk
    omega
  · intro hn
    have hle : n ≤ cap := (Nat.le_add_right n k).trans hn
    rw [h.offset_eq, Nat.mod_eq_of_lt (hle.trans_lt hM)]
    exact ⟨hle, .inr hn⟩

end Cursor

variable {ε α β : Type}

/-- Copy the next `k` bytes of memory. -/
def fetch (M : ℕ) (mem : ℕ → BitVec 8) (k : ℕ) : Prog ε Cursor Bytes := fun c =>
  .ok ((List.range k).map fun i => mem (c.offset + i)) (c.advance M k)

def fetchEach : List (Prog ε Cursor α) → Prog ε Cursor (List α)
  | [] => pure []
  | q :: qs => do
    let a ← q
    let as ← fetchEach qs
    return a :: as

/-- From every cursor the reader returns after `n` bytes. -/
def Takes (M cap : ℕ) (q : Prog ε Cursor α) (n : ℕ) : Prop :=
  ∀ m c, c.At M cap m → ∃ a c', q c = .ok a c' ∧ c'.At M cap (m + n)

section Takes

variable {M cap n n' : ℕ} {q : Prog ε Cursor α} {g : α → Prog ε Cursor β}

theorem takes_pure (a : α) : Takes M cap (pure a : Prog ε Cursor α) 0 := fun _ c hc => ⟨a, c, rfl, hc⟩

theorem takes_gets (f : Cursor → α) : Takes M cap (gets f : Prog ε Cursor α) 0 :=
  fun _ c hc => ⟨f c, c, rfl, hc⟩

theorem takes_fetch (hM : cap < M) (mem : ℕ → BitVec 8) (k : ℕ) :
    Takes M cap (fetch M mem k : Prog ε Cursor Bytes) k :=
  fun _ _ hc => ⟨_, _, rfl, hc.advance hM k⟩

theorem Takes.bind (h : Takes M cap q n) (hg : ∀ a, Takes M cap (g a) n') : Takes M cap (q >>= g) (n + n') := by
  intro m c hc
  obtain ⟨a, c', hq, hc'⟩ := h m c hc
  obtain ⟨b, c'', hb, hc''⟩ := hg a _ c' hc'
  exact ⟨b, c'', by rw [bind_ok hq, hb], by rwa [← Nat.add_assoc]⟩

theorem Takes.map (h : Takes M cap q n) (f : α → β) : Takes M cap (q >>= fun a => pure (f a)) n :=
  h.bind fun a => takes_pure (f a)

theorem takes_each {r : β → Prog ε Cursor α} {size : β → ℕ} {bs : List β}
    (h : ∀ b ∈ bs, Takes M cap (r b) (size b)) : Takes M cap (fetchEach (bs.map r)) (bs.map size).sum := by
  induction bs with
  | nil => exact takes_pure []
  | cons b bs ih =>
    rw [List.map_cons, List.map_cons, List.sum_cons]
    refine (h b (List.mem_cons_self ..)).bind fun a => Takes.map (ih fun b' hb' => ?_) _
    exact h b' (List.mem_cons_of_mem _ hb')

theorem Takes.replicate (h : Takes M cap q n) (k : ℕ) : Takes M cap (fetchEach (List.replicate k q)) (k * n) := by
  have heach : Takes M cap (fetchEach ((List.replicate k ()).map fun _ => q))
      ((List.replicate k ()).map fun _ => n).sum := takes_each fun _ _ => h
  simpa using heach

theorem Takes.at_of_ok {m : ℕ} {c c' : Cursor} {a : α} (h : Takes M cap q n) (hc : c.At M cap m)
    (hq : q c = .ok a c') : c'.At M cap (m + n) := by
  obtain ⟨a', c'', hq', hc''⟩ := h m c hc
  rw [hq] at hq'
  cases hq'
  exact hc''

end Takes

/-- `q`, which reads memory, does in the buffer `b` at its beginning what `p` does. -/
structure Agrees (M : ℕ) (b : Bytes) (p : Reader ε α) (q : Prog ε Cursor α) : Prop where
  /-- Where `p` returns, so does `q`, and in the buffer. -/
  returns : ∀ n c, n ≤ b.length → c.At M b.length n → ∀ a rest, p (b.drop n) = .ok a rest →
    ∃ n' c', n' ≤ b.length ∧ rest = b.drop n' ∧ q c = .ok a c' ∧ c'.At M b.length n'
  /-- Where `q` returns and has stayed in the buffer, so does `p`. -/
  returned : ∀ n c, n ≤ b.length → c.At M b.length n → ∀ a c', q c = .ok a c' → c'.Inside b.length →
    ∃ rest, p (b.drop n) = .ok a rest
  /-- What has been read stays read. -/
  grows : ∀ c a c', q c = .ok a c' → c'.Inside b.length → c.Inside b.length

section Agrees

variable {M : ℕ} {b : Bytes} {p : Reader ε α} {q : Prog ε Cursor α} {f : α → Reader ε β}
variable {g : α → Prog ε Cursor β}

/-- From the beginning of the buffer on, what returns in it is what the other reader returns. -/
theorem Agrees.ok_iff (h : Agrees M b p q) (a : α) :
    (∃ c, q .start = .ok a c ∧ c.Inside b.length) ↔ ∃ rest, p b = .ok a rest := by
  constructor
  · rintro ⟨c, hq, hin⟩
    exact h.returned 0 _ (Nat.zero_le _) Cursor.at_start a c hq hin
  · rintro ⟨rest, hp⟩
    obtain ⟨n, c, hn, -, hq, hc⟩ := h.returns 0 _ (Nat.zero_le _) Cursor.at_start a rest hp
    exact ⟨c, hq, hc.inside_iff.mpr hn⟩

theorem agrees_pure (a : α) : Agrees M b (pure a : Reader ε α) (pure a) := by
  refine ⟨?_, ?_, ?_⟩
  · intro n c hn hc a' rest h
    cases h
    exact ⟨n, c, hn, rfl, rfl, hc⟩
  · intro n c _ _ a' c' h _
    cases h
    exact ⟨_, rfl⟩
  · intro c a' c' h hin
    cases h
    exact hin

theorem agrees_halt (m m' : String) : Agrees M b (halt m : Reader ε α) (halt m') :=
  ⟨fun _ _ _ _ _ _ h => (by cases h), fun _ _ _ _ _ _ h => (by cases h), fun _ _ _ h => (by cases h)⟩

theorem agrees_gets {x : Bytes → α} {y : Cursor → α}
    (h : ∀ n c, n ≤ b.length → c.At M b.length n → x (b.drop n) = y c) :
    Agrees M b (gets x : Reader ε α) (gets y) := by
  refine ⟨?_, ?_, ?_⟩
  · intro n c hn hc a rest hx
    cases hx
    exact ⟨n, c, hn, rfl, by rw [h n c hn hc]; rfl, hc⟩
  · intro n c hn hc a c' hy _
    cases hy
    exact ⟨_, by rw [← h n c hn hc]; rfl⟩
  · intro c a c' hy hin
    cases hy
    exact hin

theorem take_drop_eq {mem : ℕ → BitVec 8} (hmem : ∀ i (hi : i < b.length), b[i] = mem i) {n k : ℕ}
    (hk : n + k ≤ b.length) : (b.drop n).take k = (List.range k).map fun i => mem (n + i) := by
  apply List.ext_getElem
  · simp only [List.length_take, List.length_drop, List.length_map, List.length_range]
    omega
  · intro i h1 h2
    rw [List.length_map, List.length_range] at h2
    rw [List.getElem_take, List.getElem_drop, List.getElem_map, List.getElem_range, hmem]

theorem agrees_fetch (hM : b.length < M) {mem : ℕ → BitVec 8} (hmem : ∀ i (hi : i < b.length), b[i] = mem i)
    (k : ℕ) : Agrees M b (read k : Reader ε Bytes) (fetch M mem k) := by
  have hoffset : ∀ {n : ℕ} {c : Cursor}, n ≤ b.length → c.At M b.length n → c.offset = n := fun hn hc => by
    rw [hc.offset_eq, Nat.mod_eq_of_lt (hn.trans_lt hM)]
  refine ⟨?_, ?_, ?_⟩
  · intro n c hn hc a rest h
    rw [read, List.length_drop] at h
    split_ifs at h with hk
    have hle : n + k ≤ b.length := by omega
    cases h
    refine ⟨n + k, c.advance M k, hle, List.drop_drop, ?_, hc.advance hM k⟩
    rw [fetch, hoffset hn hc, take_drop_eq hmem hle]
  · intro n c hn hc a c' h hin
    cases h
    have hle := (hc.advance hM k).inside_iff.mp hin
    refine ⟨b.drop (n + k), ?_⟩
    rw [read, if_pos (by rw [List.length_drop]; omega), hoffset hn hc, take_drop_eq hmem hle, List.drop_drop]
  · intro c a c' h hin
    cases h
    exact (Cursor.inside_advance.mp hin).1

theorem Agrees.bind (h : Agrees M b p q) (hg : ∀ a, Agrees M b (f a) (g a)) :
    Agrees M b (p >>= f) (q >>= g) := by
  refine ⟨?_, ?_, ?_⟩
  · intro n c hn hc x rest hx
    obtain ⟨a, s, hp, hf⟩ := ok_of_bind hx
    obtain ⟨n₁, c₁, hn₁, rfl, hq, hc₁⟩ := h.returns n c hn hc a s hp
    obtain ⟨n₂, c₂, hn₂, hrest, hq', hc₂⟩ := (hg a).returns n₁ c₁ hn₁ hc₁ x rest hf
    exact ⟨n₂, c₂, hn₂, hrest, by rw [bind_ok hq, hq'], hc₂⟩
  · intro n c hn hc x c' hx hin
    obtain ⟨a, c₁, hq, hx⟩ := ok_of_bind hx
    obtain ⟨rest, hp⟩ := h.returned n c hn hc a c₁ hq ((hg a).grows c₁ x c' hx hin)
    obtain ⟨n₁, c₂, hn₁, rfl, hq', hc₁⟩ := h.returns n c hn hc a rest hp
    rw [hq] at hq'
    cases hq'
    obtain ⟨rest', hf⟩ := (hg a).returned n₁ c₁ hn₁ hc₁ x c' hx hin
    exact ⟨rest', by rw [bind_ok hp, hf]⟩
  · intro c x c' hx hin
    obtain ⟨a, c₁, hq, hx⟩ := ok_of_bind hx
    exact h.grows c a c₁ hq ((hg a).grows c₁ x c' hx hin)

theorem Agrees.congr {p' : Reader ε α} (h : Agrees M b p q) (hp : ∀ n, p (b.drop n) = p' (b.drop n)) :
    Agrees M b p' q :=
  ⟨fun n c hn hc a rest h' => h.returns n c hn hc a rest ((hp n).trans h'),
    fun n c hn hc a c' h' hin => (h.returned n c hn hc a c' h' hin).imp fun _ => (hp n).symm.trans, h.grows⟩

theorem agrees_require (x : Bool) (m : String) : Agrees M b (require x m : Reader ε Unit) (require x m) := by
  cases x with
  | true => exact agrees_pure ()
  | false => exact agrees_halt m m

theorem Agrees.ite {x : Prop} [Decidable x] {p' : Reader ε α} {q' : Prog ε Cursor α} (h : Agrees M b p q)
    (h' : Agrees M b p' q') : Agrees M b (if x then p else p') (if x then q else q') := by
  split
  · exact h
  · exact h'

theorem agrees_each {γ : Type} {r : γ → Reader ε α} {r' : γ → Prog ε Cursor α} {as : List γ}
    (h : ∀ a, Agrees M b (r a) (r' a)) : Agrees M b (readEach (as.map r)) (fetchEach (as.map r')) := by
  induction as with
  | nil => exact agrees_pure []
  | cons a as ih => exact (h a).bind fun x => ih.bind fun xs => agrees_pure (x :: xs)

theorem Agrees.replicate (h : Agrees M b p q) (k : ℕ) :
    Agrees M b (readEach (List.replicate k p)) (fetchEach (List.replicate k q)) := by
  have heach : Agrees M b (readEach ((List.replicate k ()).map fun _ => p))
      (fetchEach ((List.replicate k ()).map fun _ => q)) := agrees_each fun _ => h
  simpa using heach

end Agrees

end Codec
