import Kndb.IOHandler
import Kndb.Library.Blocks

namespace Kndb.IOHandler

open Imp Imp.Prog

abbrev Disk := List Buffer

def zeros : Buffer := ⟨List.replicate PG_SZ 0, List.length_replicate⟩

namespace Disk

def next : Call → Disk → Disk
  | .createNewBlock, d => d ++ [zeros]
  | .createMultipleBlocks numBlocks, d => d ++ List.replicate numBlocks.toNat zeros
  | .writeBlock arr i, d => d.set i arr
  | .readBlock _ _, d => d

/-- The answer to a call: new blocks are those that come next, and of a block its bytes are read. -/
def answer : Call → Disk → Except Exn Answer
  | .createNewBlock, d => .ok (.block d.length)
  | .createMultipleBlocks _, d => .ok (.block d.length)
  | .writeBlock _ i, d => if i < d.length then .ok .unit else .error (.runtimeError "BlockNo out of bounds")
  | .readBlock _ i, d => match d[i]? with
    | some b => .ok (.bytes b.1)
    | none => .error (.runtimeError "BlockNo out of bounds")

end Disk

/-- The calls so far and their answers, the last one first. -/
abbrev Trace := List (Call × Except Exn Answer)

/-- The calls that have been answered on an empty file without an error of the system. -/
inductive Run : Trace → IOHandler → Prop
  | new : Run [] (.new [])
  | call {t : Trace} {io io' : IOHandler} {c : Call} {x : Except Exn Answer} (h : Run t io)
    (hc : call false c io = .answer x io') : Run ((c, x) :: t) io'

def disk : Trace → Disk
  | [] => []
  | (c, _) :: t => (disk t).next c

/-- The file holds the blocks that the calls have made and written, and each call has been answered as
the blocks say. -/
structure Behaves (t : Trace) (io : IOHandler) : Prop where
  count : io.blocks = (disk t).length
  size : io.file.length = io.blocks * PG_SZ
  content : ∀ i (hi : i < (disk t).length), (io.file.drop (i * PG_SZ)).take PG_SZ = (disk t)[i].1
  answers : ∀ c x t', (c, x) :: t' <:+ t → x = (disk t').answer c

variable {t t' : Trace} {io io' : IOHandler} {c : Call} {x : Except Exn Answer} {d : Disk}

/-- The file is the blocks one after the other. -/
structure Holds (io : IOHandler) (d : Disk) : Prop where
  blocks : io.blocks = d.length
  file : io.file = (d.map Subtype.val).flatten

theorem length_of_mem_map {b : Block} (hb : b ∈ d.map Subtype.val) : b.length = PG_SZ := by
  obtain ⟨arr, -, rfl⟩ := List.mem_map.mp hb
  exact arr.2

theorem Holds.length (h : Holds io d) : io.file.length = d.length * PG_SZ := by
  rw [h.file, Blocks.flatten_length fun b => length_of_mem_map, List.length_map]

theorem truncate_of_le {size : ℕ} {file : List Byte} (h : file.length ≤ size) :
    truncate size file = file ++ List.replicate (size - file.length) 0 := by
  rw [truncate, List.take_of_length_le h]

theorem Holds.grow (h : Holds io d) (k : ℕ) :
    truncate ((d.length + k) * PG_SZ) io.file = ((d ++ List.replicate k zeros).map Subtype.val).flatten := by
  have hsize : (d.length + k) * PG_SZ - io.file.length = k * PG_SZ := by
    rw [h.length, ← Nat.sub_mul, Nat.add_sub_cancel_left]
  rw [truncate_of_le (by rw [h.length]; exact Nat.mul_le_mul_right _ (Nat.le_add_right ..)), hsize, List.map_append,
    List.flatten_append, ← h.file, List.map_replicate, zeros, List.flatten_replicate_replicate]

/-- What the calls that make `k` blocks leave behind and return when they do not fail. -/
def grown (k : ℕ) (io : IOHandler) : IOHandler :=
  { blocks := (io.blocks + k) % 2 ^ 32, file := truncate ((io.blocks + k) % 2 ^ 32 * PG_SZ % 2 ^ 32) io.file }

def firstNew (k : ℕ) (io : IOHandler) : ℕ := ((io.blocks + k) % 2 ^ 32 + 2 ^ 32 - k) % 2 ^ 32

theorem call_createNewBlock (io : IOHandler) :
    call false .createNewBlock io = .answer (.ok (.block (firstNew 1 io))) (grown 1 io) := rfl

theorem call_createMultipleBlocks {numBlocks : ℤ} (h : 0 < numBlocks) (io : IOHandler) :
    call false (.createMultipleBlocks numBlocks) io =
      .answer (.ok (.block (firstNew (numBlocks.toNat % 2 ^ 32) io))) (grown (numBlocks.toNat % 2 ^ 32) io) := by
  have hcreate : createMultipleBlocks false numBlocks io =
      .ok (firstNew (numBlocks.toNat % 2 ^ 32) io) (grown (numBlocks.toNat % 2 ^ 32) io) := by
    rw [createMultipleBlocks, bind_ok (require_ok _ _ (decide_eq_true h))]
    rfl
  rw [call, bind_ok hcreate]
  rfl

theorem call_writeBlock (arr : Buffer) (i : ℕ) (io : IOHandler) : call false (.writeBlock arr i) io =
    if io.blocks ≤ i then .answer (.error (.runtimeError "BlockNo out of bounds")) io
    else .answer (.ok .unit) { io with file := pwrite arr.1 (i * PG_SZ % 2 ^ 32) io.file } := by
  have hwrite : writeBlock arr i io = (if io.blocks ≤ i then raise (.runtimeError "BlockNo out of bounds")
    else change fun io => { io with file := pwrite arr.1 (i * PG_SZ % 2 ^ 32) io.file }) io := rfl
  rw [call, bind_apply, seq, hwrite]
  split_ifs <;> rfl

def readInto (arr : Buffer) (bytes : List Byte) : Block := bytes ++ arr.1.drop bytes.length

theorem call_readBlock (arr : Buffer) (i : ℕ) (io : IOHandler) : call false (.readBlock arr i) io =
    if io.blocks ≤ i then .answer (.error (.runtimeError "BlockNo out of bounds")) io
    else .answer (.ok (.bytes (readInto arr (pread PG_SZ (i * PG_SZ % 2 ^ 32) io.file)))) io := by
  have hread : readBlock arr i io = (if io.blocks ≤ i then raise (.runtimeError "BlockNo out of bounds")
    else do
      let bytes ← gets fun io => pread PG_SZ (i * PG_SZ % 2 ^ 32) io.file
      return bytes ++ arr.1.drop bytes.length) io := rfl
  rw [call, bind_apply, seq, hread]
  split_ifs <;> rfl

def Allowed : Call → Prop
  | .createMultipleBlocks numBlocks => 0 < numBlocks
  | _ => True

theorem allowed_of_answer {fails : Bool} (hc : call fails c io = .answer x io') : Allowed c := by
  cases c with
  | createMultipleBlocks numBlocks =>
    by_contra h
    have hneg : ¬0 < numBlocks := h
    have habort : call fails (.createMultipleBlocks numBlocks) io =
        .abort "Cannot allocate non-positive number of blocks" := by
      rw [call, bind_apply, seq, createMultipleBlocks, bind_apply, seq, require, decide_eq_false hneg]
      rfl
    rw [habort] at hc
    cases x <;> cases hc
  | _ => trivial

theorem Holds.created (h : Holds io d) {k : ℕ} (hlt : d.length + k < 2 ^ 20) :
    firstNew k io = d.length ∧ Holds (grown k io) (d ++ List.replicate k zeros) := by
  have hsize : (d.length + k) % 2 ^ 32 = d.length + k ∧
      (d.length + k) % 2 ^ 32 * PG_SZ % 2 ^ 32 = (d.length + k) * PG_SZ ∧
      ((d.length + k) % 2 ^ 32 + 2 ^ 32 - k) % 2 ^ 32 = d.length := by
    rw [PG_SZ]
    omega
  rw [firstNew, grown, h.blocks]
  refine ⟨hsize.2.2, ?_, ?_⟩
  · rw [List.length_append, List.length_replicate]
    exact hsize.1
  · rw [hsize.2.1]
    exact h.grow k

theorem Holds.written (h : Holds io d) {i : ℕ} (hi : i < d.length) (hlt : d.length < 2 ^ 20) (arr : Buffer) :
    Holds { io with file := pwrite arr.1 (i * PG_SZ % 2 ^ 32) io.file } (d.set i arr) := by
  refine ⟨by rw [List.length_set]; exact h.blocks, ?_⟩
  have hoffset : i * PG_SZ % 2 ^ 32 = i * PG_SZ := Nat.mod_eq_of_lt (by rw [PG_SZ]; omega)
  have hend : i * PG_SZ - io.file.length = 0 :=
    Nat.sub_eq_zero_of_le (by rw [h.length]; exact Nat.mul_le_mul_right _ hi.le)
  rw [hoffset, pwrite, hend, List.replicate_zero, List.append_nil, arr.2, h.file, List.map_set]
  exact Blocks.splice_flatten (fun b => length_of_mem_map) (by rwa [List.length_map]) arr.1

theorem Holds.content (h : Holds io d) {i : ℕ} (hi : i < d.length) :
    (io.file.drop (i * PG_SZ)).take PG_SZ = d[i].1 := by
  rw [h.file, Blocks.take_drop_flatten (fun b => length_of_mem_map) (by rwa [List.length_map]), List.getElem_map]

theorem Holds.step (h : Holds io d) (hlt : (d.next c).length < 2 ^ 20) (hc : Allowed c) :
    ∃ io', call false c io = .answer (d.answer c) io' ∧ Holds io' (d.next c) := by
  cases c with
  | createNewBlock =>
    obtain ⟨hno, hnext⟩ := h.created (k := 1) (by simpa [Disk.next] using hlt)
    exact ⟨_, by rw [call_createNewBlock, hno]; rfl, hnext⟩
  | createMultipleBlocks numBlocks =>
    rw [Disk.next, List.length_append, List.length_replicate] at hlt
    obtain ⟨hno, hnext⟩ := h.created hlt
    refine ⟨_, ?_, hnext⟩
    rw [call_createMultipleBlocks hc, Nat.mod_eq_of_lt (by omega), hno]
    rfl
  | writeBlock arr i =>
    rw [Disk.next, List.length_set] at hlt
    by_cases hi : i < d.length
    · refine ⟨_, ?_, h.written hi hlt arr⟩
      rw [call_writeBlock, if_neg (by rw [h.blocks]; omega), Disk.answer, if_pos hi]
    · refine ⟨io, ?_, by rwa [Disk.next, List.set_eq_of_length_le (Nat.le_of_not_lt hi)]⟩
      rw [call_writeBlock, if_pos (by rw [h.blocks]; omega), Disk.answer, if_neg hi]
  | readBlock arr i =>
    refine ⟨io, ?_, h⟩
    rw [call_readBlock, h.blocks, Disk.answer]
    by_cases hi : i < d.length
    · have hlt' : d.length < 2 ^ 20 := hlt
      rw [if_neg (by omega), Nat.mod_eq_of_lt (by rw [PG_SZ]; omega), pread, h.content hi,
        List.getElem?_eq_getElem hi, readInto, d[i].2, List.drop_of_length_le arr.2.le, List.append_nil]
    · rw [if_pos (by omega), List.getElem?_eq_none (Nat.le_of_not_lt hi)]

theorem length_le_next (c : Call) (d : Disk) : d.length ≤ (d.next c).length := by
  cases c with
  | createNewBlock => simp [Disk.next]
  | createMultipleBlocks numBlocks => simp [Disk.next]
  | writeBlock arr i => simp [Disk.next]
  | readBlock arr i => exact le_rfl

theorem disk_length_le (h : t' <:+ t) : (disk t').length ≤ (disk t).length := by
  induction t with
  | nil => rw [List.suffix_nil.mp h]
  | cons e t ih =>
    rcases List.suffix_cons_iff.mp h with rfl | h
    · exact le_rfl
    · exact (ih h).trans (length_le_next _ _)

/-- Below 2 ^ 20 blocks the file is the blocks, and the answers are theirs. -/
theorem Run.holds (h : Run t io) (hlt : (disk t).length < 2 ^ 20) :
    Holds io (disk t) ∧ ∀ c x t', (c, x) :: t' <:+ t → x = (disk t').answer c := by
  induction h with
  | new => exact ⟨⟨rfl, rfl⟩, fun c x t' hs => absurd (List.suffix_nil.mp hs) nofun⟩
  | @call t io io' c x _ hc ih =>
    obtain ⟨hio, hanswers⟩ := ih ((length_le_next _ _).trans_lt hlt)
    obtain ⟨io'', hc', hio'⟩ := hio.step hlt (allowed_of_answer hc)
    obtain ⟨rfl, rfl⟩ := Outcome.answer_inj (hc.symm.trans hc')
    refine ⟨hio', fun c' x' t' hs => ?_⟩
    rcases List.suffix_cons_iff.mp hs with heq | hs
    · cases heq
      rfl
    · exact hanswers c' x' t' hs

theorem Run.behaves (h : Run t io) (hlt : (disk t).length < 2 ^ 20) : Behaves t io := by
  obtain ⟨hio, hanswers⟩ := h.holds hlt
  exact ⟨hio.blocks, by rw [hio.length, hio.blocks], fun i hi => hio.content hi, hanswers⟩

theorem truncate_length (size : ℕ) (file : List Byte) : (truncate size file).length = size := by
  rw [truncate, List.length_append, List.length_take, List.length_replicate]
  omega

theorem grown_size_lt (k : ℕ) (io : IOHandler) : (grown k io).file.length < 2 ^ 32 := by
  rw [grown, truncate_length]
  exact Nat.mod_lt _ (Nat.two_pow_pos 32)

/-- The call that reaches 2 ^ 20 blocks leaves a file of another size. -/
theorem size_of_crossing (hc : call false c io = .answer x io') (hsmall : d.length < 2 ^ 20)
    (hbig : 2 ^ 20 ≤ (d.next c).length) : io'.file.length ≠ (d.next c).length * PG_SZ := by
  suffices hlt : io'.file.length < 2 ^ 32 by
    rw [PG_SZ]
    omega
  cases c with
  | createNewBlock =>
    obtain ⟨-, rfl⟩ := Outcome.answer_inj (hc.symm.trans (call_createNewBlock io))
    exact grown_size_lt 1 io
  | createMultipleBlocks numBlocks =>
    obtain ⟨-, rfl⟩ := Outcome.answer_inj
      (hc.symm.trans (call_createMultipleBlocks (allowed_of_answer (c := .createMultipleBlocks numBlocks) hc) io))
    exact grown_size_lt _ io
  | writeBlock arr i =>
    rw [Disk.next, List.length_set] at hbig
    omega
  | readBlock arr i => exact absurd hbig (Nat.not_le_of_lt hsmall)

/-- The file holds the blocks along the whole run if and only if they are fewer than 2 ^ 20. -/
theorem behaves_iff (h : Run t io) :
    (∀ t' io', t' <:+ t → Run t' io' → Behaves t' io') ↔ (disk t).length < 2 ^ 20 := by
  constructor
  · intro hall
    induction h with
    | new => exact Nat.two_pow_pos 20
    | @call t io io' c x h hc ih =>
      have hsmall := ih fun t' io'' hs => hall t' io'' (hs.trans (List.suffix_cons ..))
      by_contra hbig
      have hb := hall _ io' List.suffix_rfl (h.call hc)
      refine size_of_crossing hc hsmall (Nat.le_of_not_lt hbig) ?_
      rw [hb.size, hb.count]
      rfl
  · intro hlt t' io' hs h'
    exact h'.behaves ((disk_length_le hs).trans_lt hlt)

def ones : Buffer := ⟨List.replicate PG_SZ 1, List.length_replicate⟩

def threeCalls : Trace :=
  [(.readBlock zeros 1, .ok (.bytes ones.1)), (.writeBlock ones 1, .ok .unit),
    (.createMultipleBlocks 2, .ok (.block 0))]

theorem exists_run_threeCalls : ∃ io, Run threeCalls io := by
  have h₀ : Holds (.new []) [] := ⟨rfl, rfl⟩
  obtain ⟨io₁, hc₁, h₁⟩ := h₀.step (c := .createMultipleBlocks 2) (by decide) (by decide : (0 : ℤ) < 2)
  obtain ⟨io₂, hc₂, h₂⟩ := h₁.step (c := .writeBlock ones 1) (by decide) trivial
  obtain ⟨io₃, hc₃, -⟩ := h₂.step (c := .readBlock zeros 1) (by decide) trivial
  exact ⟨io₃, ((Run.new.call hc₁).call hc₂).call hc₃⟩

theorem behaves_iff_threeCalls :
    ((∀ t' io', t' <:+ threeCalls → Run t' io' → Behaves t' io') ↔ (disk threeCalls).length < 2 ^ 20) ∧
    (disk threeCalls).length = 2 := by
  obtain ⟨io, h⟩ := exists_run_threeCalls
  exact ⟨behaves_iff h, rfl⟩

/-- After 2 ^ 20 blocks have been made the file is empty. -/
theorem behaves_counterexample : Run [(.createMultipleBlocks 1048576, .ok (.block 0))] ⟨1048576, []⟩ ∧
    (disk [(.createMultipleBlocks 1048576, .ok (.block 0))]).length < 2 ^ 32 ∧
    ¬Behaves [(.createMultipleBlocks 1048576, .ok (.block 0))] ⟨1048576, []⟩ := by
  refine ⟨.call .new rfl, ?_, fun h => ?_⟩
  · rw [disk, Disk.next, List.length_append, List.length_replicate]
    decide
  · exact absurd h.size (by decide)

end Kndb.IOHandler
