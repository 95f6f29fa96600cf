import Kndb.IOHandler.Run

namespace Kndb.IOHandler

open Imp Imp.Prog

abbrev Attempts := List (Call × Bool)

/-- The calls that have been answered, if only with an exception, on a file of fewer than 2 ^ 20
blocks. -/
inductive Attempted (file : List Byte) : Attempts → IOHandler → Prop
  | new (hfile : file.length < 2 ^ 20 * PG_SZ) : Attempted file [] (.new file)
  | call {t : Attempts} {io io' : IOHandler} {c : Call} {fails : Bool} {x : Except Exn Answer}
    (h : Attempted file t io) (hc : call fails c io = .answer x io') (hlt : io'.blocks < 2 ^ 20) :
    Attempted file ((c, fails) :: t) io'

/-- The file has the blocks that are counted, and only these are read and written. -/
structure InStep (io : IOHandler) : Prop where
  size : io.blocks * PG_SZ = io.file.length
  written : ∀ fails arr i io', call fails (.writeBlock arr i) io = .answer (.ok .unit) io' →
    (i + 1) * PG_SZ ≤ io.file.length
  read : ∀ fails arr i b io', call fails (.readBlock arr i) io = .answer (.ok (.bytes b)) io' →
    (i + 1) * PG_SZ ≤ io.file.length

variable {file : List Byte} {t : Attempts} {io io' : IOHandler} {c : Call} {fails : Bool}
variable {x : Except Exn Answer}

theorem inStep_of_size (h : io.blocks * PG_SZ = io.file.length) : InStep io := by
  have hend : ∀ i, i < io.blocks → (i + 1) * PG_SZ ≤ io.file.length := fun i hi => by
    rw [← h]
    exact Nat.mul_le_mul_right PG_SZ hi
  refine ⟨h, fun fails arr i io' hw => hend i ?_, fun fails arr i b io' hr => hend i ?_⟩
  · by_contra hle
    change call false (.writeBlock arr i) io = _ at hw
    rw [call_writeBlock, if_pos (Nat.le_of_not_lt hle)] at hw
    cases (Outcome.answer_inj hw).1
  · by_contra hle
    change call false (.readBlock arr i) io = _ at hr
    rw [call_readBlock, if_pos (Nat.le_of_not_lt hle)] at hr
    cases (Outcome.answer_inj hr).1

theorem pwrite_length {arr file : List Byte} {offset : ℕ} (h : offset + arr.length ≤ file.length) :
    (pwrite arr offset file).length = file.length := by
  rw [pwrite, List.length_append, List.length_append, List.length_take, List.length_drop, List.length_append,
    List.length_replicate]
  omega

theorem size_grown {k : ℕ} (hlt : (grown k io).blocks < 2 ^ 20) :
    (grown k io).blocks * PG_SZ = (grown k io).file.length := by
  have hsize : (grown k io).blocks * PG_SZ % 2 ^ 32 = (grown k io).blocks * PG_SZ :=
    Nat.mod_eq_of_lt (by rw [PG_SZ]; omega)
  rw [← hsize]
  exact (truncate_length _ io.file).symm

theorem call_createNewBlock_fails (io : IOHandler) : call true .createNewBlock io =
    .answer (.error (.runtimeError "Failed to increase file size"))
      { io with blocks := (io.blocks + 1) % 2 ^ 32 } := rfl

theorem call_createMultipleBlocks_fails {numBlocks : ℤ} (h : 0 < numBlocks) (io : IOHandler) :
    call true (.createMultipleBlocks numBlocks) io =
      .answer (.error (.runtimeError "Failed to increase file size")) io := by
  have hthrow : createMultipleBlocks true numBlocks io =
      .throw (.runtimeError "Failed to increase file size") io := by
    rw [createMultipleBlocks, bind_ok (require_ok _ _ (decide_eq_true h))]
    rfl
  rw [call, bind_apply, seq, hthrow]
  rfl

/-- Every call keeps the size, but for a `createNewBlock` that fails. -/
theorem size_of_call (h : io.blocks * PG_SZ = io.file.length) (hsmall : io.blocks < 2 ^ 20)
    (hc : call fails c io = .answer x io') (hlt : io'.blocks < 2 ^ 20)
    (hok : c = .createNewBlock → fails = false) : io'.blocks * PG_SZ = io'.file.length := by
  cases c with
  | createNewBlock =>
    obtain rfl := hok rfl
    obtain ⟨-, rfl⟩ := Outcome.answer_inj (hc.symm.trans (call_createNewBlock io))
    exact size_grown hlt
  | createMultipleBlocks numBlocks =>
    have hpos : 0 < numBlocks := allowed_of_answer hc
    cases fails with
    | true =>
      obtain ⟨-, rfl⟩ := Outcome.answer_inj (hc.symm.trans (call_createMultipleBlocks_fails hpos io))
      exact h
    | false =>
      obtain ⟨-, rfl⟩ := Outcome.answer_inj (hc.symm.trans (call_createMultipleBlocks hpos io))
      exact size_grown hlt
  | writeBlock arr i =>
    change call false (.writeBlock arr i) io = _ at hc
    rw [call_writeBlock] at hc
    split_ifs at hc with hi
    · obtain ⟨-, rfl⟩ := Outcome.answer_inj hc
      exact h
    · obtain ⟨-, rfl⟩ := Outcome.answer_inj hc
      -- a block is written inside the file, whose size it does not change
      refine h.trans (pwrite_length ?_).symm
      rw [arr.2, ← h, Nat.mod_eq_of_lt (by rw [PG_SZ]; omega), ← Nat.succ_mul]
      exact Nat.mul_le_mul_right PG_SZ (Nat.lt_of_not_le hi)
  | readBlock arr i =>
    change call false (.readBlock arr i) io = _ at hc
    rw [call_readBlock] at hc
    split_ifs at hc
    · obtain ⟨-, rfl⟩ := Outcome.answer_inj hc
      exact h
    · obtain ⟨-, rfl⟩ := Outcome.answer_inj hc
      exact h

theorem new_blocks (hfile : file.length < 2 ^ 20 * PG_SZ) : (new file).blocks = file.length / PG_SZ := by
  refine Nat.mod_eq_of_lt ?_
  rw [PG_SZ] at hfile ⊢
  omega

theorem Attempted.blocks_lt (h : Attempted file t io) : io.blocks < 2 ^ 20 := by
  cases h with
  | new hfile =>
    rw [new_blocks hfile]
    exact Nat.div_lt_of_lt_mul (by rwa [Nat.mul_comm])
  | call _ _ hlt => exact hlt

theorem Attempted.size (h : Attempted file t io) (hfile : PG_SZ ∣ file.length)
    (hok : ∀ a ∈ t, a.1 = .createNewBlock → a.2 = false) : io.blocks * PG_SZ = io.file.length := by
  induction h with
  | new hlt =>
    rw [new_blocks hlt]
    exact Nat.div_mul_cancel hfile
  | call h hc hlt ih =>
    refine size_of_call (ih fun a ha => hok a (List.mem_cons_of_mem _ ha)) h.blocks_lt hc hlt ?_
    exact hok _ (List.mem_cons_self ..)

/-- The file has the blocks that are counted in every state of a run if and only if it did at first and
no `createNewBlock` has failed. -/
theorem inStep_iff (h : Attempted file t io) :
    (∀ t' io', t' <:+ t → Attempted file t' io' → InStep io') ↔
      PG_SZ ∣ file.length ∧ ∀ a ∈ t, a.1 = .createNewBlock → a.2 = false := by
  constructor
  · intro hall
    induction h with
    | new hfile =>
      have hsize := (hall [] _ List.suffix_rfl (.new hfile)).size
      refine ⟨⟨_, (hsize.symm.trans (Nat.mul_comm ..))⟩, nofun⟩
    | @call t io io' c fails x h hc hlt ih =>
      obtain ⟨hfile, hok⟩ := ih fun t' io'' hs => hall t' io'' (hs.trans (List.suffix_cons ..))
      refine ⟨hfile, fun a ha => ?_⟩
      rcases List.mem_cons.mp ha with rfl | ha
      swap
      · exact hok a ha
      rintro rfl
      by_contra hfails
      obtain rfl : fails = true := by simpa using hfails
      have hbefore := (hall t io (List.suffix_cons ..) h).size
      have hafter := (hall _ io' List.suffix_rfl (h.call hc hlt)).size
      obtain ⟨-, rfl⟩ := Outcome.answer_inj (hc.symm.trans (call_createNewBlock_fails io))
      -- one block more is counted, and the file is as long as before
      have hsmall := h.blocks_lt
      change (io.blocks + 1) % 2 ^ 32 * PG_SZ = io.file.length at hafter
      rw [PG_SZ] at hbefore hafter
      omega
  · rintro ⟨hfile, hok⟩ t' io' hs h'
    exact inStep_of_size (h'.size hfile fun a ha => hok a (hs.mem ha))

theorem attempted_oneBlock : Attempted [] [(.createMultipleBlocks 1, true), (.createNewBlock, false)] ⟨1, zeros.1⟩ :=
  .call (.call (.new (by decide)) (call_createNewBlock _) (by decide))
    (call_createMultipleBlocks_fails (by decide) _) (by decide)

theorem inStep_iff_oneBlock :
    (∀ t' io', t' <:+ [(.createMultipleBlocks 1, true), (.createNewBlock, false)] → Attempted [] t' io' → InStep io') ↔
      PG_SZ ∣ ([] : List Byte).length ∧
        ∀ a ∈ [(Call.createMultipleBlocks 1, true), (.createNewBlock, false)], a.1 = .createNewBlock → a.2 = false :=
  inStep_iff attempted_oneBlock

/-- A block is counted that the file does not have, and read from it as whatever the buffer held. -/
theorem inStep_counterexample : Attempted [] [(.createNewBlock, true)] ⟨1, []⟩ ∧ ¬InStep ⟨1, []⟩ ∧
    ∀ arr : Buffer, call false (.readBlock arr 0) ⟨1, []⟩ = .answer (.ok (.bytes arr.1)) ⟨1, []⟩ := by
  refine ⟨.call (.new (by decide)) (call_createNewBlock_fails _) (by decide), fun h => ?_, fun arr => ?_⟩
  · exact absurd h.size (by decide)
  · exact call_readBlock arr 0 _

end Kndb.IOHandler
