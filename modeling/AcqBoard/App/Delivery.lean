import AcqBoard.App.Handlers
import Mathlib.Data.List.Induction

/-! One acquisition, block by block.

    After a start interrupt the main loop calls `DeliverData_s` once for each data interrupt. Three
    branches, each with an SD and a PC variant, decide from the unsigned difference of two 64-bit
    counters how much of the buffer goes out. The calls together emit the sample length exactly, and
    the parity of a 32-bit counter picks the buffer, also after that counter has wrapped.

        call:     1      2      3    …    N        N = max 1 ⌈S / 65536⌉
        buffer:   A      B      A    …
        bytes:  65536  65536  65536  …  the rest -/

namespace AcqBoard.App
open Schemes

/-- The board and the bytes that each call so far has emitted. -/
structure Calls where
  board : Board
  out : List (List UInt8)

/-- One call of `DeliverData_s` whose read of the data-interrupt device returned 1. -/
def callStep (s : Calls) (m : Bram) : Except Fault Calls := do
  let r ← deliverDataS s.board true m
  pure ⟨r.1, s.out ++ [r.2.flatMap Io.bytes]⟩

/-- The number of calls that a sample length of `S` bytes takes. -/
def callsOf (S : ℕ) : ℕ := max 1 ((S + 65535) / 65536)

/-- What call number `k` emits of a sample length of `S` bytes: from buffer A for odd `k`. -/
def blockOf (S k : ℕ) (m : Bram) : List UInt8 :=
  window (if k % 2 = 1 then m.a else m.b) 0 (min 65536 (S - 65536 * (k - 1)))

/-- What the calls `ms` have emitted: call by call, and in total. -/
structure Emitted (S : ℕ) (ms : List Bram) (out : List (List UInt8)) : Prop where
  count : out.length = ms.length
  bytes : ∀ k m, 1 ≤ k → ms[k - 1]? = some m → out[k - 1]? = some (blockOf S k m)
  total : out.flatten.length = min S (65536 * ms.length)

/-- The state after the calls `ms` of an acquisition that started on board `b`. -/
structure Progress (b : Board) (ms : List Bram) (c : Calls) : Prop where
  sample : c.board.ulSampleLength = b.ulSampleLength
  savePC : c.board.uiSavePC = b.uiSavePC
  handle : c.board.pSdHPFd = b.pSdHPFd
  ready : c.board.ucIsReady = true ↔ ms.length < callsOf b.ulSampleLength.toNat
  flag : c.board.ucIsReady = true → c.board.uiFlag = UInt32.ofNat ms.length
  total : c.board.ulTotalLen.toNat = 65536 * min ms.length (callsOf b.ulSampleLength.toNat - 1)
  emitted : Emitted b.ulSampleLength.toNat ms c.out

/-- No full block is counted that the sample length does not hold. -/
theorem callsOf_mul_le (S : ℕ) : 65536 * (callsOf S - 1) ≤ S := by
  unfold callsOf; omega

theorem lt_callsOf_iff {S n : ℕ} : n + 1 < callsOf S ↔ 65536 * (n + 1) < S := by
  unfold callsOf; omega

theorem le_of_callsOf_le {S n : ℕ} (h : callsOf S ≤ n) : S ≤ 65536 * n := by
  unfold callsOf at h; omega

theorem length_blockOf (S n : ℕ) (m : Bram) :
    (blockOf S (n + 1) m).length = min 65536 (S - 65536 * n) := by
  rw [blockOf, length_window, Nat.add_sub_cancel]

theorem blockOf_done {S n : ℕ} (h : S ≤ 65536 * n) (m : Bram) : blockOf S (n + 1) m = [] := by
  rw [← List.length_eq_zero_iff, length_blockOf]
  omega

/-- One more call adds its block. -/
theorem emitted_snoc {S : ℕ} {ms : List Bram} {out : List (List UInt8)} (h : Emitted S ms out)
    (m : Bram) : Emitted S (ms ++ [m]) (out ++ [blockOf S (ms.length + 1) m]) := by
  refine ⟨by simp [h.count], ?_, ?_⟩
  · intro k m' hk hm
    rcases Nat.lt_or_ge (k - 1) ms.length with hlt | hge
    · rw [List.getElem?_append_left hlt] at hm
      rw [List.getElem?_append_left (by rw [h.count]; exact hlt)]
      exact h.bytes k m' hk hm
    · rw [List.getElem?_append_right hge] at hm
      have hk' : k - 1 - ms.length = 0 := by
        by_contra hne
        rw [List.getElem?_eq_none (by simp; omega)] at hm
        simp at hm
      obtain rfl : k = ms.length + 1 := by omega
      have hm' : m = m' := by simpa [hk'] using hm
      rw [List.getElem?_append_right (by rw [h.count]; exact hge), h.count, hk', hm']
      rfl
  · rw [List.flatten_append, List.length_append, h.total, List.length_append]
    simp only [List.flatten_cons, List.flatten_nil, List.append_nil, length_blockOf,
      List.length_cons, List.length_nil]
    omega

/-- The buffer of the next call, also when the 32-bit counter has wrapped. -/
theorem blockAddr_ofNat {b : Board} {n : ℕ} (h : b.uiFlag = UInt32.ofNat n) (m : Bram) :
    b.blockAddr m = if (n + 1) % 2 = 1 then m.a else m.b := by
  have hpar : (b.uiFlag + 1) % 2 = 1 ↔ (n + 1) % 2 = 1 := by
    rw [h, ← UInt32.toNat_inj, UInt32.toNat_mod, UInt32.toNat_add, UInt32.toNat_ofNat']
    change ((n % 2 ^ 32 + 1) % 2 ^ 32) % 2 = 1 ↔ _
    omega
  simp only [Board.blockAddr, hpar]

/-- The state a start interrupt leaves. -/
theorem progress_start {b₀ b : Board} {uiSeconds : UInt32} {fopenOk : Bool}
    (h : mesgThread b₀ uiSeconds fopenOk = .ok b) :
    Progress b [] ⟨b, []⟩ ∧ (b.uiSavePC = 0 → b.pSdHPFd ≠ none) := by
  obtain ⟨hr, hf, ht, -, hpc, hfd⟩ := mesgThread_ok h
  refine ⟨⟨rfl, rfl, rfl, ?_, fun _ => hf, by simp [ht], ⟨rfl, ?_, by simp⟩⟩, fun h0 => hfd (hpc ▸ h0)⟩
  · simp only [hr, List.length_nil, true_iff]
    unfold callsOf; omega
  · intro k m _ hm; simp at hm

/-- The difference the branches test is the number of bytes not yet emitted: it never wraps. -/
theorem remaining_of_progress {b : Board} {ms : List Bram} {c : Calls} (h : Progress b ms c)
    (hr : c.board.ucIsReady = true) :
    c.board.remaining.toNat = b.ulSampleLength.toNat - 65536 * ms.length := by
  have hn := h.ready.mp hr
  have hle := callsOf_mul_le b.ulSampleLength.toNat
  have ht := h.total
  rw [Board.remaining, h.sample, UInt64.toNat_sub_of_le]
  · omega
  · rw [UInt64.le_iff_toNat_le]; omega

/-- One call of `DeliverData_s` carries the progress on by one block. -/
theorem progress_step {b : Board} (hfd : b.uiSavePC = 0 → b.pSdHPFd ≠ none) {ms : List Bram}
    {c : Calls} (h : Progress b ms c) (m : Bram) :
    ∃ d, callStep c m = .ok d ∧ Progress b (ms ++ [m]) d := by
  cases hr : c.board.ucIsReady with
  | true =>
    have hn := h.ready.mp hr
    have hrem := remaining_of_progress h hr
    have htot := h.total
    have hlast : c.board.remaining ≤ bramSize ↔ ¬ ms.length + 1 < callsOf b.ulSampleLength.toNat := by
      rw [lt_callsOf_iff, UInt64.le_iff_toNat_le, hrem]
      change _ ≤ 65536 ↔ _
      omega
    obtain ⟨io, hok⟩ := deliverDataS_returns hr (by rw [h.savePC, h.handle]; exact hfd) m
    have hbytes : io.flatMap Io.bytes = blockOf b.ulSampleLength.toNat (ms.length + 1) m := by
      rw [(deliverDataS_ok hr hok).2.1, Board.blockBytes, blockOf, blockAddr_ofNat (h.flag hr),
        toNat_blockLen, hrem, Nat.add_sub_cancel]
    refine ⟨⟨c.board.afterBlock m, c.out ++ [io.flatMap Io.bytes]⟩, ?_, ?_⟩
    · rw [callStep, hok]; rfl
    · rw [hbytes]
      refine ⟨h.sample, h.savePC, h.handle, ?_, ?_, ?_, emitted_snoc h.emitted m⟩
      · rw [Board.afterBlock, decide_eq_true_iff, List.length_append, ← UInt64.not_le, hlast]
        simp
      · intro _
        simp only [Board.afterBlock, h.flag hr, List.length_append, List.length_cons,
          List.length_nil, UInt32.ofNat_add]
        rfl
      · simp only [Board.afterBlock, List.length_append, List.length_cons, List.length_nil]
        split
        · rename_i hle
          have := hlast.mp hle
          omega
        · rename_i hle
          have hlt : ms.length + 1 < callsOf b.ulSampleLength.toNat := by
            by_contra hge
            exact hle (hlast.mpr hge)
          have hS := lt_callsOf_iff.mp hlt
          have hmax := b.ulSampleLength.toNat_lt
          rw [UInt64.toNat_add, htot]
          change (_ + 65536) % _ = _
          omega
  | false =>
    have hn : callsOf b.ulSampleLength.toNat ≤ ms.length := by
      by_contra hlt
      rw [h.ready.mpr (by omega)] at hr
      simp at hr
    refine ⟨⟨c.board, c.out ++ [[]]⟩, ?_, ?_⟩
    · rw [callStep, deliverDataS_idle (by rw [hr]; rfl)]; rfl
    · rw [← blockOf_done (le_of_callsOf_le hn) m]
      refine ⟨h.sample, h.savePC, h.handle, ?_, ?_, ?_, emitted_snoc h.emitted m⟩
      · simp only [hr, List.length_append, List.length_cons, List.length_nil]
        constructor
        · intro hf; simp at hf
        · intro hlt; omega
      · intro hf; rw [hr] at hf; simp at hf
      · rw [h.total]; simp only [List.length_append, List.length_cons, List.length_nil]; omega

/-- Folding the calls over the interrupts keeps the progress. -/
theorem progress_run {b : Board} (hfd : b.uiSavePC = 0 → b.pSdHPFd ≠ none)
    (hb : Progress b [] ⟨b, []⟩) (ms : List Bram) :
    ∃ c, run callStep ⟨b, []⟩ ms = .ok c ∧ Progress b ms c := by
  induction ms using List.reverseRecOn with
  | nil => exact ⟨_, rfl, hb⟩
  | append_singleton ms m ih =>
    obtain ⟨c, hc, hp⟩ := ih
    obtain ⟨d, hd, hq⟩ := progress_step hfd hp m
    refine ⟨d, run_append_ok.mpr ⟨c, hc, ?_⟩, hq⟩
    rw [run_cons, hd]; rfl

/-- CORRECT: the calls of `DeliverData_s` after a start interrupt emit the sample length `S`, block
    by block from buffers A and B in turn, without a byte lost or repeated; the counters never pass
    `S`, and the acquisition is ready up to call number `max 1 ⌈S / 65536⌉` and not after it. -/
theorem deliverDataS_emits_sample {b₀ b : Board} {uiSeconds : UInt32} {fopenOk : Bool}
    (hstart : mesgThread b₀ uiSeconds fopenOk = .ok b) (ms : List Bram) :
    ∃ c, run callStep ⟨b, []⟩ ms = .ok c ∧
      c.out.length = ms.length ∧
      (∀ k m, 1 ≤ k → ms[k - 1]? = some m → c.out[k - 1]? =
        some (window (if k % 2 = 1 then m.a else m.b) 0
          (min 65536 (b.ulSampleLength.toNat - 65536 * (k - 1))))) ∧
      c.board.ulSampleLength = b.ulSampleLength ∧
      c.board.ulTotalLen ≤ c.board.ulSampleLength ∧
      (c.board.ucIsReady = true ↔
        ms.length < max 1 ((b.ulSampleLength.toNat + 65535) / 65536)) ∧
      (max 1 ((b.ulSampleLength.toNat + 65535) / 65536) ≤ ms.length →
        c.out.flatten.length = b.ulSampleLength.toNat) := by
  obtain ⟨hb, hfd⟩ := progress_start hstart
  obtain ⟨c, hc, hp⟩ := progress_run hfd hb ms
  refine ⟨c, hc, hp.emitted.count, hp.emitted.bytes, hp.sample, ?_, hp.ready, ?_⟩
  · have hle := callsOf_mul_le b.ulSampleLength.toNat
    have ht := hp.total
    rw [hp.sample, UInt64.le_iff_toNat_le]
    omega
  · intro hN
    have hS := le_of_callsOf_le (S := b.ulSampleLength.toNat) hN
    rw [hp.emitted.total]
    omega

/-- A sample length of 100000 bytes goes out in two calls. -/
theorem deliverDataS_emits_sample_two : ∃ c,
    run callStep ⟨mesgFlags { benchBoard with ulSampleLength := 100000, uiSavePC := 1 }, []⟩
      [zeroBram, zeroBram] = .ok c ∧ c.board.ucIsReady = false ∧ c.out.flatten.length = 100000 := by
  have hstart : mesgThread { benchBoard with ulSampleLength := 100000, uiSavePC := 1 } 0 true =
      .ok (mesgFlags { benchBoard with ulSampleLength := 100000, uiSavePC := 1 }) := rfl
  obtain ⟨c, hc, -, -, -, -, hr, hN⟩ := deliverDataS_emits_sample hstart [zeroBram, zeroBram]
  refine ⟨c, hc, ?_, hN (by decide)⟩
  rw [Bool.eq_false_iff, Ne, hr]
  decide

end AcqBoard.App
