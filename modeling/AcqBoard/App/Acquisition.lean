import AcqBoard.App.Handlers

/-! Whole histories of the acquisition: any order of `AcqStart`, `AcqStop`, start interrupts and data
    interrupts, each handled in one atomic step.

    The counters of an acquisition are reset by different handlers: the start interrupt resets the
    flag and the total length, `AcqStart` replaces the sample length and resets only the flag. The
    data file is opened by the start interrupt if the save position is SD then, and `AcqStart` can
    change the save position afterwards. So the counter invariant and the file invariant hold in a
    history exactly when each handler is called in a state it is safe in, and both are broken by
    short histories that the code does not exclude. -/

namespace AcqBoard.App
open Schemes

inductive Event where
  | acqStart (p : Profile) (uiSeconds : UInt32) (bitBuff : ℕ → UInt8)
  | acqStop
  | startIrq (uiSeconds : UInt32) (fopenOk : Bool)
  | dataIrq (m : Bram)

/-- One event, handled by the program. -/
def step (b : Board) : Event → Except Fault Board
  | .acqStart p uiSeconds bitBuff => acqStart b p uiSeconds bitBuff
  | .acqStop => .ok (acqStop b)
  | .startIrq uiSeconds fopenOk => mesgThread b uiSeconds fopenOk
  | .dataIrq m => do
    let r ← deliverDataS b true m
    pure r.1

/-! ### The counters -/

/-- The board and the data interrupts handled since the last start interrupt. -/
structure Counted where
  board : Board
  irqs : ℕ

def irqsAfter (irqs : ℕ) : Event → ℕ
  | .startIrq .. => 0
  | .dataIrq _ => irqs + 1
  | _ => irqs

def countStep (s : Counted) (e : Event) : Except Fault Counted := do
  let c ← step s.board e
  pure ⟨c, irqsAfter s.irqs e⟩

/-- The remaining length does not wrap, and in an acquisition the flag has the parity of the blocks
    handled. -/
def CountersOk (s : Counted) : Prop :=
  s.board.ulTotalLen ≤ s.board.ulSampleLength ∧
    (s.board.ucIsReady = true → s.irqs % 2 = s.board.uiFlag.toNat % 2)

instance (s : Counted) : Decidable (CountersOk s) :=
  inferInstanceAs (Decidable (_ ∧ (_ → _)))

/-- When `AcqStart` is safe: the new sample length covers what is already counted, and an acquisition
    in progress is at an even block. Every other event is safe. -/
def RestartSafe (s : Counted) : Event → Prop
  | .acqStart p _ _ => s.board.ulTotalLen ≤ p.sampleLength ∧
      (s.board.ucIsReady = true → s.board.uiFlag.toNat % 2 = 0)
  | _ => True

instance (s : Counted) : (e : Event) → Decidable (RestartSafe s e)
  | .acqStart .. => inferInstanceAs (Decidable (_ ∧ (_ → _)))
  | .acqStop => isTrue trivial
  | .startIrq .. => isTrue trivial
  | .dataIrq _ => isTrue trivial

theorem countStep_ok {s t : Counted} {e : Event} (h : countStep s e = .ok t) :
    ∃ c, step s.board e = .ok c ∧ t = ⟨c, irqsAfter s.irqs e⟩ := by
  obtain ⟨c, hc, h⟩ := bind_eq_ok.mp h
  exact ⟨c, hc, (pure_eq_ok.mp h).symm⟩

/-- A data interrupt keeps the counters: a full block is counted only if more than that remains. -/
theorem countersOk_dataIrq {s t : Counted} {m : Bram} (hs : CountersOk s)
    (h : countStep s (.dataIrq m) = .ok t) : CountersOk t := by
  obtain ⟨c, hc, rfl⟩ := countStep_ok h
  obtain ⟨⟨d, io⟩, hd, hc⟩ := bind_eq_ok.mp hc
  obtain rfl : d = c := pure_eq_ok.mp hc
  obtain ⟨hle, hpar⟩ := hs
  cases hr : s.board.ucIsReady with
  | false =>
    rw [deliverDataS_idle (by rw [hr]; rfl), Except.ok.injEq, Prod.mk.injEq] at hd
    obtain ⟨rfl, -⟩ := hd
    exact ⟨hle, fun hf => by rw [hr] at hf; simp at hf⟩
  | true =>
    obtain ⟨rfl, -⟩ := deliverDataS_ok hr hd
    rw [UInt64.le_iff_toNat_le] at hle
    refine ⟨?_, ?_⟩
    · simp only [Board.afterBlock]
      split
      · exact UInt64.le_iff_toNat_le.mpr hle
      · rename_i hrem
        have hrem' : 65536 < s.board.ulSampleLength.toNat - s.board.ulTotalLen.toNat := by
          rw [← UInt64.toNat_sub_of_le _ _ (UInt64.le_iff_toNat_le.mpr hle)]
          exact UInt64.lt_iff_toNat_lt.mp (UInt64.not_le.mp hrem)
        have hmax := s.board.ulSampleLength.toNat_lt
        rw [UInt64.le_iff_toNat_le, UInt64.toNat_add]
        change (_ + 65536) % _ ≤ _
        omega
    · intro _
      have hp := hpar hr
      simp only [Board.afterBlock, UInt32.toNat_add]
      change (_ + 1) % 2 = ((_ + 1) % 2 ^ 32) % 2
      omega

/-- A step that is defined keeps the counters exactly when it is safe. -/
theorem countersOk_step {s t : Counted} {e : Event} (hs : CountersOk s)
    (h : countStep s e = .ok t) : CountersOk t ↔ RestartSafe s e := by
  cases e with
  | acqStart p uiSeconds bitBuff =>
    obtain ⟨c, hc, rfl⟩ := countStep_ok h
    obtain ⟨csr, prbs, ram, rfl⟩ := acqStart_ok hc
    refine and_congr_right fun _ => imp_congr_right fun hr => ?_
    have hpar : s.irqs % 2 = s.board.uiFlag.toNat % 2 := hs.2 hr
    rw [← hpar]
    exact Iff.rfl
  | acqStop =>
    obtain ⟨c, hc, rfl⟩ := countStep_ok h
    obtain rfl : acqStop s.board = c := by simpa [step] using hc
    obtain ⟨hr, ht, hl, -⟩ := acqStop_frame s.board
    simp only [RestartSafe, iff_true, CountersOk, hr, ht, hl]
    exact ⟨hs.1, fun hf => by simp at hf⟩
  | startIrq uiSeconds fopenOk =>
    obtain ⟨c, hc, rfl⟩ := countStep_ok h
    obtain ⟨-, hf, ht, -⟩ := mesgThread_ok hc
    simp only [RestartSafe, iff_true, CountersOk, hf, ht]
    exact ⟨UInt64.le_iff_toNat_le.mpr (Nat.zero_le _), fun _ => rfl⟩
  | dataIrq m => exact ⟨fun _ => trivial, fun _ => countersOk_dataIrq hs h⟩

/-- CORRECT: in a history that runs through, the remaining length never wraps and the flag keeps the
    parity of the blocks handled, exactly if every `AcqStart` in it is handled in a safe state. -/
theorem countersOk_iff_restartSafe (csr : Csr.Regs) (ram : ℕ → UInt32) (files : Files)
    {es : List Event} {t : Counted}
    (h : run countStep ⟨Board.boot csr ram files, 0⟩ es = .ok t) :
    Always countStep CountersOk ⟨Board.boot csr ram files, 0⟩ es ↔
      Meets countStep RestartSafe ⟨Board.boot csr ram files, 0⟩ es := by
  have hboot : CountersOk ⟨Board.boot csr ram files, 0⟩ :=
    ⟨UInt64.le_refl _, fun hr => by cases hr⟩
  exact always_iff_meets_of_ok CountersOk (fun _ _ => True) id
    (fun hs _ hok hst => (countersOk_step hs hst).mpr hok) (fun hs _ => countersOk_step hs)
    hboot (meets_true es _) h

/-- A second configuration while an acquisition runs: 4 bytes are to be sampled, 65536 are counted. -/
theorem countersOk_fails_on_restart : ¬ ∀ (es : List Event) (t : Counted),
    run countStep ⟨benchBoard, 0⟩ es = .ok t → CountersOk t := by
  intro h
  have hrun := h [.acqStart benchProfile 5 (fun _ => 0), .startIrq 7 true, .dataIrq zeroBram,
    .acqStart shortProfile 8 (fun _ => 0)] _ rfl
  exact absurd hrun (by decide)

/-- Started, run for a block and stopped, an acquisition may be configured anew. -/
theorem countersOk_iff_restartSafe_stopped :
    Always countStep CountersOk ⟨benchBoard, 0⟩ [.acqStart benchProfile 5 (fun _ => 0),
      .startIrq 7 true, .dataIrq zeroBram, .acqStop, .acqStart benchProfile 8 (fun _ => 0)] := by
  exact (countersOk_iff_restartSafe (fun _ => 0) (fun _ => 0) Files.empty rfl).mpr (by decide)

/-! ### The data file -/

/-- In an acquisition that saves to SD the data file is open. `fwrite` on a file that is not open is
    the fault `nullFile`; the program closes a file only where it drops the handle. -/
def FileOk (b : Board) : Prop := b.ucIsReady = true → b.uiSavePC = 0 → b.pSdHPFd ≠ none

/-- When an event is safe for the data file: `AcqStart` does not turn an acquisition without a file
    to SD, and `fopen` succeeds when a start interrupt opens the file. -/
def FileSafe (b : Board) : Event → Prop
  | .acqStart p _ _ => b.ucIsReady = true → p.savePosition = 0 → b.pSdHPFd ≠ none
  | .startIrq _ fopenOk => b.uiSavePC = 0 → fopenOk = true
  | _ => True

instance (b : Board) : (e : Event) → Decidable (FileSafe b e)
  | .acqStart .. => inferInstanceAs (Decidable (_ → _ → _))
  | .startIrq .. => inferInstanceAs (Decidable (_ → _))
  | .acqStop => isTrue trivial
  | .dataIrq _ => isTrue trivial

/-- A step that meets no other fault is defined and keeps the data file exactly when it is safe. -/
theorem fileOk_step {b : Board} {e : Event} (hb : FileOk b)
    (hf : ∀ f, step b e = .error f → f = .nullFile) :
    (∃ c, step b e = .ok c ∧ FileOk c) ↔ FileSafe b e := by
  cases e with
  | acqStart p uiSeconds bitBuff =>
    cases hc : step b (.acqStart p uiSeconds bitBuff) with
    | error f => exact absurd (hf f hc) (acqStart_error hc)
    | ok c =>
      obtain ⟨csr, prbs, ram, rfl⟩ := acqStart_ok hc
      simp only [Except.ok.injEq, exists_eq_left', FileOk, FileSafe, toUInt32_eq_zero]
  | acqStop =>
    have hr := (acqStop_frame b).1
    simp only [step, Except.ok.injEq, exists_eq_left', FileOk, FileSafe, hr, iff_true]
    exact fun h => by cases h
  | startIrq uiSeconds fopenOk =>
    cases hc : step b (.startIrq uiSeconds fopenOk) with
    | error f =>
      obtain rfl := hf f hc
      obtain ⟨hpc, hno⟩ := mesgFile_null hc
      simp only [reduceCtorEq, false_and, exists_false, FileSafe, false_iff, hno]
      exact fun h => by simpa using h hpc
    | ok c =>
      obtain ⟨-, -, -, -, hpc, hfd⟩ := mesgThread_ok hc
      simp only [Except.ok.injEq, exists_eq_left', FileSafe]
      refine ⟨fun _ h0 => (mesgFile_sd (b := mesgFlags b) h0 hc).1, fun _ _ h0 => hfd (hpc ▸ h0)⟩
  | dataIrq m =>
    simp only [FileSafe, iff_true]
    cases hr : b.ucIsReady with
    | false =>
      refine ⟨b, ?_, hb⟩
      rw [step, deliverDataS_idle (by rw [hr]; rfl)]; rfl
    | true =>
      obtain ⟨io, hok⟩ := deliverDataS_returns hr (hb hr) m
      refine ⟨b.afterBlock m, ?_, fun _ => hb hr⟩
      rw [step, hok]; rfl

/-- CORRECT: in a history without other undefined behaviour, every `fwrite` of `MesgThread` and
    `DeliverData_s` goes to an open file, and the file is open whenever an acquisition that saves to
    SD is ready, exactly if every event is handled in a state it is safe in. -/
theorem fileOk_iff_fileSafe (csr : Csr.Regs) (ram : ℕ → UInt32) (files : Files) {es : List Event}
    (h : ∀ f, run step (Board.boot csr ram files) es = .error f → f = .nullFile) :
    Always step FileOk (Board.boot csr ram files) es ↔
      Meets step FileSafe (Board.boot csr ram files) es :=
  always_iff_meets_self _ fileOk_step (fun hr => by cases hr) h

/-- Started for the PC and turned to SD by a second configuration: the next block is written to a
    null `FILE *`. The same happens on the start interrupt when `fopen` fails. -/
theorem fileOk_fails_on_turn : ¬ ∀ es : List Event,
    run step benchBoard es ≠ .error .nullFile := by
  intro h
  exact h [.acqStart benchProfile 5 (fun _ => 0), .startIrq 7 true,
    .acqStart { benchProfile with savePosition := 0 } 8 (fun _ => 0), .dataIrq zeroBram] rfl

/-- An acquisition configured for SD, started with a file and stopped. -/
theorem fileOk_iff_fileSafe_stopped :
    Always step FileOk benchBoard [.acqStart { benchProfile with savePosition := 0 } 5 (fun _ => 0),
      .startIrq 7 true, .dataIrq zeroBram, .acqStop] := by
  exact (fileOk_iff_fileSafe (fun _ => 0) (fun _ => 0) Files.empty
    (fun f hf => by cases hf)).mpr (by decide)

end AcqBoard.App
