import AcqBoard.App.Configuration

/-! The four operations that move an acquisition: `AcqStart` and `AcqStop` on a command of the PC, one
    iteration of `MesgThread` on a start interrupt, and `DeliverData_s` on a data interrupt.

    Each has one lemma that says everything it can do; the invariants are derived from these and
    never unfold a handler again. -/

namespace AcqBoard.App
open Schemes Csr

/-! ### `AcqStart`, `AcqStop` -/

/-- `AcqStart`, with its calls of `RegWrite`; the acknowledgement it leaves in the command buffer is in
    `App.Command`. -/
def acqStartLogged (b : Board) (p : Profile) (uiSeconds : UInt32) (bitBuff : ℕ → UInt8) :
    Except Fault (Board × List (UInt32 × UInt32)) := do
  let (b, calls) ← configurationLogged b p uiSeconds bitBuff
  let csr := RegLog.regWrite ⟨b.csr, calls⟩ csrRecEn 1
  pure ({ b with uiFlag := 0, csr := csr.regs }, csr.calls)

def acqStart (b : Board) (p : Profile) (uiSeconds : UInt32) (bitBuff : ℕ → UInt8) :
    Except Fault Board :=
  (acqStartLogged b p uiSeconds bitBuff).map Prod.fst

/-- `AcqStop`, with its calls of `RegWrite`; the acknowledgement it leaves in the command buffer is in
    `App.Command`. -/
def acqStopLogged (b : Board) : Board × List (UInt32 × UInt32) :=
  let csr := RegLog.regWrite ⟨b.csr, []⟩ csrRecEn 0
  let csr := csr.regWrite csrTAcq 0
  let csr := csr.regWrite csrTDelta 0
  let csr := csr.regWrite csrTStart 0
  let b := { b with csr := csr.regs, ucIsReady := false, uiFlag := 0 }
  let b := if b.uiSavePC = 0 then
      match b.pSdHPFd with
      | some _ => { b with files := b.files.remove b.sdFileName }.fclose
      | none => b
    else b
  (b, csr.calls)

def acqStop (b : Board) : Board := (acqStopLogged b).1

/-- `AcqStart` is `Configuration` with an end of its own. -/
theorem acqStart_eq (b : Board) (p : Profile) (uiSeconds : UInt32) (bitBuff : ℕ → UInt8) :
    acqStart b p uiSeconds bitBuff = configuration b p uiSeconds bitBuff >>= fun c =>
      pure { c with uiFlag := 0, csr := regWrite c.csr csrRecEn 1 } := by
  unfold acqStart acqStartLogged configuration
  cases configurationLogged b p uiSeconds bitBuff <;> rfl

/-- What `AcqStart` does: `Configuration`, and the block counter starts over. Ready flag, total
    length, data file and file system stay as they are. -/
theorem acqStart_ok {b c : Board} {p : Profile} {uiSeconds : UInt32} {bitBuff : ℕ → UInt8}
    (h : acqStart b p uiSeconds bitBuff = .ok c) :
    ∃ csr prbs ram, c = { b with
      uiFlag := 0
      uiSavePC := p.savePosition.toUInt32
      sdDataDir := p.dataDirectory.getD b.sdDataDir
      puiConfigBuf := configBlock p (p.dataDirectory.getD b.sdDataDir)
      ulSampleLength := p.sampleLength
      puiPrbsBuff := prbs
      csr := csr
      ram := ram } := by
  rw [acqStart_eq] at h
  obtain ⟨d, hd, h⟩ := bind_eq_ok.mp h
  obtain ⟨csr, prbs, ram, rfl⟩ := configuration_ok hd
  exact ⟨_, prbs, ram, (pure_eq_ok.mp h).symm⟩

theorem acqStart_error {b : Board} {p : Profile} {uiSeconds : UInt32} {bitBuff : ℕ → UInt8}
    {f : Fault} (h : acqStart b p uiSeconds bitBuff = .error f) : f ≠ .nullFile := by
  rw [acqStart_eq] at h
  rcases bind_eq_error.mp h with h | ⟨_, _, h⟩
  · exact configuration_error h
  · simp [pure, Except.pure] at h

/-- What `AcqStop` does in SD mode with a data file open: the file is removed and closed. -/
theorem acqStop_sd {b : Board} {name : List UInt8} (hpc : b.uiSavePC = 0)
    (hfd : b.pSdHPFd = some name) :
    acqStop b = { b with
      ucIsReady := false
      uiFlag := 0
      files := (b.files.remove b.sdFileName).close name
      pSdHPFd := none
      csr := (acqStop b).csr } := by
  unfold acqStop acqStopLogged
  simp only [hpc, if_true, hfd, Board.fclose]

/-- What `AcqStop` does otherwise: only the flags and the registers change. -/
theorem acqStop_other {b : Board} (h : b.uiSavePC = 0 → b.pSdHPFd = none) :
    acqStop b = { b with ucIsReady := false, uiFlag := 0, csr := (acqStop b).csr } := by
  unfold acqStop acqStopLogged
  by_cases hpc : b.uiSavePC = 0
  · simp only [hpc, if_true, h hpc]
  · simp only [hpc, if_false]

/-- What `AcqStop` leaves of the acquisition. -/
theorem acqStop_frame (b : Board) :
    (acqStop b).ucIsReady = false ∧ (acqStop b).ulTotalLen = b.ulTotalLen ∧
      (acqStop b).ulSampleLength = b.ulSampleLength ∧ (acqStop b).uiSavePC = b.uiSavePC := by
  by_cases h : b.uiSavePC = 0 → b.pSdHPFd = none
  · rw [acqStop_other h]; exact ⟨rfl, rfl, rfl, rfl⟩
  · push Not at h
    obtain ⟨hpc, hfd⟩ := h
    obtain ⟨name, hname⟩ := Option.ne_none_iff_exists'.mp hfd
    rw [acqStop_sd hpc hname]; exact ⟨rfl, rfl, rfl, rfl⟩

theorem tStart_acqStop (b : Board) : tStart (acqStop b).csr = false := by
  unfold acqStop acqStopLogged
  dsimp only
  split
  · split
    · rw [Board.csr_fclose]
      exact tStart_clear _
    · exact tStart_clear _
  · exact tStart_clear _

/-! ### `MesgThread` -/

/-- `MesgThread` up to the data file: the acquisition is ready and its counters start over. The GPS
    record it sends to the PC at the end of the iteration is not part of this state. -/
def mesgFlags (b : Board) : Board := { b with ucIsReady := true, uiFlag := 0, ulTotalLen := 0 }

/-- `sprintf(s_SD_FILE_NAME, "/mnt/%s/%d_tx.dat", s_SdDataDIR, uiSeconds)`, without the NUL. -/
def sdName (dir : DataDir) (uiSeconds : UInt32) : List UInt8 :=
  ascii "/mnt/" ++ dir.bytes ++ ascii "/" ++ decimal uiSeconds.toInt32.toInt ++ ascii "_tx.dat"

/-- `MesgThread`'s data file: in SD mode close the old one, open a new one named after the second
    `uiSeconds` and write the configuration block into it, whether or not `fopen` succeeded. -/
def mesgFile (b : Board) (uiSeconds : UInt32) (fopenOk : Bool) : Except Fault Board :=
  if b.uiSavePC = 0 then
    let b := b.fclose
    let name := sdName b.sdDataDir uiSeconds
    if name.length < 32 then
      let b := { b with sdFileName := name }
      let b := if fopenOk then { b with files := b.files.create name, pSdHPFd := some name } else b
      b.fwrite b.puiConfigBuf
    else .error .outOfRange
  else .ok b

/-- One iteration of `MesgThread` after the start-interrupt device returned 1. -/
def mesgThread (b : Board) (uiSeconds : UInt32) (fopenOk : Bool) : Except Fault Board :=
  mesgFile (mesgFlags b) uiSeconds fopenOk

/-- What the data-file part does in PC mode: nothing. -/
theorem mesgFile_pc {b : Board} {uiSeconds : UInt32} {fopenOk : Bool} (hpc : b.uiSavePC ≠ 0) :
    mesgFile b uiSeconds fopenOk = .ok b := by
  rw [mesgFile, if_neg hpc]

/-- What it does in SD mode when it returns: `fopen` succeeded, and the new file holds the
    configuration block. -/
theorem mesgFile_sd {b c : Board} {uiSeconds : UInt32} {fopenOk : Bool} (hpc : b.uiSavePC = 0)
    (h : mesgFile b uiSeconds fopenOk = .ok c) :
    fopenOk = true ∧ (sdName b.sdDataDir uiSeconds).length < 32 ∧
    c = { b with
      sdFileName := sdName b.sdDataDir uiSeconds
      pSdHPFd := some (sdName b.sdDataDir uiSeconds)
      files := (b.fclose.files.create (sdName b.sdDataDir uiSeconds)).append
        (sdName b.sdDataDir uiSeconds) b.puiConfigBuf } := by
  rw [mesgFile, if_pos hpc, Board.fclose_eq] at h
  dsimp only at h
  split at h
  · rename_i hlen
    obtain ⟨name, hname, rfl⟩ := Board.fwrite_eq_ok.mp h
    cases fopenOk with
    | false => simp at hname
    | true =>
      simp only [if_true, Option.some.injEq] at hname ⊢
      subst hname
      exact ⟨trivial, hlen, rfl⟩
  · simp at h

/-- It writes to a null `FILE *` only when `fopen` fails in SD mode. -/
theorem mesgFile_null {b : Board} {uiSeconds : UInt32} {fopenOk : Bool}
    (h : mesgFile b uiSeconds fopenOk = .error .nullFile) : b.uiSavePC = 0 ∧ fopenOk = false := by
  by_cases hpc : b.uiSavePC = 0
  · refine ⟨hpc, ?_⟩
    rw [mesgFile, if_pos hpc, Board.fclose_eq] at h
    dsimp only at h
    split at h
    · have hnone := (Board.fwrite_eq_error.mp h).1
      cases fopenOk with
      | false => rfl
      | true => simp at hnone
    · simp at h
  · rw [mesgFile_pc hpc] at h
    simp at h

/-- What a start interrupt leaves of the acquisition, when it is handled. -/
theorem mesgThread_ok {b c : Board} {uiSeconds : UInt32} {fopenOk : Bool}
    (h : mesgThread b uiSeconds fopenOk = .ok c) :
    c.ucIsReady = true ∧ c.uiFlag = 0 ∧ c.ulTotalLen = 0 ∧
      c.ulSampleLength = b.ulSampleLength ∧ c.uiSavePC = b.uiSavePC ∧
      (b.uiSavePC = 0 → c.pSdHPFd ≠ none) := by
  by_cases hpc : (mesgFlags b).uiSavePC = 0
  · obtain ⟨-, -, rfl⟩ := mesgFile_sd hpc h
    exact ⟨rfl, rfl, rfl, rfl, rfl, fun _ => by simp⟩
  · rw [mesgThread, mesgFile_pc hpc, Except.ok.injEq] at h
    subst h
    exact ⟨rfl, rfl, rfl, rfl, rfl, fun h0 => absurd h0 hpc⟩

/-! ### `DeliverData_s` -/

/-- One mapped buffer, byte by byte. -/
abbrev Window := ℕ → UInt8

/-- The two mapped buffers at the time of a data interrupt. -/
structure Bram where
  a : Window
  b : Window

/-- Two cleared buffers. -/
def zeroBram : Bram := ⟨fun _ => 0, fun _ => 0⟩

/-- `len` bytes of a buffer from `off` on. -/
def window (w : Window) (off len : ℕ) : List UInt8 := (List.range len).map fun i => w (off + i)

@[simp] theorem length_window (w : Window) (off len : ℕ) : (window w off len).length = len := by
  simp [window]

theorem window_append (w : Window) (off m n : ℕ) :
    window w off m ++ window w (off + m) n = window w off (m + n) := by
  simp only [window, List.range_add, List.map_append, List.map_map, List.append_cancel_left_eq,
    List.map_inj_left, Function.comp_apply]
  intro i _
  rw [Nat.add_assoc]

/-- What leaves the program for a block. -/
inductive Io where
  | fwrite (bytes : List UInt8)
  | send (bytes : List UInt8)
  deriving DecidableEq

def Io.bytes : Io → List UInt8
  | .fwrite bs => bs
  | .send bs => bs

/-- A block goes out by one `fwrite` to the data file, or by the given `send`s to the PC. -/
def emitBlock (b : Board) (addr : Window) (len : UInt64) (sends : List (UInt64 × UInt64)) :
    Except Fault (Board × List Io) :=
  if b.uiSavePC = 0 then do
    let c ← b.fwrite (window addr 0 len.toNat)
    pure (c, [.fwrite (window addr 0 len.toNat)])
  else pure (b, sends.map fun s => .send (window addr s.1.toNat s.2.toNat))

/-- `DeliverData_s`, after its read of the data-interrupt device returned (`irq`: it returned 1). -/
def deliverDataS (b : Board) (irq : Bool) (m : Bram) : Except Fault (Board × List Io) :=
  if irq && b.ucIsReady then
    let b := { b with uiFlag := b.uiFlag + 1 }
    let addr := if b.uiFlag % 2 = 1 then m.a else m.b
    let len := b.ulSampleLength - b.ulTotalLen
    if len ≤ packageSize then do
      let r ← emitBlock b addr len [(0, len)]
      pure ({ r.1 with ucIsReady := false }, r.2)
    else if len ≤ bramSize then do
      let r ← emitBlock b addr len [(0, packageSize), (packageSize, len - packageSize)]
      pure ({ r.1 with ucIsReady := false }, r.2)
    else do
      let r ← emitBlock b addr bramSize [(0, packageSize), (packageSize, packageSize)]
      pure ({ r.1 with ulTotalLen := r.1.ulTotalLen + bramSize }, r.2)
  else pure (b, [])

/-- The unsigned difference that the branches of `DeliverData_s` test. -/
def Board.remaining (b : Board) : UInt64 := b.ulSampleLength - b.ulTotalLen

/-- The length of the next block. -/
def Board.blockLen (b : Board) : UInt64 :=
  if b.remaining ≤ bramSize then b.remaining else bramSize

/-- The buffer of the next block: A for an odd count, B for an even one. -/
def Board.blockAddr (b : Board) (m : Bram) : Window :=
  if (b.uiFlag + 1) % 2 = 1 then m.a else m.b

def Board.blockBytes (b : Board) (m : Bram) : List UInt8 :=
  window (b.blockAddr m) 0 b.blockLen.toNat

/-- The `send`s of a block: one up to `PACKAGE_SIZE`, else two. -/
def sendsOf (len : UInt64) : List (UInt64 × UInt64) :=
  if len ≤ packageSize then [(0, len)] else [(0, packageSize), (packageSize, len - packageSize)]

/-- The state after a delivered block. -/
def Board.afterBlock (b : Board) (m : Bram) : Board :=
  { b with
    uiFlag := b.uiFlag + 1
    ucIsReady := decide (bramSize < b.remaining)
    ulTotalLen := if b.remaining ≤ bramSize then b.ulTotalLen else b.ulTotalLen + bramSize
    files := if b.uiSavePC = 0 then
        (b.pSdHPFd.elim b.files fun name => b.files.append name (b.blockBytes m))
      else b.files }

theorem emitBlock_ok {b c : Board} {addr : Window} {len : UInt64} {sends : List (UInt64 × UInt64)}
    {io : List Io} (h : emitBlock b addr len sends = .ok (c, io)) :
    (b.uiSavePC = 0 ∧ io = [.fwrite (window addr 0 len.toNat)] ∧
      ∃ name, b.pSdHPFd = some name ∧
        c = { b with files := b.files.append name (window addr 0 len.toNat) }) ∨
    (b.uiSavePC ≠ 0 ∧ c = b ∧
      io = sends.map fun s => .send (window addr s.1.toNat s.2.toNat)) := by
  unfold emitBlock at h
  split at h
  · rename_i hpc
    obtain ⟨d, hd, h⟩ := bind_eq_ok.mp h
    obtain ⟨rfl, rfl⟩ := Prod.mk.inj (pure_eq_ok.mp h)
    exact Or.inl ⟨hpc, rfl, Board.fwrite_eq_ok.mp hd⟩
  · rename_i hpc
    obtain ⟨rfl, rfl⟩ := Prod.mk.inj (pure_eq_ok.mp h)
    exact Or.inr ⟨hpc, rfl, rfl⟩

/-- The two `send`s of a block are the block, cut at `PACKAGE_SIZE`. -/
theorem sendsOf_bytes (addr : Window) (len : UInt64) :
    ((sendsOf len).map fun s => Io.send (window addr s.1.toNat s.2.toNat)).flatMap Io.bytes =
      window addr 0 len.toNat := by
  unfold sendsOf
  split
  · simp [Io.bytes]
  · rename_i hlen
    have hle : packageSize ≤ len := by
      rw [UInt64.le_iff_toNat_le] at hlen ⊢; omega
    have hsub : packageSize.toNat + (len - packageSize).toNat = len.toNat := by
      rw [UInt64.toNat_sub_of_le _ _ hle]
      rw [UInt64.le_iff_toNat_le] at hle; omega
    have hcat := window_append addr 0 packageSize.toNat (len - packageSize).toNat
    rw [Nat.zero_add, hsub] at hcat
    simpa [Io.bytes] using hcat

/-- The three branches of `DeliverData_s` are one: a block of `blockLen` bytes goes out, and either
    it was the last one or the total length grows by a full block. -/
theorem deliverDataS_eq {b : Board} (hr : b.ucIsReady = true) (m : Bram) :
    deliverDataS b true m =
      emitBlock { b with uiFlag := b.uiFlag + 1 } (b.blockAddr m) b.blockLen (sendsOf b.blockLen)
        >>= fun r => pure ({ r.1 with
          ucIsReady := decide (bramSize < b.remaining) && r.1.ucIsReady
          ulTotalLen := if b.remaining ≤ bramSize then r.1.ulTotalLen
            else r.1.ulTotalLen + bramSize }, r.2) := by
  have hmono : b.remaining ≤ packageSize → b.remaining ≤ bramSize := by
    intro h
    rw [UInt64.le_iff_toNat_le] at h ⊢
    have : packageSize.toNat ≤ bramSize.toNat := by decide
    omega
  have hrem : b.ulSampleLength - b.ulTotalLen = b.remaining := rfl
  unfold deliverDataS
  simp only [hr, Bool.and_self, if_true, hrem]
  by_cases h₁ : b.remaining ≤ packageSize
  · have h₂ := hmono h₁
    have hlt : ¬ bramSize < b.remaining := UInt64.not_lt.mpr h₂
    simp only [Board.blockLen, sendsOf, Board.blockAddr, h₁, h₂, hlt, if_true, decide_false,
      Bool.false_and]
  · by_cases h₂ : b.remaining ≤ bramSize
    · have hlt : ¬ bramSize < b.remaining := UInt64.not_lt.mpr h₂
      simp only [Board.blockLen, sendsOf, Board.blockAddr, h₁, h₂, hlt, if_true, if_false,
        decide_false, Bool.false_and]
    · have hlt : bramSize < b.remaining := UInt64.not_le.mp h₂
      have hp : ¬ bramSize ≤ packageSize := by decide
      have hhalf : bramSize - packageSize = packageSize := by decide
      simp only [Board.blockLen, sendsOf, Board.blockAddr, h₁, h₂, hlt, hp, hhalf, if_false,
        decide_true, Bool.true_and]

/-- What `DeliverData_s` does when an acquisition is ready and it returns. -/
theorem deliverDataS_ok {b c : Board} {m : Bram} {io : List Io} (hr : b.ucIsReady = true)
    (h : deliverDataS b true m = .ok (c, io)) :
    c = b.afterBlock m ∧ io.flatMap Io.bytes = b.blockBytes m ∧
      (b.uiSavePC = 0 → ∃ name, b.pSdHPFd = some name) := by
  rw [deliverDataS_eq hr] at h
  obtain ⟨⟨d, io'⟩, hd, h⟩ := bind_eq_ok.mp h
  obtain ⟨rfl, rfl⟩ := Prod.mk.inj (pure_eq_ok.mp h)
  rcases emitBlock_ok hd with ⟨hpc, rfl, name, hname, rfl⟩ | ⟨hpc, rfl, rfl⟩
  · refine ⟨?_, by simp [Io.bytes, Board.blockBytes], fun _ => ⟨name, hname⟩⟩
    dsimp only at hpc hname
    simp only [Board.afterBlock, hpc, if_true, hname, Option.elim_some, Board.blockBytes, hr,
      Bool.and_true]
  · refine ⟨?_, sendsOf_bytes _ _, fun h0 => absurd h0 hpc⟩
    dsimp only at hpc
    simp only [Board.afterBlock, hpc, if_false, hr, Bool.and_true]

/-- `DeliverData_s` returns whenever the file of SD mode is open. -/
theorem deliverDataS_returns {b : Board} (hr : b.ucIsReady = true)
    (hfd : b.uiSavePC = 0 → b.pSdHPFd ≠ none) (m : Bram) :
    ∃ io, deliverDataS b true m = .ok (b.afterBlock m, io) := by
  have hex : ∃ r, deliverDataS b true m = .ok r := by
    rw [deliverDataS_eq hr, emitBlock]
    dsimp only
    split
    · rename_i hpc
      cases hname : b.pSdHPFd with
      | none => exact absurd hname (hfd hpc)
      | some name =>
        simp only [Board.fwrite]
        exact ⟨_, rfl⟩
    · exact ⟨_, rfl⟩
  obtain ⟨⟨c, io⟩, hc⟩ := hex
  exact ⟨io, by rw [hc, (deliverDataS_ok hr hc).1]⟩

/-- Without an interrupt or a ready acquisition nothing happens. -/
theorem deliverDataS_idle {b : Board} {irq : Bool} (h : (irq && b.ucIsReady) = false) (m : Bram) :
    deliverDataS b irq m = .ok (b, []) := by
  rw [deliverDataS, h]; rfl

theorem toNat_blockLen (b : Board) : b.blockLen.toNat = min 65536 b.remaining.toNat := by
  unfold Board.blockLen
  split
  · rename_i h
    have : b.remaining.toNat ≤ 65536 := UInt64.le_iff_toNat_le.mp h
    omega
  · rename_i h
    have : ¬ b.remaining.toNat ≤ 65536 := fun hle => h (UInt64.le_iff_toNat_le.mpr hle)
    have : bramSize.toNat = 65536 := rfl
    omega

end AcqBoard.App
