import AcqBoard.App.State
import AcqBoard.App.Lfsr
import AcqBoard.Schemes.Run

/-! `Configuration()`: from the values of `Configuration.ini` to the globals, the registers and the
    code RAM.

    The double quotient that gives the acquisition period is an exact rational here, and its
    conversion to `uint32_t` saturates, as the target's `vcvt` does. The directories that `CreateDir`
    makes are not part of the state: nothing in the program looks at them again. -/

namespace AcqBoard.App
open Schemes Csr Lfsr

/-! ### The tables from PC values to register values -/

abbrev InterData := Int32 × Int32  -- (iPcData, iArmData)

def sFullRange : List InterData := [(3000000, 0), (300000, 1), (30000, 2), (3000, 3), (300, 7)]
def sFilter : List InterData := [(0, 1), (12, 2), (120, 0), (1200, 3)]
def sInputSouce : List InterData := [(1, 0), (2, 1), (3, 3)]
def sSyncMode : List InterData := [(0, 2), (1, 1)]
def sWorkMode : List InterData := [(1, 1), (2, 0)]

/-- The first entry whose PC value matches, or 0. -/
def getRealData : List InterData → Int32 → Int32
  | [], _ => 0
  | d :: ds, iPcData => if iPcData = d.1 then d.2 else getRealData ds iPcData

def sSampleRateReg : List UInt8 := [0x1D, 0x1C, 0x1B, 0x1A, 0x19, 0x18]
def sSampleRateValue : List UInt32 := [78125, 156250, 312500, 625000, 1250000, 2500000]

/-- An array read; outside the array it is undefined. -/
def arrayGet {α : Type} (xs : List α) (i : ℤ) : Except Fault α :=
  match xs[i.toNat]? with
  | some x => if i < 0 then .error .outOfRange else .ok x
  | none => .error .outOfRange

/-! ### The configuration block at the head of a data file -/

/-- The bytes of a word in memory, least significant first. -/
def le32 (x : UInt32) : List UInt8 :=
  [x.toUInt8, (x >>> 8).toUInt8, (x >>> 16).toUInt8, (x >>> 24).toUInt8]

/-- The 64 bytes of `s_SdDataDIR`. -/
def DataDir.buffer (d : DataDir) : List UInt8 := d.bytes ++ List.replicate (64 - d.bytes.length) 0

/-- `s_puiConfigBuf` as `Configuration` fills it: 27 of its 87 words, the others never written. -/
def configBlock (p : Profile) (dir : DataDir) : List UInt8 :=
  le32 p.workMode.toUInt32 ++ le32 p.syncMode.toUInt32 ++ dir.buffer ++
  le32 p.fullScalRange.toUInt32 ++ le32 p.inputSource.toUInt32 ++ le32 p.lpfFilter.toUInt32 ++
  le32 p.adcSamplingRates.toUInt32 ++ le32 p.impulseWidth.toUInt32 ++
  le32 p.sequenceLength.toUInt32 ++ le32 p.generationPolymerization.toUInt32 ++
  le32 p.initialValue.toUInt32 ++ le32 p.savePosition.toUInt32 ++ List.replicate 240 0

/-! ### The parts of `Configuration` -/

/-- `CreateDir` looks at the last character of the path before anything else. -/
def createDir (dir : DataDir) : Except Fault Unit :=
  if dir.bytes.length = 0 then .error .outOfRange else .ok ()

def setSampleRate (r : RegLog) (ucSampleRate : UInt8) : Except Fault RegLog := do
  let reg ← arrayGet sSampleRateReg ucSampleRate.toNat
  pure ((r.regWrite csrCToIoCmd (0xFF00 ||| reg.toUInt32)).regWrite csrCToIoCmd 0x0000)

/-- The copy loop of `SetDataToRam`, from word `i` on. -/
def ramLoop (puiPrbsBuff : ℕ → UInt32) : ℕ → ℕ → (ℕ → UInt32) → Except Fault (ℕ → UInt32)
  | 0, _, ram => .ok ram
  | n + 1, i, ram =>
    if i < 64 then ramLoop puiPrbsBuff n (i + 1) (Function.update ram i (puiPrbsBuff i))
    else .error .outOfRange

/-- The table of code words afterwards, and the code RAM. -/
def setDataToRam (bitBuff : ℕ → UInt8) (uiSeed uiValue : UInt32) (n : UInt32)
    (puiPrbsBuff ram : ℕ → UInt32) : Except Fault ((ℕ → UInt32) × (ℕ → UInt32)) := do
  let puiPrbsBuff := getLfsrUint bitBuff uiSeed uiValue puiPrbsBuff n
  let total : Int32 := (power n).toInt32
  let ram ← ramLoop puiPrbsBuff (total / 32).toInt.toNat 0 ram
  pure (puiPrbsBuff, ram)

/-- `s_ulSampleLength` for code exponent `n`, impulse width `w` and sample rate `rate`. -/
def sampleLength (n w : Int32) (rate : UInt32) : UInt64 :=
  (power n.toUInt32 - 1).toUInt64 * w.toInt64.toUInt64 * rate.toUInt64 / 1000000 * 4

/-- `t3`, the acquisition period in seconds. -/
def acqPeriod (n w : Int32) : UInt32 :=
  let t1Ceil : ℤ := -(-((power n.toUInt32 - 1).toNat * w.toInt) / 1000000)
  let t2 : UInt32 := UInt32.ofNat (min t1Ceil.toNat 4294967295)
  t2 + 2

/-- The sample length that `Configuration` sets from a profile, when it gets that far. -/
def Profile.sampleLength (p : Profile) : UInt64 :=
  App.sampleLength p.sequenceLength p.impulseWidth
    ((sSampleRateValue[p.adcSamplingRates.toInt.toNat]?).getD 0)

/-- `Configuration()`, with `gettimeofday` reading `uiSeconds` and `bitBuff` the bytes that
    `GetLfsrUint` finds on its stack; beside the board, its calls of `RegWrite`. -/
def configurationLogged (b : Board) (p : Profile) (uiSeconds : UInt32) (bitBuff : ℕ → UInt8) :
    Except Fault (Board × List (UInt32 × UInt32)) := do
  let rWorkMode := getRealData sWorkMode p.workMode
  let rSyncMode := getRealData sSyncMode p.syncMode
  let rFullScalRange := getRealData sFullRange p.fullScalRange
  let rLpfFilter := getRealData sFilter p.lpfFilter
  let rInputSource := getRealData sInputSouce p.inputSource
  let dir := p.dataDirectory.getD b.sdDataDir
  createDir dir
  let csr := RegLog.regWrite ⟨b.csr, []⟩ csrInputSel rInputSource.toUInt32
  let csr := csr.regWrite csrTransEn rWorkMode.toUInt32
  let csr := csr.regWrite csrSyncMode rSyncMode.toUInt32
  let csr := csr.regWrite csrFllScaleSet rFullScalRange.toUInt32
  let csr := csr.regWrite csrFltSel rLpfFilter.toUInt32
  let csr ← setSampleRate csr p.adcSamplingRates.toUInt32.toUInt8
  let csr := csr.regWrite csrCodeLength (power p.sequenceLength.toUInt32 - 1)
  let rate ← arrayGet sSampleRateValue p.adcSamplingRates.toInt
  let csr := csr.regWrite csrCodeClkCycles (p.impulseWidth * 40).toUInt32
  let (prbs, ram) ← setDataToRam bitBuff p.initialValue.toUInt32
    p.generationPolymerization.toUInt32 p.sequenceLength.toUInt32 b.puiPrbsBuff b.ram
  let t3 := acqPeriod p.sequenceLength p.impulseWidth
  if t3 = 0 then .error .divByZero
  else
    let csr := csr.regWrite csrTAcq t3
    let csr := csr.regWrite csrTDelta (t3 - uiSeconds % t3)
    let csr := csr.regWrite csrTStart 1
    pure ({ b with
      uiSavePC := p.savePosition.toUInt32
      sdDataDir := dir
      puiConfigBuf := configBlock p dir
      ulSampleLength := sampleLength p.sequenceLength p.impulseWidth rate
      puiPrbsBuff := prbs
      csr := csr.regs
      ram := ram }, csr.calls)

def configuration (b : Board) (p : Profile) (uiSeconds : UInt32) (bitBuff : ℕ → UInt8) :
    Except Fault Board :=
  (configurationLogged b p uiSeconds bitBuff).map Prod.fst

theorem arrayGet_eq_ok {α : Type} {xs : List α} {i : ℤ} {x : α} :
    arrayGet xs i = .ok x ↔ 0 ≤ i ∧ xs[i.toNat]? = some x := by
  unfold arrayGet
  cases xs[i.toNat]? with
  | none => simp
  | some y =>
    by_cases hi : i < 0
    · simp [hi, Int.not_le.mpr hi]
    · simp [hi, Int.not_lt.mp hi]

/-- What `Configuration` does to the acquisition: it replaces the sample length, the save position,
    the directory and the configuration block, and leaves the run of the acquisition alone. -/
theorem configuration_ok {b c : Board} {p : Profile} {uiSeconds : UInt32} {bitBuff : ℕ → UInt8}
    (h : configuration b p uiSeconds bitBuff = .ok c) :
    ∃ csr prbs ram, c = { b with
      uiSavePC := p.savePosition.toUInt32
      sdDataDir := p.dataDirectory.getD b.sdDataDir
      puiConfigBuf := configBlock p (p.dataDirectory.getD b.sdDataDir)
      ulSampleLength := p.sampleLength
      puiPrbsBuff := prbs
      csr := csr
      ram := ram } := by
  rw [configuration] at h
  obtain ⟨⟨d, calls⟩, hd, rfl⟩ := map_eq_ok.mp h
  obtain ⟨_, _, h⟩ := bind_eq_ok.mp hd
  obtain ⟨_, _, h⟩ := bind_eq_ok.mp h
  obtain ⟨rate, hrate, h⟩ := bind_eq_ok.mp h
  obtain ⟨⟨prbs, ram⟩, _, h⟩ := bind_eq_ok.mp h
  have hlen : p.sampleLength = sampleLength p.sequenceLength p.impulseWidth rate := by
    rw [Profile.sampleLength, (arrayGet_eq_ok.mp hrate).2]; rfl
  dsimp only at h
  split at h
  · simp at h
  · rw [hlen]
    obtain ⟨rfl, -⟩ := Prod.mk.inj (pure_eq_ok.mp h)
    exact ⟨_, prbs, ram, rfl⟩

theorem arrayGet_error {α : Type} {xs : List α} {i : ℤ} {f : Fault}
    (h : arrayGet xs i = .error f) : f = .outOfRange := by
  unfold arrayGet at h
  split at h
  · split at h <;> simp_all
  · exact (Except.error.inj h).symm

theorem ramLoop_error {buf ram : ℕ → UInt32} {f : Fault} {n i : ℕ}
    (h : ramLoop buf n i ram = .error f) : f = .outOfRange := by
  induction n generalizing i ram with
  | zero => simp [ramLoop] at h
  | succ n ih =>
    rw [ramLoop] at h
    split at h
    · exact ih h
    · exact (Except.error.inj h).symm

/-- `Configuration` touches no file: its undefined behaviours are array accesses and a division. -/
theorem configuration_error {b : Board} {p : Profile} {uiSeconds : UInt32} {bitBuff : ℕ → UInt8}
    {f : Fault} (h : configuration b p uiSeconds bitBuff = .error f) : f ≠ .nullFile := by
  rw [configuration, map_eq_error] at h
  rcases bind_eq_error.mp h with h | ⟨_, _, h⟩
  · rw [createDir] at h
    split at h
    · rw [← Except.error.inj h]; decide
    · simp at h
  rcases bind_eq_error.mp h with h | ⟨_, _, h⟩
  · rcases bind_eq_error.mp h with h | ⟨_, _, h⟩
    · rw [arrayGet_error h]; decide
    · simp [pure, Except.pure] at h
  rcases bind_eq_error.mp h with h | ⟨_, _, h⟩
  · rw [arrayGet_error h]; decide
  rcases bind_eq_error.mp h with h | ⟨⟨_, _⟩, _, h⟩
  · rcases bind_eq_error.mp h with h | ⟨_, _, h⟩
    · rw [ramLoop_error h]; decide
    · simp [pure, Except.pure] at h
  dsimp only at h
  split at h
  · rw [← Except.error.inj h]; decide
  · simp [pure, Except.pure] at h

/-- `SavePosition` is read as an `int` and kept as a `uint32_t`; 0 stays 0 and nothing else
    becomes 0. -/
theorem toUInt32_eq_zero {x : Int32} : x.toUInt32 = 0 ↔ x = 0 :=
  ⟨fun h => by cases x; exact congrArg Int32.ofUInt32 h, fun h => by rw [h]; rfl⟩

/-! ### A configuration to run -/

/-- One code bit of a second, sampled at 78.125 kHz for the PC: 312500 bytes. -/
def benchProfile : Profile where
  workMode := 2
  syncMode := 0
  fullScalRange := 3000000
  lpfFilter := 0
  inputSource := 1
  impulseWidth := 1000000
  adcSamplingRates := 0
  sequenceLength := 1
  generationPolymerization := 3
  initialValue := 1
  savePosition := 1
  dataDirectory := some ⟨ascii "DATA", by decide, by decide⟩

/-- One code bit of 13 microseconds: a sample length of 4 bytes. -/
def shortProfile : Profile := { benchProfile with impulseWidth := 13 }

example : benchProfile.sampleLength = 312500 ∧ shortProfile.sampleLength = 4 := by decide

/-- A board with cleared registers, code RAM and SD card. -/
def benchBoard : Board := Board.boot (fun _ => 0) (fun _ => 0) Files.empty

end AcqBoard.App
