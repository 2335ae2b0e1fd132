import AcqBoard.App.Labels
import AcqBoard.App.Limits
import Mathlib.Algebra.Order.Floor.Div
import Mathlib.Order.Bounds.Basic

/-! The acquisition period.

    An acquisition takes `2^n - 1` code bits of `w` microseconds. `Configuration` rounds that up to
    seconds, adds two, and starts the hardware at the next multiple of the period, so that boards
    configured alike start together. The values reach the hardware through `RegWrite`, which cuts
    them to the fields without a word: 32 bits for the clock cycles, 16 for the period, 15 for the
    seconds to wait. -/

namespace AcqBoard.App
open Schemes Csr Lfsr

/-! ### The schedule meant -/

/-- The period of `n` and `w`, in seconds. -/
def period (n w : ℕ) : ℕ := ((2 ^ n - 1) * w) ⌈/⌉ 1000000 + 2

/-- The registers hold the schedule of code exponent `n` and pulse width `w`, set up at second
    `s`. -/
structure Scheduled (r : Regs) (n w s : ℕ) : Prop where
  codeLength : (regRead r csrCodeLength).toNat = 2 ^ n - 1
  clkCycles : (regRead r csrCodeClkCycles).toNat = 40 * w
  acq : (regRead r csrTAcq).toNat = period n w
  delta : 1 ≤ (regRead r csrTDelta).toNat ∧
    (regRead r csrTDelta).toNat ≤ (regRead r csrTAcq).toNat
  start : IsLeast {m | (regRead r csrTAcq).toNat ∣ m ∧ s < m} (s + (regRead r csrTDelta).toNat)

/-- The schedule fits in the fields of the registers. -/
structure FitsFields (n w s : ℕ) : Prop where
  clkCycles : 40 * w < 2 ^ 32
  acq : period n w < 2 ^ 16
  delta : period n w - s % period n w < 2 ^ 15

/-- The next multiple of `t` after `s`. -/
theorem isLeast_next {t : ℕ} (ht : 0 < t) (s : ℕ) :
    IsLeast {m | t ∣ m ∧ s < m} (s + (t - s % t)) := by
  have hmod := Nat.mod_lt s ht
  have hdiv := Nat.div_add_mod s t
  constructor
  · refine ⟨⟨s / t + 1, ?_⟩, by omega⟩
    rw [Nat.mul_add]
    omega
  · rintro m ⟨⟨q, rfl⟩, hlt⟩
    have hq : s / t + 1 ≤ q := by
      by_contra hlow
      have hle : t * q ≤ t * (s / t) := Nat.mul_le_mul_left t (by omega)
      omega
    have hle : t * (s / t + 1) ≤ t * q := Nat.mul_le_mul_left t hq
    rw [Nat.mul_add] at hle
    omega

/-! ### What `Configuration` leaves in the registers -/

/-- The writes of the schedule, the last ones of `Configuration`. -/
def scheduleWrites (n w : Int32) (uiSeconds : UInt32) : List (UInt32 × UInt32) :=
  [(csrCodeLength, power n.toUInt32 - 1), (csrCodeClkCycles, (w * 40).toUInt32),
    (csrTAcq, acqPeriod n w), (csrTDelta, acqPeriod n w - uiSeconds % acqPeriod n w),
    (csrTStart, 1)]

theorem configuration_csr {b c : Board} {p : Profile} {uiSeconds : UInt32} {bitBuff : ℕ → UInt8}
    (h : configuration b p uiSeconds bitBuff = .ok c) :
    ∃ r, c.csr = regWrites r (scheduleWrites p.sequenceLength p.impulseWidth uiSeconds) := by
  rw [configuration] at h
  obtain ⟨⟨d, calls⟩, hd, rfl⟩ := map_eq_ok.mp h
  obtain ⟨_, _, h⟩ := bind_eq_ok.mp hd
  obtain ⟨r, _, h⟩ := bind_eq_ok.mp h
  obtain ⟨_, _, h⟩ := bind_eq_ok.mp h
  obtain ⟨⟨prbs, ram⟩, _, h⟩ := bind_eq_ok.mp h
  dsimp only at h
  split at h
  · simp at h
  · obtain ⟨rfl, -⟩ := Prod.mk.inj (pure_eq_ok.mp h)
    exact ⟨r.regs, by simp only [RegLog.regWrite]; rfl⟩

/-- The labels of the schedule. -/
def scheduleLabels : List UInt32 :=
  [csrCodeLength, csrCodeClkCycles, csrTAcq, csrTDelta, csrTStart]

theorem fields_schedule : Fields {l | l ∈ scheduleLabels} :=
  Fields.of_list (by decide) (by decide)

/-- Every label of the schedule is written once. -/
theorem regRead_schedule (r : Regs) (n w : Int32) (uiSeconds l : UInt32) {v : UInt32}
    (hin : l ∈ scheduleLabels) (h : valuesOf l (scheduleWrites n w uiSeconds) = [v]) :
    (regRead (regWrites r (scheduleWrites n w uiSeconds)) l).toNat = v.toNat % 2 ^ width l := by
  have hws : ∀ x ∈ scheduleWrites n w uiSeconds, x.1 ∈ {l | l ∈ scheduleLabels} := by
    simp [scheduleWrites, scheduleLabels]
  rw [regRead_regWrites fields_schedule r hin hws, h]
  rfl

/-! ### The arithmetic of `Configuration` -/

theorem toNat_toUInt32 {x : Int32} {m : ℕ} (h : x.toInt = m) : x.toUInt32.toNat = m := by
  have hx : x.toInt = if x.toUInt32.toNat < 2 ^ 31 then (x.toUInt32.toNat : ℤ)
      else x.toUInt32.toNat - 2 ^ 32 := toInt_toInt32 x.toUInt32
  have hlt := x.toUInt32.toNat_lt
  split at hx <;> omega

/-- A rounded-up quotient, as the double arithmetic of the program computes it. -/
theorem ceilDiv_eq (a : ℕ) : (a ⌈/⌉ 1000000 : ℕ) = (-(-(a : ℤ) / 1000000)).toNat := by
  rw [Nat.ceilDiv_eq_add_pred_div]
  omega

theorem toNat_acqPeriod {x y : Int32} {n w : ℕ} (hn : x.toInt = n) (hw : y.toInt = w)
    (hn11 : n ≤ 11) : (acqPeriod x y).toNat = period n w := by
  have hpow : 2 ^ n ≤ 2 ^ 11 := Nat.pow_le_pow_right (by decide) hn11
  have hbits : (power x.toUInt32 - 1).toNat = 2 ^ n - 1 := by
    rw [toNat_power_pred, toNat_toUInt32 hn, if_pos (by omega)]
  have hle := pulses_le (show 2 ^ n - 1 ≤ 2047 by omega) y
  rw [hw] at hle
  have hcast : ((2 ^ n - 1 : ℕ) : ℤ) * (w : ℤ) = (((2 ^ n - 1) * w : ℕ) : ℤ) := by
    rw [Int.natCast_mul]
  rw [hcast] at hle
  have hdef : acqPeriod x y =
      UInt32.ofNat (min (ceilSeconds (power x.toUInt32 - 1).toNat y).toNat 4294967295) + 2 := rfl
  have h2 : (2 : UInt32).toNat = 2 := rfl
  rw [hdef, UInt32.toNat_add, UInt32.toNat_ofNat', h2, hbits, ceilSeconds, hw, hcast, period,
    ceilDiv_eq]
  omega

/-! ### The exact condition -/

theorem scheduled_iff (r : Regs) {x y : Int32} {n w : ℕ} (hn : x.toInt = n) (hw : y.toInt = w)
    (hn11 : n ≤ 11) (uiSeconds : UInt32) :
    Scheduled (regWrites r (scheduleWrites x y uiSeconds)) n w uiSeconds.toNat ↔
      FitsFields n w uiSeconds.toNat := by
  have hpow : 2 ^ n ≤ 2 ^ 11 := Nat.pow_le_pow_right (by decide) hn11
  have hT := toNat_acqPeriod hn hw hn11
  have hpos : 0 < period n w := Nat.succ_pos _
  have hmod := Nat.mod_lt uiSeconds.toNat hpos
  have hlen := regRead_schedule r x y uiSeconds csrCodeLength (by decide) rfl
  have hclk := regRead_schedule r x y uiSeconds csrCodeClkCycles (by decide) rfl
  have hacq := regRead_schedule r x y uiSeconds csrTAcq (by decide) rfl
  have hdelta := regRead_schedule r x y uiSeconds csrTDelta (by decide) rfl
  have h40 : (40 : Int32).toUInt32.toNat = 40 := rfl
  have hle : uiSeconds % acqPeriod x y ≤ acqPeriod x y := by
    rw [UInt32.le_iff_toNat_le, UInt32.toNat_mod, hT]
    omega
  rw [toNat_power_pred, toNat_toUInt32 hn, if_pos (by omega)] at hlen
  rw [Int32.toUInt32_mul, UInt32.toNat_mul, toNat_toUInt32 hw, h40] at hclk
  rw [hT] at hacq
  rw [UInt32.toNat_sub_of_le _ _ hle, UInt32.toNat_mod, hT] at hdelta
  have hw32 : width csrCodeLength = 32 ∧ width csrCodeClkCycles = 32 ∧ width csrTAcq = 16 ∧
      width csrTDelta = 15 := by decide
  rw [hw32.1, Nat.mod_eq_of_lt (by omega)] at hlen
  rw [hw32.2.1, Nat.mod_mod] at hclk
  rw [hw32.2.2.1] at hacq
  rw [hw32.2.2.2] at hdelta
  have hnext := isLeast_next hpos uiSeconds.toNat
  constructor
  · rintro ⟨-, h₁, h₂, -, hleast⟩
    rw [h₂, hdelta] at hleast
    have hsame := hleast.unique hnext
    rw [hclk] at h₁
    rw [hacq] at h₂
    refine ⟨?_, ?_, ?_⟩ <;> omega
  · rintro ⟨h₁, h₂, h₃⟩
    rw [Nat.mod_eq_of_lt (by omega), Nat.mul_comm] at hclk
    rw [Nat.mod_eq_of_lt h₂] at hacq
    rw [Nat.mod_eq_of_lt h₃] at hdelta
    refine ⟨hlen, hclk, hacq, ?_, ?_⟩
    · rw [hacq, hdelta]
      omega
    · rw [hacq, hdelta]
      exact hnext

/-- CORRECT (acquisition schedule): with a code exponent up to 11, any pulse width, a sample rate of
    the table and a directory, `Configuration` returns, and its registers hold the schedule exactly
    if the schedule fits in their fields. -/
theorem configuration_schedule {b : Board} {p : Profile} {n w : ℕ}
    (hn : p.sequenceLength.toInt = n) (hn11 : n ≤ 11) (hw : p.impulseWidth.toInt = w)
    (hrate : 0 ≤ p.adcSamplingRates.toInt ∧ p.adcSamplingRates.toInt ≤ 5)
    (hdir : (p.dataDirectory.getD b.sdDataDir).bytes ≠ []) (uiSeconds : UInt32)
    (bitBuff : ℕ → UInt8) :
    ∃ c, configuration b p uiSeconds bitBuff = .ok c ∧
      (Scheduled c.csr n w uiSeconds.toNat ↔ FitsFields n w uiSeconds.toNat) := by
  have hlen : p.sequenceLength.toUInt32.toNat ≤ 11 := by
    rw [toNat_toUInt32 hn]
    exact hn11
  have hbounds : InBounds (p.dataDirectory.getD b.sdDataDir) p := by
    refine ⟨hdir, hrate, Or.inl hlen, ?_⟩
    rintro ⟨h31, -⟩
    rw [h31] at hlen
    exact absurd hlen (by decide)
  obtain ⟨c, hc⟩ := configuration_returns hbounds uiSeconds bitBuff
  obtain ⟨r, hr⟩ := configuration_csr hc
  refine ⟨c, hc, ?_⟩
  rw [hr]
  exact scheduled_iff r hn hw hn11 uiSeconds

/-- Two boards configured alike in the same period start at the same second. -/
theorem Scheduled.start_together {r r' : Regs} {n w s s' : ℕ} (h : Scheduled r n w s)
    (h' : Scheduled r' n w s') (hsame : s / period n w = s' / period n w) :
    s + (regRead r csrTDelta).toNat = s' + (regRead r' csrTDelta).toNat := by
  have hpos : 0 < period n w := Nat.succ_pos _
  have hs := h.start
  have hs' := h'.start
  rw [h.acq] at hs
  rw [h'.acq] at hs'
  rw [hs.unique (isLeast_next hpos s), hs'.unique (isLeast_next hpos s')]
  have h₁ := Nat.div_add_mod s (period n w)
  have h₂ := Nat.div_add_mod s' (period n w)
  have h₃ := Nat.mod_lt s hpos
  have h₄ := Nat.mod_lt s' hpos
  rw [hsame] at h₁
  omega

/-- The schedule of a maximal code of one-millisecond pulses, set up at second 10. -/
theorem configuration_schedule_bench :
    ∃ c, configuration benchBoard { benchProfile with sequenceLength := 11, impulseWidth := 1000 }
        10 (fun _ => 0) = .ok c ∧ (Scheduled c.csr 11 1000 10 ↔ FitsFields 11 1000 10) :=
  configuration_schedule rfl (by decide) rfl (by decide) (by decide) 10 _

/-- One code bit of 107.374183 seconds: its 40 cycles per microsecond wrap to 24. -/
theorem clkCycles_wraps : ¬ ∀ (b c : Board) (p : Profile) (n w : ℕ) (uiSeconds : UInt32)
    (bitBuff : ℕ → UInt8), p.sequenceLength.toInt = n → 1 ≤ n → n ≤ 11 →
    p.impulseWidth.toInt = w → 1 ≤ w → 0 ≤ p.adcSamplingRates.toInt →
    p.adcSamplingRates.toInt ≤ 5 → configuration b p uiSeconds bitBuff = .ok c →
    Scheduled c.csr n w uiSeconds.toNat := by
  intro h
  obtain ⟨c, hc⟩ := configuration_returns (b := benchBoard)
    (p := { benchProfile with impulseWidth := 107374183 })
    ⟨by decide, by decide, by decide, by decide⟩ 0 fun _ => 0
  obtain ⟨r, hr⟩ := configuration_csr hc
  have hsch := h _ c _ 1 107374183 0 _ rfl (by decide) (by decide) rfl (by decide) (by decide)
    (by decide) hc
  rw [hr] at hsch
  exact absurd ((scheduled_iff r rfl rfl (by decide) 0).mp hsch).clkCycles (by decide)

/-! ### The sample length

    The same code bits, sampled at `rate`, take four bytes a sample. This product is an integer
    expression in 64 bits and rounds down, where the period is a quotient of doubles and rounds up;
    what ties them is that both start from the number of code bits times the pulse width. -/

/-- The steps of the expression for `s_ulSampleLength` all stay below 2^64, and its one
    subtraction does not go below zero. -/
structure Unwrapped (n w : Int32) (rate : UInt32) : Prop where
  bits : 1 ≤ (power n.toUInt32).toNat
  pulses : ((power n.toUInt32 - 1).toUInt64 * w.toInt64.toUInt64).toNat =
    (power n.toUInt32 - 1).toUInt64.toNat * w.toInt64.toUInt64.toNat
  samples : ((power n.toUInt32 - 1).toUInt64 * w.toInt64.toUInt64 * rate.toUInt64).toNat =
    ((power n.toUInt32 - 1).toUInt64 * w.toInt64.toUInt64).toNat * rate.toUInt64.toNat
  bytes : (sampleLength n w rate).toNat =
    ((power n.toUInt32 - 1).toUInt64 * w.toInt64.toUInt64 * rate.toUInt64 / 1000000).toNat * 4

theorem toNat_mul_of_lt {x y : UInt64} (h : x.toNat * y.toNat < 2 ^ 64) :
    (x * y).toNat = x.toNat * y.toNat := by
  rw [UInt64.toNat_mul, Nat.mod_eq_of_lt h]

/-- An `int` that is not negative keeps its value through `(uint64_t)`. -/
theorem toNat_toUInt64 {x : Int32} {m : ℕ} (h : x.toInt = m) :
    x.toInt64.toUInt64.toNat = m := by
  have h64 : x.toInt64.toBitVec.toInt = m := (Int32.toInt_toInt64 x).trans h
  have hlt := x.toInt64.toBitVec.isLt
  rw [BitVec.toInt_eq_toNat_cond] at h64
  change x.toInt64.toBitVec.toNat = m
  split at h64 <;> omega

/-- The fastest sample rate is 2.5 MHz. -/
theorem rate_le {rate : UInt32} (h : rate ∈ sSampleRateValue) : rate.toNat ≤ 2500000 := by
  simp only [sSampleRateValue, List.mem_cons, List.not_mem_nil, or_false] at h
  rcases h with rfl | rfl | rfl | rfl | rfl | rfl <;> simp

/-- Up to 2047 pulses of less than 2^31 microseconds, sampled at 2.5 MHz, are less than 2^64
    millionths of a sample. -/
theorem samples_lt {m w r : ℕ} (hm : m ≤ 2047) (hw : w < 2 ^ 31) (hr : r ≤ 2500000) :
    m * w * r < 2 ^ 64 :=
  calc m * w * r ≤ 2047 * 2147483647 * 2500000 :=
        Nat.mul_le_mul (Nat.mul_le_mul hm (by omega)) hr
    _ < 2 ^ 64 := by decide

/-- Rounding down after the product with the rate stays below rounding up before it. -/
theorem floor_le_ceil (a r : ℕ) : a * r / 1000000 ≤ r * (a ⌈/⌉ 1000000) := by
  have hceil : a ≤ 1000000 * (a ⌈/⌉ 1000000) := by
    rw [Nat.ceilDiv_eq_add_pred_div]
    omega
  refine Nat.div_le_of_le_mul ?_
  calc a * r ≤ 1000000 * (a ⌈/⌉ 1000000) * r := Nat.mul_le_mul_right r hceil
    _ = 1000000 * (r * (a ⌈/⌉ 1000000)) := by rw [Nat.mul_assoc, Nat.mul_comm r]

section
variable {x y : Int32} {n w : ℕ} {rate : UInt32}

theorem toNat_bits (hn : x.toInt = n) (hn11 : n ≤ 11) :
    (power x.toUInt32 - 1).toNat = 2 ^ n - 1 := by
  rw [toNat_power_pred, toNat_toUInt32 hn, if_pos (by omega)]

theorem unwrapped (hn : x.toInt = n) (hn11 : n ≤ 11) (hw : y.toInt = w)
    (hrate : rate ∈ sSampleRateValue) :
    Unwrapped x y rate ∧ (sampleLength x y rate).toNat =
      4 * ((2 ^ n - 1) * w * rate.toNat / 1000000) := by
  have hpow : 2 ^ n ≤ 2 ^ 11 := Nat.pow_le_pow_right (by decide) hn11
  have hlt : y.toInt < 2147483648 := y.toInt_lt
  have hbits : (power x.toUInt32 - 1).toUInt64.toNat = 2 ^ n - 1 := by
    rw [UInt32.toNat_toUInt64, toNat_bits hn hn11]
  have hmax : 2 ^ n - 1 ≤ 2047 := by omega
  have hwmax : w < 2 ^ 31 := by omega
  have hsamples := samples_lt hmax hwmax (rate_le hrate)
  have hpulses : (2 ^ n - 1) * w < 2 ^ 64 :=
    lt_of_le_of_lt (Nat.mul_le_mul hmax hwmax.le) (by decide)
  have h₁ : ((power x.toUInt32 - 1).toUInt64 * y.toInt64.toUInt64).toNat = (2 ^ n - 1) * w := by
    rw [toNat_mul_of_lt (by rw [hbits, toNat_toUInt64 hw]; exact hpulses), hbits,
      toNat_toUInt64 hw]
  have h₂ : ((power x.toUInt32 - 1).toUInt64 * y.toInt64.toUInt64 * rate.toUInt64).toNat =
      (2 ^ n - 1) * w * rate.toNat := by
    rw [toNat_mul_of_lt (by rw [h₁, UInt32.toNat_toUInt64]; exact hsamples), h₁,
      UInt32.toNat_toUInt64]
  have h₃ : (sampleLength x y rate).toNat =
      ((power x.toUInt32 - 1).toUInt64 * y.toInt64.toUInt64 * rate.toUInt64 / 1000000).toNat * 4 := by
    rw [sampleLength, toNat_mul_of_lt]
    · rfl
    · rw [UInt64.toNat_div, h₂]
      change (2 ^ n - 1) * w * rate.toNat / 1000000 * 4 < 2 ^ 64
      omega
  refine ⟨⟨?_, ?_, ?_, h₃⟩, ?_⟩
  · rw [toNat_power_small (by rw [toNat_toUInt32 hn]; omega)]
    exact Nat.one_le_two_pow
  · rw [h₁, hbits, toNat_toUInt64 hw]
  · rw [h₂, h₁, UInt32.toNat_toUInt64]
  · rw [h₃, UInt64.toNat_div, h₂, Nat.mul_comm]
    rfl

end

/-- CORRECT (sample length): with a code exponent up to 11, any pulse width and a sample rate of
    the table, the expression for the sample length does not wrap, it is the number of whole samples
    in four bytes each, `Configuration` stores it, and it fits in the whole seconds of the period it
    computes next to it. -/
theorem sampleLength_fits_period {p : Profile} {n w i : ℕ} (hn : p.sequenceLength.toInt = n)
    (hn11 : n ≤ 11) (hw : p.impulseWidth.toInt = w) (hi : p.adcSamplingRates.toInt = i)
    (hi5 : i ≤ 5) :
    ∃ rate, sSampleRateValue[i]? = some rate ∧
      Unwrapped p.sequenceLength p.impulseWidth rate ∧
      (sampleLength p.sequenceLength p.impulseWidth rate).toNat =
        4 * ((2 ^ n - 1) * w * rate.toNat / 1000000) ∧
      (acqPeriod p.sequenceLength p.impulseWidth).toNat = period n w ∧
      (sampleLength p.sequenceLength p.impulseWidth rate).toNat ≤
        4 * rate.toNat * ((acqPeriod p.sequenceLength p.impulseWidth).toNat - 2) ∧
      ∀ (b c : Board) (uiSeconds : UInt32) (bitBuff : ℕ → UInt8),
        configuration b p uiSeconds bitBuff = .ok c →
          c.ulSampleLength = sampleLength p.sequenceLength p.impulseWidth rate := by
  have hlt : i < sSampleRateValue.length := by
    simp only [sSampleRateValue, List.length_cons, List.length_nil]
    omega
  have hget : sSampleRateValue[i]? = some sSampleRateValue[i] := List.getElem?_eq_getElem hlt
  obtain ⟨hunwrapped, hlen⟩ := unwrapped hn hn11 hw (List.getElem_mem hlt)
  have hperiod := toNat_acqPeriod hn hw hn11
  refine ⟨_, hget, hunwrapped, hlen, hperiod, ?_, ?_⟩
  · rw [hlen, hperiod, period, Nat.add_sub_cancel, Nat.mul_assoc 4]
    exact Nat.mul_le_mul_left 4 (floor_le_ceil _ _)
  · intro b c uiSeconds bitBuff hc
    obtain ⟨csr, prbs, ram, rfl⟩ := configuration_ok hc
    change p.sampleLength = _
    rw [Profile.sampleLength, hi, Int.toNat_natCast, hget]
    rfl

/-- The longest acquisition there is: about 44 terabytes. -/
theorem sampleLength_fits_period_longest :
    ∃ rate, sSampleRateValue[5]? = some rate ∧ Unwrapped 11 2147483647 rate ∧
      (sampleLength 11 2147483647 rate).toNat =
        4 * ((2 ^ 11 - 1) * 2147483647 * rate.toNat / 1000000) ∧
      (sampleLength 11 2147483647 rate).toNat ≤
        4 * rate.toNat * ((acqPeriod 11 2147483647).toNat - 2) := by
  obtain ⟨rate, hget, hunwrapped, hlen, -, hle, -⟩ := sampleLength_fits_period
    (p := { benchProfile with
      sequenceLength := 11, impulseWidth := 2147483647, adcSamplingRates := 5 })
    rfl (by decide) rfl rfl (by decide)
  exact ⟨rate, hget, hunwrapped, hlen, hle⟩

end AcqBoard.App
