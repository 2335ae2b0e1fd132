import AcqBoard.App.Handlers
import AcqBoard.Schemes.Word

/-! What a profile must meet for the program to stay inside its arrays.

    Nothing in `Configuration.ini` is checked. `Configuration` goes through exactly for the profiles of
    `configuration_iff_inBounds`, and the name that `MesgThread` later formats into its 32 bytes fits
    exactly under the bound of `sdName_fits`: the directory may have 63 bytes, but the name only
    leaves room for eighteen bytes of directory and seconds together. -/

namespace AcqBoard.App
open Schemes Csr Lfsr

/-! ### The name of a data file -/

/-- The directory leaves room for what `%d` prints of the seconds, which are a signed 32-bit value
    to `printf`: with a minus sign from 2^31 on. -/
def NameFits (dir : DataDir) (uiSeconds : UInt32) : Prop :=
  if uiSeconds.toNat < 2 ^ 31 then
    dir.bytes.length ≤ 17 ∧ uiSeconds.toNat < 10 ^ (18 - dir.bytes.length)
  else dir.bytes.length ≤ 16 ∧ 2 ^ 32 - uiSeconds.toNat < 10 ^ (17 - dir.bytes.length)

theorem length_digits_le_iff {n d k : ℕ} :
    d + ((Nat.toDigits 10 n).map byte).length ≤ k ↔ d + 1 ≤ k ∧ n < 10 ^ (k - d) := by
  have hpos : 0 < (Nat.toDigits 10 n).length := Nat.length_toDigits_pos
  rw [List.length_map]
  constructor
  · intro h
    exact ⟨by omega, (Nat.length_toDigits_le_iff (by decide) (by omega)).mp (by omega)⟩
  · rintro ⟨hd, hn⟩
    have := (Nat.length_toDigits_le_iff (k := k - d) (by decide) (by omega)).mpr hn
    omega

theorem length_sdName (dir : DataDir) (uiSeconds : UInt32) :
    (sdName dir uiSeconds).length =
      13 + dir.bytes.length + (decimal uiSeconds.toInt32.toInt).length := by
  have h₁ : (ascii "/mnt/").length = 5 := rfl
  have h₂ : (ascii "/").length = 1 := rfl
  have h₃ : (ascii "_tx.dat").length = 7 := rfl
  simp only [sdName, List.length_append, h₁, h₂, h₃]
  omega

theorem length_sdName_lt {dir : DataDir} {uiSeconds : UInt32} :
    (sdName dir uiSeconds).length < 32 ↔ NameFits dir uiSeconds := by
  rw [length_sdName, toInt_toInt32, NameFits]
  split
  · have hneg : ¬ (uiSeconds.toNat : ℤ) < 0 := by omega
    have hiff := @length_digits_le_iff uiSeconds.toNat dir.bytes.length 18
    rw [decimal, if_neg hneg, Int.natAbs_natCast, List.nil_append]
    omega
  · have hlt := uiSeconds.toNat_lt
    have hneg : (uiSeconds.toNat : ℤ) - 2 ^ 32 < 0 := by omega
    have habs : ((uiSeconds.toNat : ℤ) - 2 ^ 32).natAbs = 2 ^ 32 - uiSeconds.toNat := by omega
    have hiff := @length_digits_le_iff (2 ^ 32 - uiSeconds.toNat) dir.bytes.length 17
    rw [decimal, if_pos hneg, habs, List.length_append, List.length_singleton]
    omega

/-- A start interrupt writes past `s_SD_FILE_NAME` in SD mode, for a directory that is too long. -/
theorem mesgThread_outOfRange {b : Board} {uiSeconds : UInt32} {fopenOk : Bool} :
    mesgThread b uiSeconds fopenOk = .error .outOfRange ↔
      b.uiSavePC = 0 ∧ ¬ NameFits b.sdDataDir uiSeconds := by
  rw [← length_sdName_lt, mesgThread, mesgFile]
  rcases eq_or_ne b.uiSavePC 0 with hpc | hpc
  · rw [if_pos (show (mesgFlags b).uiSavePC = 0 from hpc), Board.fclose_eq]
    dsimp only [mesgFlags]
    split
    · rename_i hlen
      refine iff_of_false ?_ fun h => h.2 hlen
      intro h
      exact absurd (Board.fwrite_eq_error.mp h).2 (by decide)
    · rename_i hlen
      exact iff_of_true rfl ⟨hpc, hlen⟩
  · rw [if_neg (show (mesgFlags b).uiSavePC ≠ 0 from hpc)]
    exact iff_of_false (by simp) fun h => hpc h.1

/-- CORRECT (data file name): the name and its NUL fit in `s_SD_FILE_NAME` exactly if the directory
    leaves room for the seconds. -/
theorem sdName_fits (dir : DataDir) (uiSeconds : UInt32) :
    (sdName dir uiSeconds ++ [0]).length ≤ 32 ↔ NameFits dir uiSeconds := by
  rw [← length_sdName_lt, List.length_append, List.length_singleton]
  omega

/-- A directory of nine characters is one too long for a time of ten digits. -/
theorem sdName_overflows : ¬ ∀ (dir : DataDir) (uiSeconds : UInt32),
    (sdName dir uiSeconds ++ [0]).length ≤ 32 := by
  intro h
  exact absurd (h ⟨ascii "DATA_2019", by decide, by decide⟩ 1546300800) (by decide)

/-! ### `Configuration` -/

/-- The profiles that `Configuration` survives with the directory `dir` in force. -/
structure InBounds (dir : DataDir) (p : Profile) : Prop where
  dir : dir.bytes ≠ []
  rate : 0 ≤ p.adcSamplingRates.toInt ∧ p.adcSamplingRates.toInt ≤ 5
  length : p.sequenceLength.toUInt32.toNat ≤ 11 ∨ 31 ≤ p.sequenceLength.toUInt32.toNat
  period : ¬ (p.sequenceLength = 31 ∧ p.impulseWidth = 2000000)

/-- `total/32` of `SetDataToRam`: none from `n = 31` on, where `total` is negative or zero. -/
theorem ramWords (n : UInt32) : ((power n).toInt32 / 32).toInt.toNat =
    if n.toNat < 31 then 2 ^ n.toNat / 32 else 0 := by
  have hdiv : ((power n).toInt32 / 32).toInt = (power n).toInt32.toInt.tdiv 32 :=
    Int32.toInt_div_of_ne_right _ _ (by decide)
  rw [hdiv, toInt_toInt32]
  rcases lt_trichotomy n.toNat 31 with hn | hn | hn
  · have hpow : 2 ^ n.toNat < 2 ^ 31 := Nat.pow_lt_pow_right (by decide) hn
    rw [toNat_power_small (by omega), if_pos hpow, if_pos hn]
    exact Int.toNat_natCast _
  · rw [toNat_power_small (by omega), hn]; rfl
  · rw [power_large hn, if_neg (show ¬ n.toNat < 31 by omega)]; rfl

/-- The copy loop returns exactly if it stays inside the table of code words. -/
theorem ramLoop_ok {buf : ℕ → UInt32} {n i : ℕ} {ram : ℕ → UInt32} :
    (∃ ram', ramLoop buf n i ram = .ok ram') ↔ n = 0 ∨ i + n ≤ 64 := by
  induction n generalizing i ram with
  | zero => exact iff_of_true ⟨ram, rfl⟩ (Or.inl rfl)
  | succ n ih =>
    rw [ramLoop]
    split
    · rw [ih]; omega
    · exact iff_of_false (by simp) (by omega)

/-! ### The acquisition period -/

/-- `Power(n) - 1`: it wraps from `n = 32` on. -/
theorem toNat_power_pred (n : UInt32) :
    (power n - 1).toNat = if n.toNat < 32 then 2 ^ n.toNat - 1 else 2 ^ 32 - 1 := by
  split
  · rename_i hn
    have hpos : 1 ≤ 2 ^ n.toNat := Nat.one_le_two_pow
    have hle : 1 ≤ power n := by
      rw [UInt32.le_iff_toNat_le, toNat_power_small hn]; exact hpos
    rw [UInt32.toNat_sub_of_le _ _ hle, toNat_power_small hn]; rfl
  · rename_i hn
    rw [power_large (Nat.not_lt.mp hn)]; rfl

/-- The quotient that `Configuration` rounds up, `Power(n) - 1` code bits of `w` microseconds. -/
def ceilSeconds (bits : ℕ) (w : Int32) : ℤ := -(-(bits * w.toInt) / 1000000)

theorem acqPeriod_eq_zero {n w : Int32} :
    acqPeriod n w = 0 ↔ ceilSeconds (power n.toUInt32 - 1).toNat w = 4294967294 := by
  have hdef : acqPeriod n w =
      UInt32.ofNat (min (ceilSeconds (power n.toUInt32 - 1).toNat w).toNat 4294967295) + 2 := rfl
  rw [hdef, ← UInt32.toNat_inj, UInt32.toNat_add, UInt32.toNat_ofNat']
  have h2 : (2 : UInt32).toNat = 2 := rfl
  have h0 : (0 : UInt32).toNat = 0 := rfl
  rw [h2, h0]
  omega

/-- A code of up to eleven bits takes at most 2047 pulses. -/
theorem pulses_le {bits : ℕ} (h : bits ≤ 2047) (w : Int32) :
    (bits * w.toInt : ℤ) ≤ 2047 * 2147483647 := by
  have hw : w.toInt < 2147483648 := w.toInt_lt
  have hb : (bits : ℤ) ≤ 2047 := by exact_mod_cast h
  calc (bits * w.toInt : ℤ) ≤ bits * 2147483647 :=
        Int.mul_le_mul_of_nonneg_left (by omega) (Int.natCast_nonneg _)
    _ ≤ 2047 * 2147483647 := Int.mul_le_mul_of_nonneg_right hb (by decide)

/-- Among the code lengths that get past the copy loop one pulse width makes the period wrap to
    zero: (2^31 - 1) bits of two seconds are 2^32 - 2 seconds. -/
theorem acqPeriod_wraps {n w : Int32} (h : n.toUInt32.toNat ≤ 11 ∨ 31 ≤ n.toUInt32.toNat) :
    acqPeriod n w = 0 ↔ n = 31 ∧ w = 2000000 := by
  have hw₁ : w.toInt < 2147483648 := w.toInt_lt
  have hn31 : n = 31 ↔ n.toUInt32.toNat = 31 := by
    constructor
    · rintro rfl; rfl
    · intro hn
      have hu : n.toUInt32 = (31 : Int32).toUInt32 := UInt32.toNat_inj.mp hn
      cases n
      exact congrArg Int32.ofUInt32 hu
  have hw2 : w = 2000000 ↔ w.toInt = 2000000 := by
    constructor
    · rintro rfl; rfl
    · intro hw
      exact Int32.toInt_inj.mp hw
  rw [acqPeriod_eq_zero, toNat_power_pred, hn31, hw2, ceilSeconds]
  rcases h with hn | hn
  · have hpow : 2 ^ n.toUInt32.toNat ≤ 2 ^ 11 := Nat.pow_le_pow_right (by decide) hn
    have hle := pulses_le (show 2 ^ n.toUInt32.toNat - 1 ≤ 2047 by omega) w
    rw [if_pos (by omega)]
    omega
  · rcases Nat.eq_or_lt_of_le hn with hn | hn
    · rw [if_pos (by omega), ← hn]
      omega
    · rw [if_neg (by omega)]
      omega

/-! ### The table look-ups -/

theorem createDir_ok {dir : DataDir} {x : Unit} : createDir dir = .ok x ↔ dir.bytes ≠ [] := by
  unfold createDir
  split
  · rename_i h
    exact iff_of_false (by simp) fun hne => hne (List.length_eq_zero_iff.mp h)
  · rename_i h
    exact iff_of_true rfl fun hnil => h (List.length_eq_zero_iff.mpr hnil)

theorem arrayGet_ok {α : Type} {xs : List α} {i : ℤ} :
    (∃ x, arrayGet xs i = .ok x) ↔ 0 ≤ i ∧ i < xs.length := by
  constructor
  · rintro ⟨x, hx⟩
    obtain ⟨hi, hget⟩ := arrayGet_eq_ok.mp hx
    obtain ⟨hlt, -⟩ := List.getElem?_eq_some_iff.mp hget
    omega
  · rintro ⟨hi, hlt⟩
    have hlt' : i.toNat < xs.length := by omega
    exact ⟨xs[i.toNat], arrayGet_eq_ok.mpr ⟨hi, List.getElem?_eq_getElem hlt'⟩⟩

theorem setSampleRate_ok {r : RegLog} {ucSampleRate : UInt8} :
    (∃ s, setSampleRate r ucSampleRate = .ok s) ↔ ucSampleRate.toNat < 6 := by
  have hlen : sSampleRateReg.length = 6 := rfl
  have hget := @arrayGet_ok _ sSampleRateReg ucSampleRate.toNat
  rw [hlen] at hget
  constructor
  · rintro ⟨s, hs⟩
    obtain ⟨reg, hreg, -⟩ := bind_eq_ok.mp hs
    have := (hget.mp ⟨reg, hreg⟩).2
    omega
  · intro h
    obtain ⟨reg, hreg⟩ := hget.mpr ⟨by omega, by omega⟩
    exact ⟨_, bind_eq_ok.mpr ⟨reg, hreg, rfl⟩⟩

/-- An index in range of the value table is in range of the register table after the conversion to
    `uint8_t`. -/
theorem rate_narrowed {x : Int32} (h : 0 ≤ x.toInt ∧ x.toInt ≤ 5) :
    x.toUInt32.toUInt8.toNat < 6 := by
  have hx : x.toInt = if x.toUInt32.toNat < 2 ^ 31 then (x.toUInt32.toNat : ℤ)
      else x.toUInt32.toNat - 2 ^ 32 := toInt_toInt32 x.toUInt32
  have hlt := x.toUInt32.toNat_lt
  rw [UInt32.toNat_toUInt8]
  split at hx <;> omega

theorem setDataToRam_ok {bitBuff : ℕ → UInt8} {uiSeed uiValue n : UInt32}
    {puiPrbsBuff ram : ℕ → UInt32} :
    (∃ x, setDataToRam bitBuff uiSeed uiValue n puiPrbsBuff ram = .ok x) ↔
      n.toNat ≤ 11 ∨ 31 ≤ n.toNat := by
  have hloop := @ramLoop_ok (getLfsrUint bitBuff uiSeed uiValue puiPrbsBuff n)
    ((power n).toInt32 / 32).toInt.toNat 0 ram
  have hwords : ((power n).toInt32 / 32).toInt.toNat = 0 ∨
      0 + ((power n).toInt32 / 32).toInt.toNat ≤ 64 ↔ n.toNat ≤ 11 ∨ 31 ≤ n.toNat := by
    rw [ramWords]
    split
    · rename_i hn
      rcases Nat.lt_or_ge n.toNat 12 with h | h
      · have : 2 ^ n.toNat ≤ 2 ^ 11 := Nat.pow_le_pow_right (by decide) (by omega)
        omega
      · have : 2 ^ 12 ≤ 2 ^ n.toNat := Nat.pow_le_pow_right (by decide) h
        omega
    · omega
  rw [← hwords, ← hloop]
  constructor
  · rintro ⟨x, hx⟩
    obtain ⟨ram', hram, -⟩ := bind_eq_ok.mp hx
    exact ⟨ram', hram⟩
  · rintro ⟨ram', hram⟩
    exact ⟨_, bind_eq_ok.mpr ⟨ram', hram, rfl⟩⟩

/-! ### The whole of `Configuration` -/

theorem inBounds_of_ok {b c : Board} {p : Profile} {uiSeconds : UInt32} {bitBuff : ℕ → UInt8}
    (h : configuration b p uiSeconds bitBuff = .ok c) :
    InBounds (p.dataDirectory.getD b.sdDataDir) p := by
  have hrates : sSampleRateValue.length = 6 := rfl
  rw [configuration] at h
  obtain ⟨⟨d, calls⟩, hd, rfl⟩ := map_eq_ok.mp h
  obtain ⟨_, hdir, h⟩ := bind_eq_ok.mp hd
  obtain ⟨_, _, h⟩ := bind_eq_ok.mp h
  obtain ⟨rate, hrate, h⟩ := bind_eq_ok.mp h
  obtain ⟨⟨prbs, ram⟩, hram, h⟩ := bind_eq_ok.mp h
  have hrange := arrayGet_ok.mp ⟨rate, hrate⟩
  have hlen := setDataToRam_ok.mp ⟨_, hram⟩
  refine ⟨createDir_ok.mp hdir, ⟨hrange.1, by omega⟩, hlen, ?_⟩
  intro hperiod
  dsimp only at h
  rw [if_pos ((acqPeriod_wraps hlen).mpr hperiod)] at h
  simp at h

theorem configuration_returns {b : Board} {p : Profile}
    (h : InBounds (p.dataDirectory.getD b.sdDataDir) p) (uiSeconds : UInt32)
    (bitBuff : ℕ → UInt8) : ∃ c, configuration b p uiSeconds bitBuff = .ok c := by
  obtain ⟨hdir, hrange, hlen, hperiod⟩ := h
  have hrates : sSampleRateValue.length = 6 := rfl
  have hrate : ∃ x, arrayGet sSampleRateValue p.adcSamplingRates.toInt = .ok x :=
    arrayGet_ok.mpr ⟨hrange.1, by omega⟩
  suffices hlogged : ∃ d, configurationLogged b p uiSeconds bitBuff = .ok d by
    obtain ⟨d, hd⟩ := hlogged
    exact ⟨d.1, map_eq_ok.mpr ⟨d, hd, rfl⟩⟩
  refine bind_returns ⟨(), createDir_ok.mpr hdir⟩ fun _ _ => ?_
  refine bind_returns (setSampleRate_ok.mpr (rate_narrowed hrange)) fun _ _ => ?_
  refine bind_returns hrate fun _ _ => ?_
  refine bind_returns (setDataToRam_ok.mpr hlen) ?_
  rintro ⟨prbs, ram⟩ -
  dsimp only
  rw [if_neg fun h => hperiod ((acqPeriod_wraps hlen).mp h)]
  exact ⟨_, rfl⟩

/-- On every board, with every profile and at every time, `Configuration` runs to its end exactly if the
    profile is in bounds. -/
theorem configuration_iff_inBounds (b : Board) (p : Profile) (uiSeconds : UInt32)
    (bitBuff : ℕ → UInt8) :
    (∃ c, configuration b p uiSeconds bitBuff = .ok c) ↔
      InBounds (p.dataDirectory.getD b.sdDataDir) p := by
  constructor
  · rintro ⟨c, h⟩
    exact inBounds_of_ok h
  · intro h
    exact configuration_returns h uiSeconds bitBuff

end AcqBoard.App
