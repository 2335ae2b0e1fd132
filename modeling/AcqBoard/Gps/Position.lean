import AcqBoard.Gps.Twins
import Mathlib.Algebra.Order.Floor.Semifield
import Mathlib.Data.Rat.Floor
import Mathlib.Tactic.FieldSimp

/-! Fields with a decimal point.

    The digits behind the point are scanned as an integer of their own, so how many there are is lost:
    `gps_gprmc` reads up to four of them as ten-thousandths of a minute, `gps_gpgga` all of them. The
    sign of a height goes with its whole part, where it is lost on a zero. -/

namespace AcqBoard.Gps
open Schemes

/-- An angle `d..dmm.f`: `width` digits of degrees, two of minutes, and one or more behind the
    point. -/
structure AngleField (width : ℕ) where
  deg : List UInt8
  mins : List UInt8
  frac : List UInt8
  degDigits : ∀ b ∈ deg, isDigit b = true
  minsDigits : ∀ b ∈ mins, isDigit b = true
  fracDigits : ∀ b ∈ frac, isDigit b = true
  degLength : deg.length = width
  minsLength : mins.length = 2
  fracNe : frac ≠ []

namespace AngleField
variable {width : ℕ}

def text (a : AngleField width) : List UInt8 := a.deg ++ (a.mins ++ byte '.' :: a.frac)

/-- The minutes as a number. -/
def minutes (a : AngleField width) : ℚ :=
  digitsVal a.mins + digitsVal a.frac / 10 ^ a.frac.length

/-- The minutes at the scale of `ns_m10000` and `ew_m10000`. -/
def m10000 (a : AngleField width) : ℕ := ⌊10 ^ 4 * a.minutes⌋₊

/-- The condition: four fraction digits or more, or nothing but zeros. -/
def Scaled (a : AngleField width) : Prop := 4 ≤ a.frac.length ∨ digitsVal a.frac = 0

instance (a : AngleField width) : Decidable a.Scaled :=
  inferInstanceAs (Decidable (4 ≤ a.frac.length ∨ digitsVal a.frac = 0))

/-- What `%04d` reads of the fraction. -/
def scanned (a : AngleField width) : ℕ := digitsVal (a.frac.take 4)

theorem scanned_lt (a : AngleField width) : a.scanned < 10000 := by
  have hdigits : ∀ b ∈ a.frac.take 4, isDigit b = true := fun b hb =>
    a.fracDigits b (List.mem_of_mem_take hb)
  refine Nat.lt_of_lt_of_le (digitsVal_lt hdigits) ?_
  exact Nat.pow_le_pow_right (by decide) (List.length_take_le 4 a.frac)

theorem mins_lt (a : AngleField width) : digitsVal a.mins < 100 := by
  have hlt := digitsVal_lt a.minsDigits
  rwa [a.minsLength] at hlt

theorem m10000_eq (a : AngleField width) :
    a.m10000 = digitsVal a.mins * 10000 + digitsVal a.frac * 10000 / 10 ^ a.frac.length := by
  have hpos : 0 < 10 ^ a.frac.length := Nat.pow_pos (by decide)
  have hq : (10 ^ 4 : ℚ) * a.minutes =
      ((digitsVal a.mins * 10000 * 10 ^ a.frac.length + digitsVal a.frac * 10000 : ℕ) : ℚ) /
        ((10 ^ a.frac.length : ℕ) : ℚ) := by
    unfold minutes
    push_cast
    field_simp
    ring
  rw [m10000, hq, Nat.floor_div_eq_div, Nat.mul_comm, Nat.mul_add_div hpos]

/-- The four digits read are the ten-thousandths exactly under the condition. -/
theorem scaled_iff (a : AngleField width) :
    a.scanned = digitsVal a.frac * 10000 / 10 ^ a.frac.length ↔ a.Scaled := by
  by_cases hlen : 4 ≤ a.frac.length
  · refine iff_of_true ?_ (Or.inl hlen)
    obtain ⟨k, hk⟩ := Nat.exists_eq_add_of_le hlen
    have hdrop : (a.frac.drop 4).length = k := by rw [List.length_drop, hk]; omega
    have hrest : digitsVal (a.frac.drop 4) < 10 ^ k := by
      rw [← hdrop]
      exact digitsVal_lt fun b hb => a.fracDigits b (List.mem_of_mem_drop hb)
    have hsplit : digitsVal a.frac = a.scanned * 10 ^ k + digitsVal (a.frac.drop 4) := by
      rw [scanned, ← hdrop, ← digitsVal_append, List.take_append_drop]
    have hpow : 10 ^ (4 + k) = 10000 * 10 ^ k := by rw [pow_add]; rfl
    rw [hsplit, hk, hpow, Nat.mul_comm _ 10000, Nat.mul_div_mul_left _ _ (by decide),
      Nat.mul_comm a.scanned, Nat.mul_add_div (Nat.pow_pos (by decide)),
      Nat.div_eq_of_lt hrest, Nat.add_zero]
  · have htake : a.scanned = digitsVal a.frac := by
      rw [scanned, List.take_of_length_le (by omega)]
    obtain ⟨k, hk⟩ : ∃ k, 4 = a.frac.length + (k + 1) := ⟨3 - a.frac.length, by omega⟩
    have hpow : (10000 : ℕ) = 10 ^ a.frac.length * 10 ^ (k + 1) := by rw [← pow_add, ← hk]; rfl
    have hval : digitsVal a.frac * 10000 / 10 ^ a.frac.length = digitsVal a.frac * 10 ^ (k + 1) := by
      rw [hpow, Nat.mul_left_comm, Nat.mul_div_cancel_left _ (Nat.pow_pos (by decide))]
    rw [htake, hval, Scaled]
    constructor
    · intro h
      refine Or.inr ?_
      by_contra hne
      have hlt : digitsVal a.frac * 1 < digitsVal a.frac * 10 ^ (k + 1) :=
        Nat.mul_lt_mul_of_pos_left (Nat.one_lt_pow (by omega) (by decide)) (by omega)
      omega
    · rintro (h | h)
      · omega
      · rw [h, Nat.zero_mul]

/-- What is scanned of the field: degrees, minutes and up to four digits of the fraction. -/
theorem sscanf_text (a : AngleField width) (hw : 0 < width) :
    sscanf [.int (some width), .int (some 2), .lit (byte '.'), .int (some 4)] a.text =
      [Int32.ofInt (saturate (digitsVal a.deg)), Int32.ofInt (digitsVal a.mins),
        Int32.ofInt a.scanned] := by
  have hdeg : a.deg ≠ [] := List.ne_nil_of_length_pos (by rw [a.degLength]; exact hw)
  have hmins : a.mins ≠ [] := List.ne_nil_of_length_pos (by rw [a.minsLength]; decide)
  have hfrac : a.frac.take 4 ≠ [] := by
    rw [Ne, List.take_eq_nil_iff, not_or]
    exact ⟨by decide, a.fracNe⟩
  have hends : Ends (some 4) (a.frac.take 4) (a.frac.drop 4) := by
    by_cases hlen : 4 ≤ a.frac.length
    · exact Or.inl (by rw [List.length_take_of_le hlen])
    · refine Or.inr ⟨?_, ?_⟩
      · rintro w ⟨⟩
        exact List.length_take_le 4 a.frac
      · rw [List.drop_of_length_le (by omega)]
        rfl
  have hlt₂ := a.mins_lt
  have hlt₃ := a.scanned_lt
  have h₁ : scanInt (some width) (a.deg ++ (a.mins ++ byte '.' :: a.frac)) =
      some (Int32.ofInt (saturate (digitsVal a.deg)), a.mins ++ byte '.' :: a.frac) :=
    scanInt_digits a.degDigits hdeg (Or.inl (congrArg some a.degLength.symm))
  have h₂ : scanInt (some 2) (a.mins ++ byte '.' :: a.frac) =
      some (Int32.ofInt (digitsVal a.mins), byte '.' :: a.frac) := by
    rw [scanInt_digits a.minsDigits hmins (Or.inl (congrArg some a.minsLength.symm)),
      saturate_of_lt (by omega)]
  have h₃ : scanInt (some 4) a.frac = some (Int32.ofInt a.scanned, a.frac.drop 4) := by
    have hscan := scanInt_digits (fun b hb => a.fracDigits b (List.mem_of_mem_take hb)) hfrac hends
    rwa [List.take_append_drop, ← scanned, saturate_of_lt (by omega)] at hscan
  simp only [sscanf, text, h₁, h₂, h₃, if_true]

/-- What `gps_gprmc` stores of the field. -/
theorem scanAngle_text (a : AngleField width) (hw : 0 < width) (d m : UInt32) (tmp : Int32) :
    scanAngle width a.text d m tmp =
      ((Int32.ofInt (saturate (digitsVal a.deg))).toUInt32,
        UInt32.ofNat (digitsVal a.mins * 10000 + a.scanned), Int32.ofInt a.scanned) := by
  have hhead : isDigit (a.text.headD 0) = true := by
    obtain ⟨b, deg, hdeg⟩ := List.exists_cons_of_length_pos (by rw [a.degLength]; exact hw)
    rw [text, hdeg]
    exact a.degDigits b (by rw [hdeg]; exact List.mem_cons_self)
  rw [scanAngle, if_pos hhead, sscanf_text a hw]
  simp only [store, List.map_cons, List.map_nil, List.getD_cons_zero, List.getD_cons_succ,
    Int32.ofInt_eq_ofNat, Int32.toUInt32_ofNat', UInt32.ofNat_add, UInt32.ofNat_mul]
  rfl

end AngleField

/-- What `gps_gprmc` stores of the two angles. -/
theorem gpsGprmc_position {g : Receiver} {x : Env} {r : Receiver × List Int32}
    (h₀ : g.field 0 = .ok (ascii "$GPRMC")) (hok : gpsGprmc g x = .ok r) :
    ∃ latitude longitude lat lon, g.field 3 = .ok latitude ∧ g.field 5 = .ok longitude ∧
      lat = scanAngle 2 latitude g.gpsData.nsD g.gpsData.nsM10000 x.tmp ∧
      lon = scanAngle 3 longitude g.gpsData.ewD g.gpsData.ewM10000 lat.2.2 ∧
      r.1.gpsData.nsD = lat.1 ∧ r.1.gpsData.nsM10000 = lat.2.1 ∧
      r.1.gpsData.ewD = lon.1 ∧ r.1.gpsData.ewM10000 = lon.2.1 := by
  rw [gpsGprmc, h₀] at hok
  simp only [bind, Except.bind, ne_eq, not_true_eq_false, if_false] at hok
  obtain ⟨time, -, hok⟩ := bind_eq_ok.mp hok
  obtain ⟨speed, -, hok⟩ := bind_eq_ok.mp hok
  obtain ⟨date, -, hok⟩ := bind_eq_ok.mp hok
  obtain ⟨latitude, h₃, hok⟩ := bind_eq_ok.mp hok
  obtain ⟨longitude, h₅, hok⟩ := bind_eq_ok.mp hok
  obtain ⟨ns, -, hok⟩ := bind_eq_ok.mp hok
  obtain ⟨ew, -, hok⟩ := bind_eq_ok.mp hok
  obtain ⟨status, -, hok⟩ := bind_eq_ok.mp hok
  rw [← pure_eq_ok.mp hok]
  exact ⟨latitude, longitude, _, _, h₃, h₅, rfl, rfl, rfl, rfl, rfl, rfl⟩

/-! ### Heights -/

inductive Sign where
  | none
  | plus
  | minus
  deriving DecidableEq

def Sign.text : Sign → List UInt8
  | .none => []
  | .plus => [byte '+']
  | .minus => [byte '-']

/-- A height: a sign or none, and digits on both sides of the point. -/
structure Altitude where
  sign : Sign
  whole : List UInt8
  frac : List UInt8
  wholeDigits : ∀ b ∈ whole, isDigit b = true
  fracDigits : ∀ b ∈ frac, isDigit b = true
  wholeNe : whole ≠ []
  fracNe : frac ≠ []

namespace Altitude

def text (a : Altitude) : List UInt8 := a.sign.text ++ a.whole ++ byte '.' :: a.frac

/-- The height as a number. -/
def value (a : Altitude) : ℚ :=
  (if a.sign = .minus then -1 else 1) * (digitsVal a.whole + digitsVal a.frac / 10 ^ a.frac.length)

/-- The part before the point with its sign. -/
def signedWhole (a : Altitude) : ℤ :=
  if a.sign = .minus then -digitsVal a.whole else digitsVal a.whole

/-- The condition: the signed whole parts are different, or the integers that the fraction digits
    spell, both as far as 32 bits go. -/
def Apart (a b : Altitude) : Prop :=
  saturate a.signedWhole ≠ saturate b.signedWhole ∨
    saturate (digitsVal a.frac) ≠ saturate (digitsVal b.frac)

theorem sscanf_text (a : Altitude) :
    sscanf [.int none, .lit (byte '.'), .int none] a.text =
      [Int32.ofInt (saturate a.signedWhole), Int32.ofInt (saturate (digitsVal a.frac))] := by
  have hpoint : isDigit ((byte '.' :: a.frac).headD 0) = false := rfl
  have hends : Ends none a.frac [] := Or.inr ⟨by simp, rfl⟩
  have hfrac := scanInt_digits a.fracDigits a.fracNe hends
  rw [List.append_nil] at hfrac
  have hwhole : scanInt none a.text =
      some (Int32.ofInt (saturate a.signedWhole), byte '.' :: a.frac) := by
    unfold text signedWhole
    cases a.sign with
    | none =>
      exact scanInt_digits a.wholeDigits a.wholeNe (Or.inr ⟨by simp, hpoint⟩)
    | plus => exact scanInt_plus a.wholeDigits a.wholeNe hpoint
    | minus => exact scanInt_minus a.wholeDigits a.wholeNe hpoint
  simp only [sscanf, hwhole, hfrac, if_true]

end Altitude

/-- What `gps_gpgga` stores of the height. -/
theorem gpsGpgga_height {g h : Receiver} {a : Altitude} (h₀ : g.field 0 = .ok (ascii "$GPGGA"))
    (h₉ : g.field 9 = .ok a.text) (hok : gpsGpgga g = .ok h) :
    h.gpsData.heightD = (Int32.ofInt (saturate a.signedWhole)).toUInt32 ∧
      h.gpsData.heightM = (Int32.ofInt (saturate (digitsVal a.frac))).toUInt32 := by
  rw [gpsGpgga, h₀] at hok
  simp only [bind, Except.bind, ne_eq, not_true_eq_false, if_false] at hok
  obtain ⟨used, -, hok⟩ := bind_eq_ok.mp hok
  obtain ⟨height, h₉', hok⟩ := bind_eq_ok.mp hok
  obtain rfl := Except.ok.inj (h₉.symm.trans h₉')
  rw [← pure_eq_ok.mp hok, Altitude.sscanf_text]
  exact ⟨rfl, rfl⟩

/-! ### The scale -/

/-- The law of one angle: the stored minutes are those of the field, rounded down to the scale. -/
def AngleKept {width : ℕ} (a : AngleField width) (stored : UInt32) : Prop := stored.toNat = a.m10000

theorem angleKept_iff {width : ℕ} (a : AngleField width) (hw : 0 < width) (d m : UInt32)
    (tmp : Int32) : AngleKept a (scanAngle width a.text d m tmp).2.1 ↔ a.Scaled := by
  have hlt₁ := a.mins_lt
  have hlt₂ := a.scanned_lt
  have hstored : (UInt32.ofNat (digitsVal a.mins * 10000 + a.scanned)).toNat =
      digitsVal a.mins * 10000 + a.scanned := UInt32.toNat_ofNat_of_lt' (by
        change _ < 4294967296
        omega)
  rw [AngleKept, a.scanAngle_text hw, hstored, a.m10000_eq, ← a.scaled_iff]
  omega

/-- The law of two heights: different numbers are not stored alike. -/
def HeightsApart (a b : Altitude) (g h : GpsData) : Prop :=
  a.value ≠ b.value → (g.heightD, g.heightM) ≠ (h.heightD, h.heightM)

theorem heightsApart_iff {g h g' h' : Receiver} {a b : Altitude}
    (ha₀ : g.field 0 = .ok (ascii "$GPGGA")) (ha₉ : g.field 9 = .ok a.text)
    (hb₀ : h.field 0 = .ok (ascii "$GPGGA")) (hb₉ : h.field 9 = .ok b.text)
    (hg : gpsGpgga g = .ok g') (hh : gpsGpgga h = .ok h') :
    HeightsApart a b g'.gpsData h'.gpsData ↔ (a.value ≠ b.value → a.Apart b) := by
  obtain ⟨hd, hm⟩ := gpsGpgga_height ha₀ ha₉ hg
  obtain ⟨hd', hm'⟩ := gpsGpgga_height hb₀ hb₉ hh
  refine imp_congr_right fun _ => ?_
  rw [hd, hm, hd', hm', Altitude.Apart, Ne, Prod.mk.injEq, ← not_and_or, not_iff_not]
  constructor
  · rintro ⟨h₁, h₂⟩
    exact ⟨ofInt_saturate_inj h₁, ofInt_saturate_inj h₂⟩
  · rintro ⟨h₁, h₂⟩
    rw [h₁, h₂]
    exact ⟨rfl, rfl⟩

/-- CORRECT: for every angle field that `gps_gprmc` finds the stored minutes are those of the field
    if and only if the fraction has four digits or only zeros, and for every two heights that
    `gps_gpgga` finds different numbers are stored differently if and only if their signed whole parts
    or the integers that their fraction digits spell are different. -/
theorem fractions_iff (lat : AngleField 2) (lon : AngleField 3) (a b : Altitude) :
    (∀ (g : Receiver) (x : Env) (r : Receiver × List Int32),
      g.field 0 = .ok (ascii "$GPRMC") → g.field 3 = .ok lat.text → gpsGprmc g x = .ok r →
      (AngleKept lat r.1.gpsData.nsM10000 ↔ lat.Scaled)) ∧
    (∀ (g : Receiver) (x : Env) (r : Receiver × List Int32),
      g.field 0 = .ok (ascii "$GPRMC") → g.field 5 = .ok lon.text → gpsGprmc g x = .ok r →
      (AngleKept lon r.1.gpsData.ewM10000 ↔ lon.Scaled)) ∧
    ∀ (g h g' h' : Receiver),
      g.field 0 = .ok (ascii "$GPGGA") → g.field 9 = .ok a.text → gpsGpgga g = .ok g' →
      h.field 0 = .ok (ascii "$GPGGA") → h.field 9 = .ok b.text → gpsGpgga h = .ok h' →
      (HeightsApart a b g'.gpsData h'.gpsData ↔ (a.value ≠ b.value → a.Apart b)) := by
  refine ⟨?_, ?_, ?_⟩
  · intro g x r h₀ h₃ hok
    obtain ⟨latitude, longitude, p, q, h₃', -, rfl, -, -, hstored, -⟩ := gpsGprmc_position h₀ hok
    obtain rfl := Except.ok.inj (h₃.symm.trans h₃')
    rw [hstored]
    exact angleKept_iff lat (by decide) _ _ _
  · intro g x r h₀ h₅ hok
    obtain ⟨latitude, longitude, p, q, -, h₅', -, rfl, -, -, -, hstored⟩ :=
      gpsGprmc_position h₀ hok
    obtain rfl := Except.ok.inj (h₅.symm.trans h₅')
    rw [hstored]
    exact angleKept_iff lon (by decide) _ _ _
  · intro g h g' h' ha₀ ha₉ hg hb₀ hb₉ hh
    exact heightsApart_iff ha₀ ha₉ hb₀ hb₉ hg hh

/-- A state in which the handlers find a `$GPRMC` frame of ten fields. -/
theorem exists_gprmc (x : Env) {f : FrameText} (hn : f.fields.length ≤ 64) (hstar : byte '*' ∈ f.last)
    (h9 : 9 < f.fields.length) :
    ∃ g r, (∀ j ≤ 9, g.field j = .ok (f.piece j)) ∧ gpsGprmc g x = .ok r := by
  obtain ⟨g, hl, -⟩ := gpsProcFrame_cut Receiver.boot hn hstar
  have hset : ∀ j ≤ 9, g.cmdList j ≠ none := by
    intro j hj
    rw [(hl.own j (by omega)).1]
    simp
  have h₀ := hl.field f.fields_pos
  obtain ⟨r, hr⟩ := (gpsGprmc_completes (x := x) h₀).mpr fun _ =>
    ⟨fun j _ hj => hset j (by omega), fun _ _ _ => hset 9 (by omega)⟩
  exact ⟨g, r, fun j hj => hl.field (by omega), hr⟩

/-- A state in which they find a `$GPGGA` frame of ten fields. -/
theorem exists_gpgga {f : FrameText} (hn : f.fields.length ≤ 64) (hstar : byte '*' ∈ f.last)
    (hh : f.piece 0 = ascii "$GPGGA") (h9 : 9 < f.fields.length) :
    ∃ g h, (∀ j ≤ 9, g.field j = .ok (f.piece j)) ∧ gpsGpgga g = .ok h := by
  obtain ⟨g, hl, -⟩ := gpsProcFrame_cut Receiver.boot hn hstar
  have h₀ := hl.field f.fields_pos
  rw [hh] at h₀
  exact ⟨g, _, fun j hj => hl.field (by omega),
    gpsGpgga_full h₀ (hl.field (by omega)) (hl.field h9)⟩

/-- `2307.1963` -/
def sampleMinute : AngleField 2 where
  deg := ascii "23"
  mins := ascii "07"
  frac := ascii "1963"
  degDigits := List.all_eq_true.mp (by decide)
  minsDigits := List.all_eq_true.mp (by decide)
  fracDigits := List.all_eq_true.mp (by decide)
  degLength := rfl
  minsLength := rfl
  fracNe := by decide

/-- `11316.2968` -/
def sampleLongitude : AngleField 3 where
  deg := ascii "113"
  mins := ascii "16"
  frac := ascii "2968"
  degDigits := List.all_eq_true.mp (by decide)
  minsDigits := List.all_eq_true.mp (by decide)
  fracDigits := List.all_eq_true.mp (by decide)
  degLength := rfl
  minsLength := rfl
  fracNe := by decide

/-- `57.5` and `57.05` -/
def halfMetre : Altitude where
  sign := .none
  whole := ascii "57"
  frac := ascii "5"
  wholeDigits := List.all_eq_true.mp (by decide)
  fracDigits := List.all_eq_true.mp (by decide)
  wholeNe := by decide
  fracNe := by decide

def fiveCentimetres : Altitude where
  sign := .none
  whole := ascii "57"
  frac := ascii "05"
  wholeDigits := List.all_eq_true.mp (by decide)
  fracDigits := List.all_eq_true.mp (by decide)
  wholeNe := by decide
  fracNe := by decide

def sampleMinuteFrame : NmeaFrame where
  body := ascii "GPRMC,,A,2307.1963,N,11316.29680,E,0.0,,081208,*26"
  fits := by decide
  plain := plain_of_all (by decide)
  asterisk := by decide
  valid := by decide

/-- Four digits are kept. -/
theorem fractions_sample : ∃ g r, gpsGprmc g benchEnv = .ok r ∧
    AngleKept sampleMinute r.1.gpsData.nsM10000 := by
  obtain ⟨g, r, hf, hr⟩ := exists_gprmc benchEnv (f := sampleMinuteFrame.toFrameText) (by decide)
    (by decide) (by decide)
  have hiff := (fractions_iff sampleMinute sampleLongitude halfMetre fiveCentimetres).1 g benchEnv r
    (hf 0 (by decide)) (hf 3 (by decide)) hr
  exact ⟨g, r, hr, hiff.mpr (Or.inl (by decide))⟩

/-- `2307.5` -/
def halfMinute : AngleField 2 where
  deg := ascii "23"
  mins := ascii "07"
  frac := ascii "5"
  degDigits := List.all_eq_true.mp (by decide)
  minsDigits := List.all_eq_true.mp (by decide)
  fracDigits := List.all_eq_true.mp (by decide)
  degLength := rfl
  minsLength := rfl
  fracNe := by decide

def halfMinuteFrame : NmeaFrame where
  body := ascii "GPRMC,,A,2307.5,N,11316.25,E,0.0,,081208*00"
  fits := by decide
  plain := plain_of_all (by decide)
  asterisk := by decide
  valid := by decide

def halfMetreFrame : NmeaFrame where
  body := ascii "GPGGA,,,,,,,,,57.5,*4F"
  fits := by decide
  plain := plain_of_all (by decide)
  asterisk := by decide
  valid := by decide

def fiveCentimetresFrame : NmeaFrame where
  body := ascii "GPGGA,,,,,,,,,57.05,*7F"
  fits := by decide
  plain := plain_of_all (by decide)
  asterisk := by decide
  valid := by decide

/-- Half a minute is stored as five ten-thousandths, and half a metre as five centimetres are. -/
theorem fractions_lost :
    (¬ ∀ (g : Receiver) (x : Env) (r : Receiver × List Int32) (a : AngleField 2),
      g.field 0 = .ok (ascii "$GPRMC") → g.field 3 = .ok a.text → gpsGprmc g x = .ok r →
      AngleKept a r.1.gpsData.nsM10000) ∧
    ¬ ∀ (g h g' h' : Receiver) (a b : Altitude),
      g.field 0 = .ok (ascii "$GPGGA") → g.field 9 = .ok a.text → gpsGpgga g = .ok g' →
      h.field 0 = .ok (ascii "$GPGGA") → h.field 9 = .ok b.text → gpsGpgga h = .ok h' →
      HeightsApart a b g'.gpsData h'.gpsData := by
  constructor
  · intro h
    obtain ⟨g, r, hf, hr⟩ := exists_gprmc benchEnv (f := halfMinuteFrame.toFrameText) (by decide)
      (by decide) (by decide)
    have hkept := h g benchEnv r halfMinute (hf 0 (by decide)) (hf 3 (by decide)) hr
    obtain ⟨latitude, -, lat, -, h₃, -, rfl, -, -, hstored, -⟩ :=
      gpsGprmc_position (hf 0 (by decide)) hr
    obtain rfl := Except.ok.inj ((hf 3 (by decide)).symm.trans h₃)
    rw [hstored] at hkept
    exact absurd ((angleKept_iff halfMinute (by decide) _ _ _).mp hkept) (by decide)
  · intro h
    obtain ⟨g, g', hf, hg⟩ := exists_gpgga (f := halfMetreFrame.toFrameText) (by decide) (by decide)
      (by decide) (by decide)
    obtain ⟨k, k', hf', hk⟩ := exists_gpgga (f := fiveCentimetresFrame.toFrameText) (by decide)
      (by decide) (by decide) (by decide)
    have hkept := h g k g' k' halfMetre fiveCentimetres (hf 0 (by decide)) (hf 9 (by decide)) hg
      (hf' 0 (by decide)) (hf' 9 (by decide)) hk
    have hvalue : halfMetre.value ≠ fiveCentimetres.value := by
      have hhalf : halfMetre.value = 1 * ((57 : ℕ) + (5 : ℕ) / 10 ^ 1) := rfl
      have hfive : fiveCentimetres.value = 1 * ((57 : ℕ) + (5 : ℕ) / 10 ^ 2) := rfl
      rw [hhalf, hfive]
      norm_num
    have happart := (heightsApart_iff (a := halfMetre) (b := fiveCentimetres) (hf 0 (by decide))
      (hf 9 (by decide)) (hf' 0 (by decide)) (hf' 9 (by decide)) hg hk).mp hkept hvalue
    rcases happart with h | h
    · exact h rfl
    · exact h rfl

end AcqBoard.Gps
