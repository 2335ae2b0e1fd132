import Mathlib.Tactic.Common
import Mathlib.Data.Int.Notation
import Mathlib.Data.Nat.Notation

/-! The proleptic Gregorian calendar: days counted from 1970-01-01.

    Years are counted from March in eras of 400 years, so that the leap day is the last day of a
    year. -/

namespace Schemes

/-- The day of a date; the month is 1 to 12, the day of the month may be any number. -/
def daysFromCivil (y m d : ℤ) : ℤ :=
  let y := if m ≤ 2 then y - 1 else y
  let era := y / 400
  let yoe := y - era * 400
  let doy := (153 * (if m ≤ 2 then m + 9 else m - 3) + 2) / 5 + d - 1
  era * 146097 + (yoe * 365 + yoe / 4 - yoe / 100 + doy) - 719468

/-- The year, the month from 1 and the day of the month of a day. -/
def civilFromDays (z : ℤ) : ℤ × ℤ × ℤ :=
  let z := z + 719468
  let era := z / 146097
  let doe := z - era * 146097
  let yoe := (doe - doe / 1460 + doe / 36524 - doe / 146096) / 365
  let doy := doe - (365 * yoe + yoe / 4 - yoe / 100)
  let mp := (5 * doy + 2) / 153
  let m := if mp < 10 then mp + 3 else mp - 9
  (yoe + era * 400 + (if m ≤ 2 then 1 else 0), m, doy - (153 * mp + 2) / 5 + 1)

/-- A year has at least 365 days. -/
theorem daysFromCivil_ge {y m d : ℤ} (hy : 1971 ≤ y) (hm : 1 ≤ m) (hd : 1 ≤ d) :
    365 * (y - 1971) < daysFromCivil y m d := by
  unfold daysFromCivil
  dsimp only
  split <;> omega

/-- The UTC second of a date and a time, whatever their ranges; the month counts from 0. -/
def utcSeconds (y mon d hh mm ss : ℤ) : ℤ :=
  (daysFromCivil (y + mon / 12) (mon % 12 + 1) 1 + d - 1) * 86400 + hh * 3600 + mm * 60 + ss

/-- A second lies behind the 365 days of each year since 1971, if its year is not before that. -/
theorem utcSeconds_ge {y mon d hh mm ss : ℤ} (hy : 1971 ≤ y + mon / 12) :
    (365 * (y + mon / 12 - 1971) + d) * 86400 + hh * 3600 + mm * 60 + ss ≤
      utcSeconds y mon d hh mm ss := by
  have hdays : 365 * (y + mon / 12 - 1971) < daysFromCivil (y + mon / 12) (mon % 12 + 1) 1 :=
    daysFromCivil_ge hy (by omega) (Int.le_refl 1)
  unfold utcSeconds
  omega

/-! ### Bounds -/

/-- The year of an era and the day of that year. -/
theorem era_parts {doe yoe : ℤ} (h₀ : 0 ≤ doe) (h₁ : doe < 146097)
    (hy : yoe = (doe - doe / 1460 + doe / 36524 - doe / 146096) / 365) :
    0 ≤ yoe ∧ yoe < 400 ∧ 0 ≤ doe - (365 * yoe + yoe / 4 - yoe / 100) ∧
      doe - (365 * yoe + yoe / 4 - yoe / 100) < 366 := by
  -- the last day of an era belongs to no century
  rcases eq_or_ne doe 146096 with rfl | hlast
  · have hyoe : yoe = 399 := by omega
    subst hyoe
    omega
  -- the centuries, the periods of four years in the century, and the years in the period
  obtain ⟨c, hc⟩ : ∃ c, c = doe / 36524 := ⟨_, rfl⟩
  obtain ⟨q, hq⟩ : ∃ q, q = (doe - 36524 * c) / 1461 := ⟨_, rfl⟩
  have hera : doe / 146096 = 0 := by omega
  have hsplit : ∃ δ, doe / 1460 = 25 * c + q + δ ∧ 0 ≤ doe - 36524 * c - 1461 * q - δ ∧
      doe - 36524 * c - 1461 * q - δ < 1460 ∧ 0 ≤ δ ∧ δ ≤ 1 := by
    refine ⟨doe / 1460 - (25 * c + q), ?_, ?_, ?_, ?_, ?_⟩ <;> omega
  obtain ⟨δ, hδ, hlow, hhigh, hδ₀, hδ₁⟩ := hsplit
  obtain ⟨a, ha⟩ : ∃ a, a = (doe - 36524 * c - 1461 * q - δ) / 365 := ⟨_, rfl⟩
  have hyoe : yoe = 100 * c + 4 * q + a := by omega
  have hfour : yoe / 4 = 25 * c + q := by omega
  have hhundred : yoe / 100 = c := by omega
  omega

/-- The months are 1 to 12 and the days of a month 1 to 31. -/
theorem civilFromDays_range (z : ℤ) : 1 ≤ (civilFromDays z).2.1 ∧ (civilFromDays z).2.1 ≤ 12 ∧
    1 ≤ (civilFromDays z).2.2 ∧ (civilFromDays z).2.2 ≤ 31 := by
  obtain ⟨doe, hdoe⟩ : ∃ doe, doe = z + 719468 - (z + 719468) / 146097 * 146097 := ⟨_, rfl⟩
  obtain ⟨yoe, hyoe⟩ :
    ∃ yoe, yoe = (doe - doe / 1460 + doe / 36524 - doe / 146096) / 365 := ⟨_, rfl⟩
  obtain ⟨-, -, hlow, hhigh⟩ := era_parts (by omega) (by omega) hyoe
  unfold civilFromDays
  dsimp only
  rw [← hdoe, ← hyoe]
  generalize doe - (365 * yoe + yoe / 4 - yoe / 100) = doy at hlow hhigh ⊢
  split <;> omega

/-- 400 years have 146097 days; a year lies where it would if all had as many, give or take some
    hundred days. -/
theorem civilFromDays_year (z : ℤ) :
    400 * z - 400 * 500 ≤ 146097 * ((civilFromDays z).1 - 1970) ∧
      146097 * ((civilFromDays z).1 - 1970) ≤ 400 * z + 400 * 500 := by
  obtain ⟨era, hera⟩ : ∃ era, era = (z + 719468) / 146097 := ⟨_, rfl⟩
  obtain ⟨doe, hdoe⟩ : ∃ doe, doe = z + 719468 - era * 146097 := ⟨_, rfl⟩
  obtain ⟨yoe, hyoe⟩ :
    ∃ yoe, yoe = (doe - doe / 1460 + doe / 36524 - doe / 146096) / 365 := ⟨_, rfl⟩
  obtain ⟨hy₀, hy₁, hlow, hhigh⟩ := era_parts (by omega) (by omega) hyoe
  have hyear : yoe + era * 400 ≤ (civilFromDays z).1 ∧
      (civilFromDays z).1 ≤ yoe + era * 400 + 1 := by
    unfold civilFromDays
    dsimp only
    rw [← hera, ← hdoe, ← hyoe]
    generalize (if _ < 10 then _ else _ : ℤ) = m
    split <;> omega
  have hdays : 400 * (365 * yoe + yoe / 4 - yoe / 100) ≤ 146097 * yoe + 400 ∧
      146097 * yoe - 400 * 100 ≤ 400 * (365 * yoe + yoe / 4 - yoe / 100) := by
    clear hyoe hyear hlow hhigh
    omega
  generalize (civilFromDays z).1 = y at hyear ⊢
  generalize 365 * yoe + yoe / 4 - yoe / 100 = days at hlow hhigh hdays
  clear hyoe hera
  omega

/-- The same of the days of a year. -/
theorem daysFromCivil_near {y m : ℤ} (h₀ : 1 ≤ m) (h₁ : m ≤ 12) :
    146097 * (y - 1970) - 400 * 400 ≤ 400 * daysFromCivil y m 1 ∧
      400 * daysFromCivil y m 1 ≤ 146097 * (y - 1970) + 400 * 400 := by
  unfold daysFromCivil
  dsimp only
  split <;> omega

theorem utcSeconds_le (y mon d hh mm ss : ℤ) : 400 * utcSeconds y mon d hh mm ss ≤
    (146097 * (y + mon / 12 - 1970) + 400 * 400 + 400 * (d - 1)) * 86400 +
      400 * (hh * 3600 + mm * 60 + ss) := by
  have hnear := daysFromCivil_near (y := y + mon / 12) (m := mon % 12 + 1) (by omega) (by omega)
  unfold utcSeconds
  omega

/-- `n` years that bring `s` seconds into the first decades after 1970, whatever day they begin on. -/
theorem year_window {s k n days : ℤ} (hk : k = s / 86400) (hn : n = 400 * (5000 - k) / 146097)
    (hlow : 146097 * n - 400 * 400 ≤ 400 * days) (hhigh : 400 * days ≤ 146097 * n + 400 * 400) :
    1000 * 86400 ≤ days * 86400 + s ∧ days * 86400 + s < 9000 * 86400 := by
  have hday : 86400 * k ≤ s ∧ s < 86400 * k + 86400 := by omega
  have hera : 146097 * n ≤ 400 * (5000 - k) ∧ 400 * (5000 - k) < 146097 * n + 146097 := by omega
  clear hk hn
  have hsum : 4000 ≤ days + k ∧ days + k ≤ 6000 := by omega
  clear hera hlow hhigh
  omega

/-- Any number of months, days and seconds, counted from some year, lies there. -/
theorem exists_utcSeconds (mon : ℤ) {d hh mm ss k n : ℤ}
    (hk : k = ((d - 1) * 86400 + hh * 3600 + mm * 60 + ss) / 86400)
    (hn : n = 400 * (5000 - k) / 146097) :
    1000 * 86400 ≤ utcSeconds (1970 + n - mon / 12) mon d hh mm ss ∧
      utcSeconds (1970 + n - mon / 12) mon d hh mm ss < 9000 * 86400 := by
  have hyear : 1970 + n - mon / 12 + mon / 12 = 1970 + n := Int.sub_add_cancel _ _
  have hnear := daysFromCivil_near (y := 1970 + n) (m := mon % 12 + 1) (by omega) (by omega)
  have hcancel : 1970 + n - 1970 = n := by omega
  rw [hcancel] at hnear
  have hsum : utcSeconds (1970 + n - mon / 12) mon d hh mm ss =
      daysFromCivil (1970 + n) (mon % 12 + 1) 1 * 86400 +
        ((d - 1) * 86400 + hh * 3600 + mm * 60 + ss) := by
    unfold utcSeconds
    rw [hyear]
    omega
  rw [hsum]
  exact year_window hk hn hnear.1 hnear.2

example : daysFromCivil 1970 1 1 = 0 ∧ daysFromCivil 2008 12 8 = 14221 ∧
    civilFromDays 14221 = (2008, 12, 8) ∧ civilFromDays (-1) = (1969, 12, 31) := by decide

end Schemes
