import AcqBoard.Gps.Fixes

/-! The two records of the time.

    `gps_gprmc` fills `gps_data.tm_time`, which is sent to the PC, and the static `tm_time`, which
    `mktime` brings into its ranges. The first keeps the month as it was scanned, from 1, and the year
    in full, while `struct MyTm` documents months from 0 and years from 1900. Where no date is read the
    year is what the stack held, and the static record is a month behind what it was. A frame that ends
    in front of its date may still read one: `cmd_list[9]` is then an entry of an earlier frame. -/

namespace AcqBoard.Gps
open Schemes

/-- The year, the month and the day that a record denotes in the encoding of `struct MyTm`, if its
    month and its day are in their ranges. -/
def Tm.date? (t : Tm) : Option (ℤ × ℤ × ℤ) :=
  if 0 ≤ t.mon.toInt ∧ t.mon.toInt ≤ 11 ∧ 1 ≤ t.mday.toInt ∧ t.mday.toInt ≤ 31 then
    some (1900 + t.year.toInt, t.mon.toInt + 1, t.mday.toInt)
  else none

/-- Two records denote the same instant, both in that encoding. -/
def SameInstant (a b : Tm) : Prop := a.date? ≠ none ∧ b.date? ≠ none ∧ a.seconds = b.seconds

/-- A frame with six digits of time and of date and a speed. -/
def Dated (f : FrameText) : Prop :=
  9 < f.fields.length ∧ sixDigits (f.piece 1) = true ∧ f.piece 7 ≠ [] ∧ sixDigits (f.piece 9) = true

/-- A frame without a date: the field is empty, or the frame ends in front of it. -/
def Undated (f : FrameText) : Prop := f.piece 9 = []

/-- A frame carries a date. -/
def Carries (f : FrameText) (date : ℤ × ℤ × ℤ) : Prop :=
  9 < f.fields.length ∧ sixDigits (f.piece 9) = true ∧
    date = (2000 + ((pairs (f.piece 9)).2.2 : ℤ), ((pairs (f.piece 9)).2.1 : ℤ),
      ((pairs (f.piece 9)).1 : ℤ))

/-- `proc_gps` on one frame. -/
def recordStep (g : Receiver) (e : NmeaFrame × Env) : Except Fault Receiver := do
  let r ← procGps g (e.1.input e.2)
  pure r.1

/-- The law of the state `s` behind the frames `fs` and then `f`. -/
def RecordsLaw (fs : List NmeaFrame) (f : NmeaFrame) (s : Receiver) : Prop :=
  (Dated f.toFrameText → SameInstant s.gpsData.tmTime s.tmTime) ∧
    (Undated f.toFrameText → ∀ date,
      s.gpsData.tmTime.date? = some date ∨ s.tmTime.date? = some date →
        ∃ f' ∈ fs ++ [f], Carries f'.toFrameText date)

/-- The law of a sequence: it holds behind each of its frames, whatever the locals hold. -/
def RecordsKept (fs : List NmeaFrame) : Prop :=
  ∀ (es pre : List (NmeaFrame × Env)) (e : NmeaFrame × Env) (g s : Receiver),
    es.map Prod.fst = fs → pre ++ [e] <+: es → run recordStep Receiver.boot pre = .ok g →
    recordStep g e = .ok s → RecordsLaw (pre.map Prod.fst) e.1 s

/-! ### The condition -/

/-- The string that `gps_gprmc` finds at the entry `j` of `cmd_list`, which may be one of an earlier
    frame. -/
def found (g : Receiver) (f : FrameText) (j : ℕ) : List UInt8 :=
  match cutFrame (g.loaded f) with
  | .ok r => (r.1.field j).toOption.getD []
  | .error _ => []

/-- The date that `gps_gprmc` finds, if it finds a speed. -/
def dateFound (g : Receiver) (f : FrameText) : Option (List UInt8) :=
  if isDigit ((found g f 7).headD 0) then some (found g f 9) else none

/-- The numbers that are scanned of it. -/
def dateScanned (g : Receiver) (f : FrameText) : List Int32 :=
  ((dateFound g f).map (sscanf threePairs)).getD []

/-- The time of the frame, with what the static record holds of the fields that are not scanned. -/
def timeScanned (g : Receiver) (f : FrameText) : Tm :=
  g.tmTime.setTime (if isDigit ((f.piece 1).headD 0) then sscanf threePairs (f.piece 1) else [])

/-- The date of the second that a day, a month and a year of this century denote with a time. Where a
    `time_t` cannot hold the second it is the three numbers themselves. -/
def fallsOn (t : Tm) (d m y : ℤ) : Option (ℤ × ℤ × ℤ) :=
  let s := utcSeconds (2000 + y) (m - 1) d t.hour.toInt t.min.toInt t.sec.toInt
  if -2 ^ 31 ≤ s ∧ s < 2 ^ 31 then some (civilFromDays (s / 86400))
  else if 0 ≤ m - 1 ∧ m - 1 ≤ 11 ∧ 1 ≤ d ∧ d ≤ 31 then some (2000 + y, m, d) else none

/-- Three numbers of an earlier frame's text are scanned for the date. As they stand they are no month
    and day of the record for the PC, and the date they fall on is one of the frames'. -/
def Backed (fs : List NmeaFrame) (g : Receiver) (f : FrameText) : Prop :=
  ∃ d m y, dateScanned g f = [d, m, y] ∧
    ¬ (0 ≤ m.toInt ∧ m.toInt ≤ 11 ∧ 1 ≤ d.toInt ∧ d.toInt ≤ 31) ∧
    ∀ date ∈ fallsOn (timeScanned g f) d.toInt m.toInt y.toInt,
      ∃ f' ∈ fs, Carries f'.toFrameText date

/-- The condition before a frame. -/
def FrameMeets (fs : List NmeaFrame) (g : Receiver) (f : NmeaFrame) : Prop :=
  ¬ Dated f.toFrameText ∧ (Undated f.toFrameText → Backed (fs ++ [f]) g f.toFrameText)

/-- The condition of a sequence: it holds before each of its frames, whatever the locals held. -/
def FramesMeet (fs : List NmeaFrame) : Prop :=
  ∀ (es pre : List (NmeaFrame × Env)) (e : NmeaFrame × Env) (g s : Receiver),
    es.map Prod.fst = fs → pre ++ [e] <+: es → run recordStep Receiver.boot pre = .ok g →
    recordStep g e = .ok s → FrameMeets (pre.map Prod.fst) g e.1

/-! ### The records behind a frame -/

/-- What `gps_gprmc` leaves in the records. -/
theorem gpsGprmc_records {g : Receiver} {x : Env} {r : Receiver × List Int32}
    {time speed : List UInt8} {date : Option (List UInt8)}
    (h₀ : g.field 0 = .ok (ascii "$GPRMC")) (h₁ : g.field 1 = .ok time)
    (h₇ : g.field 7 = .ok speed) (hdate : gprmcDate g speed = .ok date)
    (hok : gpsGprmc g x = .ok r) :
    r.1.gpsData.tmTime = (gprmcClock g x time date).1.gpsData.tmTime ∧
      r.1.tmTime = (gprmcClock g x time date).1.tmTime := by
  rw [gpsGprmc, h₀] at hok
  simp only [bind, Except.bind, ne_eq, not_true_eq_false, if_false, h₁, h₇, hdate] at hok
  obtain ⟨latitude, -, hok⟩ := bind_eq_ok.mp hok
  obtain ⟨longitude, -, hok⟩ := bind_eq_ok.mp hok
  obtain ⟨ns, -, hok⟩ := bind_eq_ok.mp hok
  obtain ⟨ew, -, hok⟩ := bind_eq_ok.mp hok
  obtain ⟨status, -, hok⟩ := bind_eq_ok.mp hok
  rw [← pure_eq_ok.mp hok]
  exact ⟨rfl, rfl⟩

/-- The fields of a frame are found as they are. -/
theorem found_of_lt {g h : Receiver} {f : FrameText} {b : Bool}
    (hcut : cutFrame (g.loaded f) = .ok (h, b)) {j : ℕ} {t : List UInt8} (ht : h.field j = .ok t) :
    found g f j = t := by
  rw [found, hcut]
  dsimp only
  rw [ht]
  rfl

/-- The two records behind a frame, as `gprmcClock` makes them of the static one and of the strings it
    finds. -/
theorem records_of_frame {g s : Receiver} {e : NmeaFrame × Env}
    (hh : e.1.fields[0]? = some (ascii "$GPRMC")) (hok : recordStep g e = .ok s) :
    ∃ h, h.tmTime = g.tmTime ∧
      s.gpsData.tmTime =
        (gprmcClock h e.2 (e.1.piece 1) (dateFound g e.1.toFrameText)).1.gpsData.tmTime ∧
      s.tmTime = (gprmcClock h e.2 (e.1.piece 1) (dateFound g e.1.toFrameText)).1.tmTime ∧
      ∀ j, j < e.1.fields.length → found g e.1.toFrameText j = e.1.piece j := by
  obtain ⟨r, hr, hs⟩ := bind_eq_ok.mp hok
  obtain rfl := pure_eq_ok.mp hs
  obtain ⟨h, k, hfield, hhead, -, htime, hk, hdata, hstatic, -, hlong, -, -, hcut⟩ :=
    gprmc_of_frame hh hr
  have h₀ := hfield 0 (by omega)
  rw [hhead] at h₀
  rcases gpsGprmc_cases hk with ⟨header, hheader, hne, -⟩ | ⟨-, time, speed, date, h₁, h₇, hdate, -⟩
  · exact absurd (Except.ok.inj (hheader.symm.trans h₀)) hne
  obtain rfl := Except.ok.inj ((hfield 1 hlong).symm.trans h₁)
  have hspeed := found_of_lt hcut h₇
  have hfound : dateFound g e.1.toFrameText = date := by
    rw [dateFound, hspeed]
    rw [gprmcDate] at hdate
    split at hdate
    · rename_i hdigit
      obtain ⟨t, h₉, hdate⟩ := bind_eq_ok.mp hdate
      rw [if_pos hdigit, found_of_lt hcut h₉]
      exact pure_eq_ok.mp hdate
    · rename_i hdigit
      rw [if_neg hdigit]
      exact pure_eq_ok.mp hdate
  obtain ⟨hown, hmade⟩ := gpsGprmc_records h₀ h₁ h₇ hdate hk
  refine ⟨h, htime, ?_, ?_, fun j hj => found_of_lt hcut (hfield j hj)⟩
  · rw [hdata, hown, hfound]
  · rw [hstatic, hmade, hfound]

theorem gprmcClock_static (g : Receiver) (x : Env) (time : List UInt8) (date : Option (List UInt8)) :
    (gprmcClock g x time date).1.tmTime = (mktime (gprmcTm g x.year time date)).2 := by
  unfold gprmcClock gprmcTm
  rfl

theorem gprmcTm_congr {g h : Receiver} (heq : h.tmTime = g.tmTime) (year : Int32)
    (time : List UInt8) (date : Option (List UInt8)) :
    gprmcTm h year time date = gprmcTm g year time date := by
  rw [gprmcTm, heq]
  rfl

/-! ### Without a date -/

/-- The record for the PC, as the numbers scanned of a date leave it. -/
theorem own_fields (g : Receiver) (x : Env) (time : List UInt8) (date : Option (List UInt8)) :
    let ds := (date.map (sscanf threePairs)).getD []
    let t := (gprmcClock g x time date).1.gpsData.tmTime
    t.mday = ds.getD 0 0 ∧ t.mon = ds.getD 1 0 ∧ t.year = ds.getD 2 x.year + 2000 := by
  unfold gprmcClock
  exact ⟨rfl, rfl, rfl⟩

/-- Where nothing is scanned of a date, the record for the PC has no day. -/
theorem own_undated {g : Receiver} {x : Env} {time : List UInt8} {date : Option (List UInt8)}
    (hd : (date.map (sscanf threePairs)).getD [] = []) :
    (gprmcClock g x time date).1.gpsData.tmTime.date? = none := by
  have hday := (own_fields g x time date).1
  rw [hd, List.getD_nil] at hday
  have hzero : (0 : Int32).toInt = 0 := rfl
  rw [Tm.date?, hday, hzero, if_neg (by omega)]

theorem int32_bounds (x : Int32) : -2147483648 ≤ x.toInt ∧ x.toInt < 2147483648 :=
  ⟨x.le_toInt, x.toInt_lt⟩

/-- In some year a record denotes a second of the first decades after 1970. -/
theorem exists_year (t : Tm) : ∃ v : Int32, 1000 * 86400 ≤ ({ t with year := v } : Tm).seconds ∧
    ({ t with year := v } : Tm).seconds < 9000 * 86400 := by
  obtain ⟨k, hk⟩ : ∃ k, k = ((t.mday.toInt - 1) * 86400 + t.hour.toInt * 3600 + t.min.toInt * 60 +
    t.sec.toInt) / 86400 := ⟨_, rfl⟩
  obtain ⟨n, hn⟩ : ∃ n, n = 400 * (5000 - k) / 146097 := ⟨_, rfl⟩
  have hwin := exists_utcSeconds t.mon.toInt hk hn
  have hmon := int32_bounds t.mon
  have hsmall : -9000000 ≤ n ∧ n ≤ 9000000 := by
    have hday := int32_bounds t.mday
    have hhour := int32_bounds t.hour
    have hmin := int32_bounds t.min
    have hsec := int32_bounds t.sec
    have hbound : -3000000000 ≤ k ∧ k ≤ 3000000000 := by
      clear hn hwin hmon
      omega
    clear hwin hk hmon hday hhour hmin hsec
    omega
  clear hk hn
  have hv : (Int32.ofInt (70 + n - t.mon.toInt / 12)).toInt = 70 + n - t.mon.toInt / 12 := by
    rw [Int32.toInt_ofInt_of_le] <;> omega
  have hy : 1900 + (70 + n - t.mon.toInt / 12) = 1970 + n - t.mon.toInt / 12 := by omega
  refine ⟨Int32.ofInt (70 + n - t.mon.toInt / 12), ?_⟩
  unfold Tm.seconds
  dsimp only
  rw [hv, hy]
  exact hwin

/-- The fields of a second that `mktime` accepts. -/
theorem gmtime_fields {s : ℤ} (h₀ : -2 ^ 31 ≤ s) (h₁ : s < 2 ^ 31) :
    (gmtime s).year.toInt = (civilFromDays (s / 86400)).1 - 1900 ∧
      (gmtime s).mon.toInt = (civilFromDays (s / 86400)).2.1 - 1 ∧
      (gmtime s).mday.toInt = (civilFromDays (s / 86400)).2.2 ∧
      (gmtime s).hour.toInt = s / 3600 % 24 ∧ (gmtime s).min.toInt = s / 60 % 60 ∧
      (gmtime s).sec.toInt = s % 60 := by
  obtain ⟨hm₀, hm₁, hd₀, hd₁⟩ := civilFromDays_range (s / 86400)
  obtain ⟨hy₀, hy₁⟩ := civilFromDays_year (s / 86400)
  refine ⟨?_, ?_, ?_, ?_, ?_, ?_⟩
  all_goals
    refine Int32.toInt_ofInt_of_le ?_ ?_ <;> omega

/-- Such a second is one of a date before 2000. -/
theorem gmtime_date {s : ℤ} (h₀ : 1000 * 86400 ≤ s) (h₁ : s < 9000 * 86400) :
    ∃ y m d, (gmtime s).date? = some (y, m, d) ∧ y < 2000 := by
  obtain ⟨hm₀, hm₁, hd₀, hd₁⟩ := civilFromDays_range (s / 86400)
  obtain ⟨hy₀, hy₁⟩ := civilFromDays_year (s / 86400)
  obtain ⟨hyear, hmon, hday, -⟩ := gmtime_fields (s := s) (by omega) (by omega)
  refine ⟨1900 + (gmtime s).year.toInt, (gmtime s).mon.toInt + 1, (gmtime s).mday.toInt, ?_, ?_⟩
  · rw [Tm.date?, if_pos (by omega)]
  · omega

/-- Where no year is scanned the static record denotes a date before 2000, if the local `year` holds
    the right number. -/
theorem exists_env_early {g s : Receiver} {f : NmeaFrame} {x : Env}
    (hh : f.fields[0]? = some (ascii "$GPRMC")) (hds : (dateScanned g f.toFrameText).length < 3)
    (hok : recordStep g (f, x) = .ok s) : ∃ x' s' y m d, recordStep g (f, x') = .ok s' ∧
      s'.tmTime.date? = some (y, m, d) ∧ y < 2000 := by
  obtain ⟨r, hr, -⟩ := bind_eq_ok.mp hok
  have hcomp := completes_of_procGps hr
  -- the record without its year
  obtain ⟨t, ht⟩ : ∃ t, t = gprmcTm g 0 (f.piece 1) (dateFound g f.toFrameText) := ⟨_, rfl⟩
  obtain ⟨v, hlow, hhigh⟩ := exists_year t
  have hyear : v + 1900 - 2000 + 2000 - 1900 = v := by
    rw [Int32.sub_add_cancel, Int32.add_sub_cancel]
  have hscanned : (dateScanned g f.toFrameText).getD 2 (v + 1900 - 2000) = v + 1900 - 2000 :=
    getD_garbage (by omega) _
  have htm : gprmcTm g (v + 1900 - 2000) (f.piece 1) (dateFound g f.toFrameText) =
      { t with year := v } := by
    rw [ht]
    unfold gprmcTm
    dsimp only
    rw [← dateScanned, hscanned, hyear]
  obtain ⟨r', hr'⟩ := procGps_returns ⟨0, v + 1900 - 2000, 0⟩ hcomp
  have hstep : recordStep g (f, ⟨0, v + 1900 - 2000, 0⟩) = .ok r'.1 :=
    bind_eq_ok.mpr ⟨r', hr', rfl⟩
  obtain ⟨h, htime, -, hstatic, -⟩ := records_of_frame hh hstep
  rw [gprmcClock_static, gprmcTm_congr htime, htm, mktime, if_pos (by omega)] at hstatic
  obtain ⟨y, m, d, hdate, hy⟩ := gmtime_date hlow hhigh
  exact ⟨_, _, y, m, d, hstep, (congrArg Tm.date? hstatic).trans hdate, hy⟩

/-! ### With the date of an earlier frame -/

/-- The numbers of `%02d` are small enough for what `gps_gprmc` adds to them. -/
theorem toInt_add_of_lt {v c : Int32} (hv : -100 < v.toInt ∧ v.toInt < 100)
    (hc : -3000 < c.toInt ∧ c.toInt < 3000) : (v + c).toInt = v.toInt + c.toInt := by
  rw [Int32.toInt_add, Int.bmod_eq_of_le] <;> omega

theorem dateScanned_bounds (g : Receiver) (f : FrameText) :
    (dateScanned g f).length ≤ 3 ∧ ∀ v ∈ dateScanned g f, -100 < v.toInt ∧ v.toInt < 100 := by
  unfold dateScanned
  cases dateFound g f with
  | none => exact ⟨Nat.zero_le _, fun _ hv => absurd hv List.not_mem_nil⟩
  | some s => exact sscanf_pairs (n := 3)

/-- The date of a record that `mktime` has seen. -/
theorem date_mktime (t : Tm) : (mktime t).2.date? =
    if -2 ^ 31 ≤ t.seconds ∧ t.seconds < 2 ^ 31 then some (civilFromDays (t.seconds / 86400))
    else t.date? := by
  rw [mktime]
  split
  · rename_i hin
    obtain ⟨hm₀, hm₁, hd₀, hd₁⟩ := civilFromDays_range (t.seconds / 86400)
    obtain ⟨hyear, hmon, hday, -⟩ := gmtime_fields hin.1 hin.2
    have hy : 1900 + (gmtime t.seconds).year.toInt = (civilFromDays (t.seconds / 86400)).1 := by omega
    have hm : (gmtime t.seconds).mon.toInt + 1 = (civilFromDays (t.seconds / 86400)).2.1 := by omega
    change (gmtime t.seconds).date? = _
    rw [Tm.date?, if_pos (by omega), hy, hm, hday]
  · rfl

/-- The two dates behind a frame for which three numbers are scanned. -/
theorem dates_of_three {g s : Receiver} {e : NmeaFrame × Env} {d m y : Int32}
    (hh : e.1.fields[0]? = some (ascii "$GPRMC")) (hok : recordStep g e = .ok s)
    (hds : dateScanned g e.1.toFrameText = [d, m, y]) :
    s.gpsData.tmTime.date? =
        (if 0 ≤ m.toInt ∧ m.toInt ≤ 11 ∧ 1 ≤ d.toInt ∧ d.toInt ≤ 31 then
          some (3900 + y.toInt, m.toInt + 1, d.toInt) else none) ∧
      s.tmTime.date? = fallsOn (timeScanned g e.1.toFrameText) d.toInt m.toInt y.toInt := by
  obtain ⟨-, hbound⟩ := dateScanned_bounds g e.1.toFrameText
  rw [hds] at hbound
  have hm := hbound m (by simp)
  have hy := hbound y (by simp)
  obtain ⟨h, htime, hown, hstatic, -⟩ := records_of_frame hh hok
  refine ⟨?_, ?_⟩
  · obtain ⟨hday, hmon, hyear⟩ := own_fields h e.2 (e.1.piece 1) (dateFound g e.1.toFrameText)
    rw [← dateScanned, hds] at hday hmon hyear
    have hfull : y.toInt + 2000 = (y + 2000).toInt :=
      (toInt_add_of_lt (c := 2000) hy (by decide)).symm
    have hlate : 1900 + (y + 2000).toInt = 3900 + y.toInt := by omega
    rw [hown, Tm.date?, hday, hmon, hyear]
    change (if _ then some (1900 + (y + 2000).toInt, m.toInt + 1, d.toInt) else none) = _
    rw [hlate]
    rfl
  · have htm : gprmcTm g e.2.year (e.1.piece 1) (dateFound g e.1.toFrameText) =
        { timeScanned g e.1.toFrameText with mday := d, mon := m - 1, year := y + 2000 - 1900 } := by
      unfold gprmcTm
      dsimp only
      rw [← dateScanned, hds]
      rfl
    have hmon : (m - 1).toInt = m.toInt - 1 := by
      rw [Int32.sub_eq_add_neg]
      exact toInt_add_of_lt hm (by decide)
    have hyear : (y + 2000 - 1900).toInt = y.toInt + 100 := by
      rw [Int32.sub_eq_add_neg, Int32.add_assoc]
      exact toInt_add_of_lt hy (by decide)
    have hcentury : 1900 + (y.toInt + 100) = 2000 + y.toInt := by omega
    have hmonth : m.toInt - 1 + 1 = m.toInt := by omega
    rw [hstatic, gprmcClock_static, gprmcTm_congr htime, htm, date_mktime, Tm.date?, Tm.seconds]
    dsimp only
    rw [hmon, hyear, hcentury, hmonth]
    rfl

/-! ### With a date -/

/-- The record for the PC denotes an instant of the fourth millennium. -/
theorem own_late {g : Receiver} {x : Env} {time date : List UInt8} (ht : sixDigits time = true)
    (hd : sixDigits date = true) :
    60000000000 ≤ (gprmcClock g x time (some date)).1.gpsData.tmTime.seconds := by
  have hown : (gprmcClock g x time (some date)).1.gpsData.tmTime =
      ⟨Int32.ofInt (pairs time).2.2, Int32.ofInt (pairs time).2.1, Int32.ofInt (pairs time).1,
        Int32.ofInt (pairs date).1, Int32.ofInt (pairs date).2.1,
        Int32.ofInt (pairs date).2.2 + 2000⟩ := by
    simp only [gprmcClock, headD_sixDigits ht, if_true, sscanf_sixDigits ht, Option.map_some,
      sscanf_sixDigits hd, Option.getD_some]
    rfl
  obtain ⟨ht₁, ht₂, ht₃⟩ := pairs_le ht
  obtain ⟨hd₁, hd₂, hd₃⟩ := pairs_le hd
  have hyear : (Int32.ofInt (pairs date).2.2 + 2000).toInt = (pairs date).2.2 + 2000 := by
    rw [Int32.toInt_add, toInt_ofNat hd₃]
    change Int.bmod ((pairs date).2.2 + 2000) (2 ^ 32) = _
    rw [Int.bmod_eq_of_le] <;> omega
  rw [hown]
  unfold Tm.seconds
  dsimp only
  rw [toInt_ofNat ht₁, toInt_ofNat ht₂, toInt_ofNat ht₃, toInt_ofNat hd₁, toInt_ofNat hd₂, hyear]
  refine Int.le_trans ?_ (utcSeconds_ge (by omega))
  omega

theorem gmtime_early {s : ℤ} (h₀ : -2 ^ 31 ≤ s) (h₁ : s < 2 ^ 31) :
    (gmtime s).seconds < 60000000000 := by
  obtain ⟨hm₀, hm₁, hd₀, hd₁⟩ := civilFromDays_range (s / 86400)
  obtain ⟨hy₀, hy₁⟩ := civilFromDays_year (s / 86400)
  obtain ⟨hyear, hmon, hday, hhour, hmin, hsec⟩ := gmtime_fields h₀ h₁
  have hle := utcSeconds_le (1900 + (gmtime s).year.toInt) (gmtime s).mon.toInt
    (gmtime s).mday.toInt (gmtime s).hour.toInt (gmtime s).min.toInt (gmtime s).sec.toInt
  have hzero : (gmtime s).mon.toInt / 12 = 0 := by omega
  rw [hzero] at hle
  unfold Tm.seconds
  omega

/-- The static record denotes one of the first two centuries after 1970. -/
theorem static_early (g : Receiver) (year : Int32) {time date : List UInt8}
    (ht : sixDigits time = true) (hd : sixDigits date = true) :
    (mktime (gprmcTm g year time (some date))).2.seconds < 60000000000 := by
  rw [mktime]
  split
  · rename_i hin
    exact gmtime_early hin.1 hin.2
  · obtain ⟨ht₁, ht₂, ht₃⟩ := pairs_le ht
    obtain ⟨hd₁, hd₂, hd₃⟩ := pairs_le hd
    change (gprmcTm g year time (some date)).seconds < _
    rw [gprmcTm_scanned ht hd]
    unfold utcOf
    have hle := utcSeconds_le (2000 + (pairs date).2.2) ((pairs date).2.1 - 1) (pairs date).1
      (pairs time).1 (pairs time).2.1 (pairs time).2.2
    omega

/-- Behind a dated frame the two records never denote the same instant. -/
theorem not_sameInstant {g s : Receiver} {e : NmeaFrame × Env}
    (hh : e.1.fields[0]? = some (ascii "$GPRMC")) (hd : Dated e.1.toFrameText)
    (hok : recordStep g e = .ok s) : ¬ SameInstant s.gpsData.tmTime s.tmTime := by
  obtain ⟨h9, htime, -, hdate⟩ := hd
  obtain ⟨h, -, hown, hstatic, hfound⟩ := records_of_frame hh hok
  rintro ⟨hday, -, hsec⟩
  rw [dateFound, hfound 7 (by omega), hfound 9 h9] at hown hstatic
  rw [hown] at hday hsec
  rw [hstatic, gprmcClock_static] at hsec
  by_cases hspeed : isDigit ((e.1.piece 7).headD 0) = true
  · rw [if_pos hspeed] at hsec
    have hlate := own_late (g := h) (x := e.2) htime hdate
    have hearly := static_early h e.2.year htime hdate
    omega
  · rw [if_neg hspeed] at hday
    exact hday (own_undated rfl)

/-! ### One frame -/

/-- The dates that frames carry are of the years from 2000 to 2099. -/
theorem year_of_carries {f : FrameText} {y m d : ℤ} (h : Carries f (y, m, d)) :
    2000 ≤ y ∧ y ≤ 2099 := by
  obtain ⟨-, hdigits, hdate⟩ := h
  have hle := (pairs_le hdigits).2.2
  rw [(Prod.mk.inj hdate).1]
  omega

/-- The law holds behind a frame, whatever its locals hold, exactly under the condition before it. -/
theorem law_iff_meets {fs : List NmeaFrame} {g s : Receiver} {f : NmeaFrame} {x : Env}
    (hh : f.fields[0]? = some (ascii "$GPRMC")) (hok : recordStep g (f, x) = .ok s) :
    (∀ x' s', recordStep g (f, x') = .ok s' → RecordsLaw fs f s') ↔ FrameMeets fs g f := by
  constructor
  · intro hlaw
    refine ⟨?_, ?_⟩
    · intro hdated
      exact not_sameInstant (e := (f, x)) hh hdated hok ((hlaw x s hok).1 hdated)
    · intro hundated
      obtain ⟨hlen, hbound⟩ := dateScanned_bounds g f.toFrameText
      match hds : dateScanned g f.toFrameText with
      | [d, m, y] =>
        obtain ⟨hown, hstatic⟩ := dates_of_three (e := (f, x)) hh hok hds
        have hy := hbound y (by rw [hds]; simp)
        refine ⟨d, m, y, hds, ?_, ?_⟩
        · intro hin
          rw [if_pos hin] at hown
          obtain ⟨f', -, hcarries⟩ := (hlaw x s hok).2 hundated _ (Or.inl hown)
          have := (year_of_carries hcarries).2
          omega
        · intro date hdate
          exact (hlaw x s hok).2 hundated date (Or.inr (hstatic.trans hdate))
      | [] | [_] | [_, _] =>
        -- the stack may hold a year that no frame carries
        obtain ⟨x', s', y, m, d, hok', hdate, hy⟩ :=
          exists_env_early hh (by rw [hds]; simp) hok
        obtain ⟨f', -, hcarries⟩ := (hlaw x' s' hok').2 hundated (y, m, d) (Or.inr hdate)
        have := (year_of_carries hcarries).1
        omega
      | _ :: _ :: _ :: _ :: ds =>
        rw [hds] at hlen
        simp only [List.length_cons] at hlen
        omega
  · rintro ⟨hplain, hbacked⟩ x' s' hok'
    refine ⟨fun hdated => absurd hdated hplain, ?_⟩
    intro hundated date hdate
    obtain ⟨d, m, y, hds, hnone, hcarried⟩ := hbacked hundated
    obtain ⟨hown, hstatic⟩ := dates_of_three (e := (f, x')) hh hok' hds
    rw [if_neg hnone] at hown
    rcases hdate with hdate | hdate
    · rw [hown] at hdate
      cases hdate
    · exact hcarried date (hstatic.symm.trans hdate)

/-! ### Sequences of frames -/

/-- CORRECT: for every sequence of accepted `$GPRMC` frames the two records are as the law says behind
    each frame if and only if no frame has time, date and speed, and before each frame without a date
    the numbers scanned at `cmd_list[9]` are those of an earlier frame and denote no new date. -/
theorem records_iff {fs : List NmeaFrame}
    (hh : ∀ f ∈ fs, f.fields[0]? = some (ascii "$GPRMC")) : RecordsKept fs ↔ FramesMeet fs := by
  have hheader : ∀ {es pre : List (NmeaFrame × Env)} {e : NmeaFrame × Env},
      es.map Prod.fst = fs → pre ++ [e] <+: es → e.1.fields[0]? = some (ascii "$GPRMC") := by
    intro es pre e hmap hsegment
    refine hh e.1 ?_
    rw [← hmap]
    exact List.mem_map_of_mem (hsegment.subset (by simp))
  constructor
  · intro hkept es pre e g s hmap hsegment hpre hok
    refine (law_iff_meets (x := e.2) (hheader hmap hsegment) hok).mp ?_
    intro x' s' hok'
    obtain ⟨post, rfl⟩ := hsegment
    have hmap' : (pre ++ (e.1, x') :: post).map Prod.fst = fs := by
      rw [← hmap]
      simp
    exact hkept _ pre (e.1, x') g s' hmap' ⟨post, by simp⟩ hpre hok'
  · intro hmeets es pre e g s hmap hsegment hpre hok
    have hmeet := hmeets es pre e g s hmap hsegment hpre hok
    exact (law_iff_meets (x := e.2) (hheader hmap hsegment) hok).mpr hmeet e.2 s hok

/-! ### A date that is still there -/

/-- A frame that ends behind its speed. -/
def shortFrame : NmeaFrame where
  body := ascii "GPRMC,055858,V,,,,,0.0*1A"
  fits := by decide
  plain := plain_of_all (by decide)
  asterisk := by decide
  valid := by decide

/-- The state in which the handlers find a first frame. -/
def firstCut (f : FrameText) : Receiver :=
  match cutFrame (Receiver.boot.loaded f) with
  | .ok r => r.1
  | .error _ => Receiver.boot

theorem gpsGprmc_buffer {g : Receiver} {x : Env} {r : Receiver × List Int32}
    (hok : gpsGprmc g x = .ok r) : r.1.sbuff = g.sbuff ∧ r.1.cmdList = g.cmdList := by
  obtain ⟨header, -, hok⟩ := bind_eq_ok.mp hok
  split at hok
  · rw [← pure_eq_ok.mp hok]
    exact ⟨rfl, rfl⟩
  · obtain ⟨time, -, hok⟩ := bind_eq_ok.mp hok
    obtain ⟨speed, -, hok⟩ := bind_eq_ok.mp hok
    obtain ⟨date, -, hok⟩ := bind_eq_ok.mp hok
    obtain ⟨latitude, -, hok⟩ := bind_eq_ok.mp hok
    obtain ⟨longitude, -, hok⟩ := bind_eq_ok.mp hok
    obtain ⟨ns, -, hok⟩ := bind_eq_ok.mp hok
    obtain ⟨ew, -, hok⟩ := bind_eq_ok.mp hok
    obtain ⟨status, -, hok⟩ := bind_eq_ok.mp hok
    rw [← pure_eq_ok.mp hok]
    exact ⟨rfl, rfl⟩

/-- Behind a first frame the buffer and the entries are as its handlers found them. -/
theorem firstCut_of_step {s : Receiver} {e : NmeaFrame × Env}
    (hh : e.1.fields[0]? = some (ascii "$GPRMC")) (hok : recordStep Receiver.boot e = .ok s) :
    s.sbuff = (firstCut e.1.toFrameText).sbuff ∧ s.cmdList = (firstCut e.1.toFrameText).cmdList := by
  obtain ⟨r, hr, hs⟩ := bind_eq_ok.mp hok
  obtain rfl := pure_eq_ok.mp hs
  obtain ⟨h, k, -, -, -, -, hk, -, -, -, -, hbuff, hlist, hcut⟩ := gprmc_of_frame hh hr
  obtain ⟨hkbuff, hklist⟩ := gpsGprmc_buffer hk
  have hfirst : firstCut e.1.toFrameText = h := by rw [firstCut, hcut]
  rw [hfirst, hbuff, hlist]
  exact ⟨hkbuff, hklist⟩

/-- What is found depends on the buffer and the entries alone. -/
theorem found_congr {g g' : Receiver} (hbuff : g.sbuff = g'.sbuff) (hlist : g.cmdList = g'.cmdList)
    (f : FrameText) (j : ℕ) : found g f j = found g' f j := by
  have hloop : cmdLoop (g.loaded f).sbuff (g.loaded f).cmdList 0 0 64 =
      cmdLoop (g'.loaded f).sbuff (g'.loaded f).cmdList 0 0 64 := by
    unfold Receiver.loaded Receiver.collected
    rw [hbuff, hlist]
  unfold found cutFrame
  rw [hloop]
  cases cmdLoop (g'.loaded f).sbuff (g'.loaded f).cmdList 0 0 64 with
  | error e => rfl
  | ok c =>
    simp only [bind, Except.bind]
    cases c.sbuff.strchr (byte '*') c.ptr1 with
    | none => rfl
    | some p =>
      by_cases hi : c.i = 0
      · simp only [if_pos hi]
        rfl
      · simp only [if_neg hi]
        rfl

/-- A frame with date and speed and without a time, and a short one behind it: the date that is read
    again is the one of the first. -/
theorem records_kept_short : RecordsKept [fixedFrame.toNmeaFrame, shortFrame] := by
  refine (records_iff (List.forall_mem_cons.mpr ⟨by decide,
    List.forall_mem_singleton.mpr (by decide)⟩)).mpr ?_
  intro es pre e g s hmap hsegment hpre _
  have hframes : pre.map Prod.fst ++ [e.1] <+: [fixedFrame.toNmeaFrame, shortFrame] := by
    rw [← hmap]
    simpa using hsegment.map Prod.fst
  match pre, hpre, hframes with
  | [], _, hframes =>
    obtain ⟨heq, -⟩ := List.cons_prefix_cons.mp hframes
    rw [heq]
    refine ⟨?_, ?_⟩
    · rintro ⟨-, htime, -⟩
      exact absurd htime (by decide)
    · intro hempty
      exact absurd hempty (by rw [Undated]; decide)
  | [⟨f, x⟩], hpre, hframes =>
    obtain ⟨hf, hframes⟩ := List.cons_prefix_cons.mp hframes
    obtain ⟨heq, -⟩ := List.cons_prefix_cons.mp hframes
    obtain rfl : f = fixedFrame.toNmeaFrame := hf
    obtain ⟨t, hstep, ht⟩ := run_cons_ok.mp hpre
    obtain rfl := Except.ok.inj ht
    obtain ⟨hbuff, hlist⟩ := firstCut_of_step fixedFrame.header hstep
    have hfound : ∀ j, found t shortFrame.toFrameText j =
        found (firstCut fixedFrame.toFrameText) shortFrame.toFrameText j :=
      found_congr hbuff hlist _
    rw [heq]
    refine ⟨?_, fun _ => ⟨8, 12, 8, ?_, by decide, ?_⟩⟩
    · rintro ⟨hlong, -⟩
      exact absurd hlong (by decide)
    · rw [dateScanned, dateFound, hfound, hfound]
      decide +kernel
    · intro date hdate
      refine ⟨fixedFrame.toNmeaFrame, by simp, by decide, by decide, ?_⟩
      have htime : timeScanned t shortFrame.toFrameText =
          { t.tmTime with hour := 5, min := 58, sec := 58 } := by
        rw [timeScanned, if_pos (by decide)]
        have hscan : sscanf threePairs (shortFrame.piece 1) = [5, 58, 58] := by decide
        rw [hscan]
        rfl
      have hfalls : fallsOn { t.tmTime with hour := 5, min := 58, sec := 58 } 8 12 8 =
          some (2008, 12, 8) := by
        unfold fallsOn
        dsimp only
        decide
      rw [htime] at hdate
      exact (Option.some.inj (hfalls.symm.trans hdate)).symm.trans (by decide)
  | _ :: _ :: _, _, hframes =>
    have hlen := hframes.length_le
    simp only [List.length_map, List.length_cons, List.length_append, List.length_nil] at hlen
    omega

/-- A frame of ten fields alone is processed. -/
theorem exists_run {f : NmeaFrame} (hstar : byte '*' ∈ f.last) (hlow : 10 ≤ f.fields.length)
    (hhigh : f.fields.length ≤ 64) : ∃ s, recordStep Receiver.boot (f, benchEnv) = .ok s := by
  obtain ⟨r, hr⟩ := procGps_returns benchEnv
    (completes_of_ten Receiver.boot f.asterisk hstar hlow hhigh)
  exact ⟨r.1, bind_eq_ok.mpr ⟨r, hr, rfl⟩⟩

/-- A frame with a fix: the two records are some 1900 years apart. -/
theorem records_apart : ¬ ∀ fs : List NmeaFrame, (∀ f ∈ fs, f.fields[0]? = some (ascii "$GPRMC")) →
    RecordsKept fs := by
  intro h
  obtain ⟨s, hs⟩ := exists_run (f := fixFrame) (by decide) (by decide) (by decide)
  have hlaw := h [fixFrame] (List.forall_mem_singleton.mpr (by decide)) [(fixFrame, benchEnv)] []
    (fixFrame, benchEnv) Receiver.boot s rfl (List.prefix_refl _) rfl hs
  have hdated : Dated fixFrame.toFrameText := ⟨by decide, by decide, by decide, by decide⟩
  exact not_sameInstant (e := (fixFrame, benchEnv)) (by decide) hdated hs (hlaw.1 hdated)

end AcqBoard.Gps
