import AcqBoard.Gps.Complete
import AcqBoard.Schemes.Word
import Mathlib.Algebra.Order.Group.Abs
import Mathlib.Algebra.Order.Group.Int

/-! Which frames set the system clock, and to what.

    `gps_gprmc` reads the date only if the speed begins with a digit, keeps what the static record
    holds of the fields it does not read, and looks at the status after it has set the clock. Where
    every frame has a time, a speed, a date and the status `A`, each call of `settimeofday` sets the
    second that the frame itself denotes. Every other `$GPRMC` frame sets some clock to a second of
    its own making. -/

namespace AcqBoard.Gps
open Schemes

/-- A frame whose checksum is right. -/
structure NmeaFrame extends FrameText where
  asterisk : byte '*' ∈ toFrameText.text
  valid : checksumOk toFrameText.text = true

/-- The receiver, and the calls of `settimeofday` so far: the frame in process and the second. -/
structure Clocked where
  rx : Receiver
  sets : List (NmeaFrame × Int32)

/-- `proc_gps` on one frame. -/
def clockStep (c : Clocked) (e : NmeaFrame × Env) : Except Fault Clocked := do
  let r ← procGps c.rx (e.1.input e.2)
  pure ⟨r.1, c.sets ++ r.2.map fun tmg => (e.1, tmg)⟩

/-- The UTC second that `hhmmss` and `ddmmyy` denote. -/
def utcOf (time date : List UInt8) : ℤ :=
  utcSeconds (2000 + (pairs date).2.2) ((pairs date).2.1 - 1) (pairs date).1 (pairs time).1
    (pairs time).2.1 (pairs time).2.2

/-- The law: the clock is set in a `$GPRMC` frame with the status `A` whose time and date begin with
    six digits, to the second they denote. -/
def Lawful (f : FrameText) (tmg : Int32) : Prop :=
  f.fields[0]? = some (ascii "$GPRMC") ∧ f.fields[2]? = some (ascii "A") ∧
    ∃ time date, f.fields[1]? = some time ∧ f.fields[9]? = some date ∧
      sixDigits time = true ∧ sixDigits date = true ∧ tmg.toInt = utcOf time date

/-- The condition: a `$GPRMC` frame has the status `A`, a time and a date of six digits that denote a
    second below `2^31`, and a speed. -/
def FixedFrame (f : FrameText) : Prop :=
  f.fields[0]? = some (ascii "$GPRMC") → f.fields[2]? = some (ascii "A") ∧
    ∃ time speed date, f.fields[1]? = some time ∧ f.fields[7]? = some speed ∧
      f.fields[9]? = some date ∧ sixDigits time = true ∧ isDigit (speed.headD 0) = true ∧
      sixDigits date = true ∧ utcOf time date < 2 ^ 31

/-! ### `gps_gprmc` -/

/-- What `gps_gprmc` does with the clock; which entries it reads does not depend on the clock. -/
theorem gpsGprmc_cases {g : Receiver} {x : Env} {r : Receiver × List Int32}
    (hok : gpsGprmc g x = .ok r) :
    (∃ header, g.field 0 = .ok header ∧ header ≠ ascii "$GPRMC" ∧ ∀ y, gpsGprmc g y = .ok (g, [])) ∨
    (g.field 0 = .ok (ascii "$GPRMC") ∧ ∃ time speed date, g.field 1 = .ok time ∧
      g.field 7 = .ok speed ∧ gprmcDate g speed = .ok date ∧
      ∀ y, ∃ g', gpsGprmc g y = .ok (g', (gprmcClock g y time date).2)) := by
  obtain ⟨header, h₀, hok⟩ := bind_eq_ok.mp hok
  split at hok
  · rename_i hne
    refine Or.inl ⟨header, h₀, hne, ?_⟩
    intro y
    rw [gpsGprmc, h₀]
    simp only [bind, Except.bind, if_pos hne]
    rfl
  · rename_i heq
    rw [not_not.mp heq] at h₀
    obtain ⟨time, h₁, hok⟩ := bind_eq_ok.mp hok
    obtain ⟨speed, h₇, hok⟩ := bind_eq_ok.mp hok
    obtain ⟨date, h₉, hok⟩ := bind_eq_ok.mp hok
    obtain ⟨latitude, h₃, hok⟩ := bind_eq_ok.mp hok
    obtain ⟨longitude, h₅, hok⟩ := bind_eq_ok.mp hok
    obtain ⟨ns, h₄, hok⟩ := bind_eq_ok.mp hok
    obtain ⟨ew, h₆, hok⟩ := bind_eq_ok.mp hok
    obtain ⟨status, h₂, -⟩ := bind_eq_ok.mp hok
    refine Or.inr ⟨h₀, time, speed, date, h₁, h₇, h₉, ?_⟩
    intro y
    rw [gpsGprmc, h₀]
    simp only [bind, Except.bind, h₁, h₂, h₃, h₄, h₅, h₆, h₇, h₉]
    exact ⟨_, rfl⟩

/-- The record that `gps_gprmc` hands to `mktime`. -/
def gprmcTm (g : Receiver) (year : Int32) (time : List UInt8) (date : Option (List UInt8)) : Tm :=
  let ts := if isDigit (time.headD 0) then sscanf threePairs time else []
  let ds := (date.map (sscanf threePairs)).getD []
  let t := (g.tmTime.setTime ts).setDate ds
  { t with year := ds.getD 2 year + 2000 - 1900, mon := t.mon - 1 }

theorem gprmcClock_calls (g : Receiver) (x : Env) (time : List UInt8) (date : Option (List UInt8)) :
    (gprmcClock g x time date).2 =
      if x.now.toUInt32 &&& 0xffffffc0 ≠
        (mktime (gprmcTm g x.year time date)).1.toUInt32 &&& 0xffffffc0 then
        [(mktime (gprmcTm g x.year time date)).1] else [] := by
  unfold gprmcClock gprmcTm
  rfl

/-- Some clock is in another block of 64 seconds. -/
theorem exists_clock (tmg : Int32) :
    ∃ now : Int32, now.toUInt32 &&& 0xffffffc0 ≠ tmg.toUInt32 &&& 0xffffffc0 := by
  by_cases hz : tmg.toUInt32 &&& 0xffffffc0 = 0
  · exact ⟨64, by rw [hz]; decide⟩
  · exact ⟨0, fun h => hz (h.symm.trans (by decide))⟩

theorem toInt_ofNat {n : ℕ} (h : n ≤ 99) : (Int32.ofInt n).toInt = n := by
  rw [Int32.toInt_ofInt_of_le] <;> omega

/-- With six digits of time and of date the record holds these and nothing older. -/
theorem gprmcTm_scanned {g : Receiver} {year : Int32} {time date : List UInt8}
    (ht : sixDigits time = true) (hd : sixDigits date = true) :
    (gprmcTm g year time (some date)).seconds = utcOf time date := by
  have htm : gprmcTm g year time (some date) = ⟨Int32.ofInt (pairs time).2.2,
      Int32.ofInt (pairs time).2.1, Int32.ofInt (pairs time).1, Int32.ofInt (pairs date).1,
      Int32.ofInt (pairs date).2.1 - 1, Int32.ofInt (pairs date).2.2 + 2000 - 1900⟩ := by
    simp only [gprmcTm, headD_sixDigits ht, if_true, sscanf_sixDigits ht, Option.map_some,
      sscanf_sixDigits hd, Option.getD_some]
    rfl
  obtain ⟨ht₁, ht₂, ht₃⟩ := pairs_le ht
  obtain ⟨hd₁, hd₂, hd₃⟩ := pairs_le hd
  have hmon : (Int32.ofInt (pairs date).2.1 - 1).toInt = (pairs date).2.1 - 1 := by
    rw [Int32.toInt_sub, toInt_ofNat hd₂]
    change Int.bmod ((pairs date).2.1 - 1) (2 ^ 32) = _
    rw [Int.bmod_eq_of_le] <;> omega
  have hyear : (Int32.ofInt (pairs date).2.2 + 2000 - 1900).toInt = (pairs date).2.2 + 100 := by
    have hsum : (Int32.ofInt (pairs date).2.2 + 2000).toInt = (pairs date).2.2 + 2000 := by
      rw [Int32.toInt_add, toInt_ofNat hd₃]
      change Int.bmod ((pairs date).2.2 + 2000) (2 ^ 32) = _
      rw [Int.bmod_eq_of_le] <;> omega
    rw [Int32.toInt_sub, hsum]
    change Int.bmod ((pairs date).2.2 + 2000 - 1900) (2 ^ 32) = _
    rw [Int.bmod_eq_of_le] <;> omega
  have hfull : (1900 : ℤ) + ((pairs date).2.2 + 100) = 2000 + (pairs date).2.2 := by omega
  rw [htm]
  unfold Tm.seconds utcOf
  dsimp only
  rw [toInt_ofNat ht₁, toInt_ofNat ht₂, toInt_ofNat ht₃, toInt_ofNat hd₁, hmon, hyear, hfull]

/-- Two-digit years begin after 1970. -/
theorem utcOf_nonneg (time date : List UInt8) : 0 ≤ utcOf time date := by
  unfold utcOf
  refine Int.le_trans ?_ (utcSeconds_ge (by omega))
  omega

/-- With six digits of time and of date the second computed is the one they denote, if a `time_t`
    holds it. -/
theorem mktime_scanned {g : Receiver} {year : Int32} {time date : List UInt8}
    (ht : sixDigits time = true) (hd : sixDigits date = true) :
    (mktime (gprmcTm g year time (some date))).1.toInt = utcOf time date ↔
      utcOf time date < 2 ^ 31 := by
  have hnonneg := utcOf_nonneg time date
  rw [mktime, gprmcTm_scanned ht hd]
  split
  · rename_i hin
    refine iff_of_true ?_ hin.2
    rw [Int32.toInt_ofInt_of_le] <;> omega
  · rename_i hout
    refine iff_of_false ?_ (fun hlt => hout ⟨by omega, hlt⟩)
    intro h
    have hneg : (-1 : Int32).toInt = -1 := by decide
    rw [hneg] at h
    omega

/-- Where the date is not read, the local `year` decides. -/
theorem mktime_garbage (g : Receiver) (time : List UInt8) :
    (mktime (gprmcTm g 2000000000 time none)).1 = -1 := by
  have hyear : (2000000000 + 2000 - 1900 : Int32).toInt = 2000000100 := by decide
  have hlate : 2 ^ 31 ≤ (gprmcTm g 2000000000 time none).seconds := by
    have hbound : ∀ x : Int32, -2147483648 ≤ x.toInt ∧ x.toInt < 2147483648 :=
      fun x => ⟨x.le_toInt, x.toInt_lt⟩
    have hmon := hbound (gprmcTm g 2000000000 time none).mon
    have hday := hbound (gprmcTm g 2000000000 time none).mday
    have hhour := hbound (gprmcTm g 2000000000 time none).hour
    have hmin := hbound (gprmcTm g 2000000000 time none).min
    have hsec := hbound (gprmcTm g 2000000000 time none).sec
    have hy : (gprmcTm g 2000000000 time none).year.toInt = 2000000100 := hyear
    rw [Tm.seconds, hy]
    refine Int.le_trans ?_ (utcSeconds_ge (by omega))
    omega
  rw [mktime, if_neg (by omega)]

/-! ### The frame -/

/-- A piece with another one behind it is a field. -/
theorem piece_of_lt {f : FrameText} {j : ℕ} {t : List UInt8} (h : f.fields[j]? = some t)
    (hj : j + 1 < f.fields.length) : f.piece j = t := by
  rw [FrameText.piece, if_neg (by omega), List.getD_eq_getElem?_getD, h]
  rfl

/-- Cutting the last field keeps six digits at its head. -/
theorem sixDigits_piece {f : FrameText} {j : ℕ} {t : List UInt8} (h : f.fields[j]? = some t)
    (ht : sixDigits t = true) : sixDigits (f.piece j) = true ∧ pairs (f.piece j) = pairs t := by
  have hget : f.fields.getD j [] = t := by
    rw [List.getD_eq_getElem?_getD, h]
    rfl
  rw [FrameText.piece, hget]
  split
  · exact sixDigits_takeWhile (by decide) ht
  · exact ⟨ht, rfl⟩

theorem utcOf_piece {f : FrameText} {j : ℕ} {time date : List UInt8} (h : f.fields[j]? = some date)
    (hd : sixDigits date = true) : utcOf time (f.piece j) = utcOf time date := by
  rw [utcOf, (sixDigits_piece h hd).2]
  rfl

/-- A frame that is one piece has its asterisk in it, so it is no `$GPRMC` frame. -/
theorem header_of_single {f : FrameText} (hone : f.fields.length = 1) (hstar : byte '*' ∈ f.last) :
    f.fields[0]? ≠ some (ascii "$GPRMC") := by
  intro h
  rw [FrameText.last, hone, List.getD_eq_getElem?_getD, h] at hstar
  exact absurd hstar (by decide)

/-- A `$GPRMC` frame `f`, received in the state `g` and processed in the state `h`: what `gps_gprmc`
    reads, and the calls of `settimeofday`, which depend on the clock. -/
structure GprmcFrame (g : Receiver) (f : FrameText) (h : Receiver) (time speed : List UInt8)
    (date : Option (List UInt8)) : Prop where
  header : f.fields[0]? = some (ascii "$GPRMC")
  pieces : ∀ j, j < f.fields.length → h.field j = .ok (f.piece j)
  first : h.field 1 = .ok time
  seventh : h.field 7 = .ok speed
  ninth : gprmcDate h speed = .ok date
  calls : ∀ y, ∃ g', procGps g (f.input y) = .ok (g', (gprmcClock h y time date).2)

/-- A frame whose processing completes is a `$GPRMC` frame, or it calls `settimeofday` on no clock. -/
theorem calls_of_frame {g : Receiver} {x : Env} {f : FrameText} {r : Receiver × List Int32}
    (hok : procGps g (f.input x) = .ok r) :
    ((∀ y, ∃ g', procGps g (f.input y) = .ok (g', [])) ∧
      (checksumOk f.text = true → f.fields[0]? ≠ some (ascii "$GPRMC"))) ∨
    ∃ h time speed date, GprmcFrame g f h time speed date := by
  have hpos := f.fields_pos
  rw [procGps_input] at hok
  obtain ⟨wrong, hsum, hok⟩ := bind_eq_ok.mp hok
  have hframe : ∀ y, procGps g (f.input y) = (if wrong then
      pure ({ g.loaded f with sIndex := -1 }, []) else do
        let r ← gpsProcFrame (g.loaded f) y
        pure ({ r.1 with sIndex := -1 }, r.2)) := by
    intro y
    rw [procGps_input, frameEnd, hsum]
    rfl
  cases wrong with
  | true =>
    refine Or.inl ⟨fun y => ⟨_, hframe y⟩, ?_⟩
    intro hvalid
    rw [gpsChecksum_loaded] at hsum
    split at hsum <;> simp [hvalid] at hsum
  | false =>
    obtain ⟨r', hr, -⟩ := bind_eq_ok.mp hok
    obtain ⟨hn, hstar, -⟩ := gpsProcFrame_completes.mp ⟨_, hr⟩
    obtain ⟨h, hl, heq⟩ := (gpsProcFrame_loaded g f).2.2 hn hstar
    by_cases hone : f.fields.length = 1
    · refine Or.inl ⟨?_, fun _ => header_of_single hone hstar⟩
      intro y
      rw [hframe y, heq, if_pos hone]
      exact ⟨_, rfl⟩
    rw [heq, if_neg hone] at hr
    obtain ⟨h', hgga, hrmc⟩ := bind_eq_ok.mp hr
    obtain ⟨hbuff, hlist, -⟩ := gpsGpgga_ok hgga
    have hpieces : ∀ j, j < f.fields.length → h'.field j = .ok (f.piece j) := by
      intro j hj
      rw [Receiver.field, hlist, hbuff]
      exact hl.field hj
    have hrun : ∀ {y : Env} {s : Receiver × List Int32}, gpsGprmc h' y = .ok s →
        procGps g (f.input y) = .ok ({ s.1 with sIndex := -1 }, s.2) := by
      intro y s hs
      rw [hframe y, heq, if_neg hone, hgga]
      simp only [bind, Except.bind, hs]
      rfl
    have hhead : f.fields[0]? = some (f.piece 0) := by
      rw [piece_of_lt (f.fields_getElem? hpos) (by omega)]
      exact f.fields_getElem? hpos
    rcases gpsGprmc_cases hrmc with
      ⟨header, h₀, hne, hno⟩ | ⟨h₀, time, speed, date, h₁, h₇, h₉, hcalls⟩
    · refine Or.inl ⟨fun y => ⟨_, hrun (hno y)⟩, fun _ h => hne ?_⟩
      rw [hhead, Option.some.injEq] at h
      exact (Except.ok.inj ((hpieces 0 hpos).symm.trans h₀)).symm.trans h
    · refine Or.inr ⟨h', time, speed, date, ?_, hpieces, h₁, h₇, h₉, ?_⟩
      · rw [hhead, Except.ok.inj ((hpieces 0 hpos).symm.trans h₀)]
      · intro y
        obtain ⟨g', hg⟩ := hcalls y
        exact ⟨_, hrun (s := (g', _)) hg⟩

/-- What `gps_gprmc` reads of a frame with a date: time and speed are fields, the date is read from
    the last piece it needs exactly if the speed begins with a digit. -/
theorem GprmcFrame.reads {g h : Receiver} {f : FrameText} {time speed : List UInt8}
    {date : Option (List UInt8)} (hf : GprmcFrame g f h time speed date) (hn : 9 < f.fields.length) :
    f.fields[1]? = some time ∧ f.fields[7]? = some speed ∧
      date = if isDigit (speed.headD 0) then some (f.piece 9) else none := by
  have hfield : ∀ {j : ℕ} {t : List UInt8}, j + 1 < f.fields.length → h.field j = .ok t →
      f.fields[j]? = some t := by
    intro j t hj ht
    have hget := f.fields_getElem? (j := j) (by omega)
    rw [hf.pieces j (by omega), piece_of_lt hget hj] at ht
    rw [hget, Except.ok.inj ht]
  refine ⟨hfield (by omega) hf.first, hfield (by omega) hf.seventh, ?_⟩
  have hdate := hf.ninth
  rw [gprmcDate, hf.pieces 9 hn] at hdate
  split at hdate
  · rename_i hs
    rw [if_pos hs]
    exact (Except.ok.inj hdate).symm
  · rename_i hs
    rw [if_neg hs]
    exact (Except.ok.inj hdate).symm

/-- A frame that meets the condition sets the clock lawfully, from every state of the receiver. -/
theorem lawful_of_fixed {g g' : Receiver} {x : Env} {f : FrameText} {calls : List Int32}
    (hfix : FixedFrame f) (hok : procGps g (f.input x) = .ok (g', calls)) :
    ∀ tmg ∈ calls, Lawful f tmg := by
  rcases calls_of_frame hok with ⟨hno, -⟩ | ⟨h, time', speed', date', hf⟩
  · obtain ⟨g'', hno⟩ := hno x
    obtain ⟨-, rfl⟩ := Prod.mk.inj (Except.ok.inj (hok.symm.trans hno))
    simp
  obtain ⟨hstatus, time, speed, date, htime, hspeed, hdate, ht, hs, hd, hlt⟩ := hfix hf.header
  obtain ⟨h₁, h₇, h₉⟩ := hf.reads (List.getElem?_eq_some_iff.mp hdate).1
  obtain rfl := Option.some.inj (htime.symm.trans h₁)
  obtain rfl := Option.some.inj (hspeed.symm.trans h₇)
  rw [if_pos hs] at h₉
  obtain ⟨g'', hcalls⟩ := hf.calls x
  obtain ⟨-, rfl⟩ := Prod.mk.inj (Except.ok.inj (hok.symm.trans hcalls))
  have hd' := (sixDigits_piece hdate hd).1
  have hutc : utcOf time (f.piece 9) = utcOf time date := utcOf_piece hdate hd
  intro tmg hmem
  refine ⟨hf.header, hstatus, time, date, htime, hdate, ht, hd, ?_⟩
  rw [gprmcClock_calls, h₉] at hmem
  split at hmem
  · rw [List.mem_singleton.mp hmem, ← hutc]
    exact (mktime_scanned ht hd').mpr (hutc ▸ hlt)
  · simp at hmem

/-- The condition is needed: a frame that is completed and does not meet it sets some clock
    unlawfully. -/
theorem fixed_of_lawful {g : Receiver} {x : Env} {f : NmeaFrame} {r : Receiver × List Int32}
    (hok : procGps g (f.input x) = .ok r)
    (hlaw : ∀ y g' calls, procGps g (f.input y) = .ok (g', calls) →
      ∀ tmg ∈ calls, Lawful f.toFrameText tmg) : FixedFrame f.toFrameText := by
  intro hheader
  rcases calls_of_frame hok with ⟨-, hno⟩ | ⟨h, time', speed', date', hf⟩
  · exact absurd hheader (hno f.valid)
  -- on some clock the second computed is set, whatever `year` held
  have hset : ∀ year, Lawful f.toFrameText (mktime (gprmcTm h year time' date')).1 := by
    intro year
    obtain ⟨now, hnow⟩ := exists_clock (mktime (gprmcTm h year time' date')).1
    obtain ⟨g', hcalls⟩ := hf.calls ⟨now, year, 0⟩
    refine hlaw ⟨now, year, 0⟩ g' _ hcalls _ ?_
    rw [gprmcClock_calls, if_pos hnow]
    exact List.mem_singleton.mpr rfl
  obtain ⟨-, hstatus, time, date, htime, hdate, ht, hd, hutc⟩ := hset 2000000000
  obtain ⟨h₁, h₇, h₉⟩ := hf.reads (List.getElem?_eq_some_iff.mp hdate).1
  obtain rfl := Option.some.inj (htime.symm.trans h₁)
  have hs : isDigit (speed'.headD 0) = true := by
    by_contra hs
    rw [h₉, if_neg hs, mktime_garbage] at hutc
    have hneg : (-1 : Int32).toInt = -1 := by decide
    have hnonneg := utcOf_nonneg time date
    omega
  refine ⟨hstatus, time, speed', date, htime, h₇, hdate, ht, hs, hd, ?_⟩
  rw [h₉, if_pos hs, ← utcOf_piece hdate hd] at hutc
  rw [← utcOf_piece hdate hd]
  exact (mktime_scanned ht (sixDigits_piece hdate hd).1).mp hutc

/-- CORRECT: in every sequence of frames whose `$GPRMC` frames meet the condition, from every state of
    the receiver and for every clock, `settimeofday` is only called in `$GPRMC` frames with the
    status `A`, a time and a date, and sets the second that the frame denotes. -/
theorem settimeofday_lawful {g : Receiver} {es : List (NmeaFrame × Env)} {c : Clocked}
    (hfix : ∀ e ∈ es, FixedFrame e.1.toFrameText) (h : run clockStep ⟨g, []⟩ es = .ok c) :
    ∀ s ∈ c.sets, Lawful s.1.toFrameText s.2 := by
  have hmeets : Meets clockStep (fun _ e => FixedFrame e.1.toFrameText) ⟨g, []⟩ es :=
    meets_of_forall _ fun e he _ => hfix e he
  refine run_inv (P := fun c => ∀ s ∈ c.sets, Lawful s.1.toFrameText s.2) ?_ (by simp) hmeets h
  intro c e c' hc hfixed hstep
  obtain ⟨⟨g', calls⟩, hok, hstep⟩ := bind_eq_ok.mp hstep
  obtain rfl := pure_eq_ok.mp hstep
  have hlaw := lawful_of_fixed hfixed hok
  refine List.forall_mem_append.mpr ⟨hc, ?_⟩
  intro s hs
  obtain ⟨tmg, htmg, rfl⟩ := List.mem_map.mp hs
  exact hlaw tmg htmg

/-- A frame without a fix: the status is `V`. -/
def voidFrame : NmeaFrame where
  body := ascii "GPRMC,055858,V,,,,,0.0,,081208,,*19"
  fits := by decide
  plain := plain_of_all (by decide)
  asterisk := by decide
  valid := by decide

/-- The same with a fix. -/
def fixFrame : NmeaFrame where
  body := ascii "GPRMC,055858,A,,,,,0.0,,081208,,*0E"
  fits := by decide
  plain := plain_of_all (by decide)
  asterisk := by decide
  valid := by decide

/-- The status fields of the frames that set the clock. -/
def statusesSet : Except Fault Clocked → List (Option (List UInt8))
  | .ok c => c.sets.map fun s => s.1.toFrameText.fields[2]?
  | .error _ => []

/-- A frame with a fix sets a clock that was never set. -/
theorem settimeofday_lawful_fix : ∃ c, run clockStep ⟨Receiver.boot, []⟩ [(fixFrame, benchEnv)] =
    .ok c ∧ c.sets ≠ [] ∧ ∀ s ∈ c.sets, Lawful s.1.toFrameText s.2 := by
  have hset : statusesSet (run clockStep ⟨Receiver.boot, []⟩ [(fixFrame, benchEnv)]) =
      [some (ascii "A")] := by decide +kernel
  have hfix : FixedFrame fixFrame.toFrameText := fun _ => ⟨by decide, ascii "055858", ascii "0.0",
    ascii "081208", by decide, by decide, by decide, by decide, by decide, by decide, by decide⟩
  cases hrun : run clockStep ⟨Receiver.boot, []⟩ [(fixFrame, benchEnv)] with
  | error f =>
    rw [hrun] at hset
    simp [statusesSet] at hset
  | ok c =>
    rw [hrun] at hset
    refine ⟨c, rfl, ?_, settimeofday_lawful (by simpa using hfix) hrun⟩
    intro hnil
    simp [statusesSet, hnil] at hset

/-- The clock is set before the status is read. -/
theorem settimeofday_ignores_status : ¬ ∀ (g : Receiver) (es : List (NmeaFrame × Env)) (c : Clocked),
    run clockStep ⟨g, []⟩ es = .ok c → ∀ s ∈ c.sets, Lawful s.1.toFrameText s.2 := by
  intro h
  have hset : statusesSet (run clockStep ⟨Receiver.boot, []⟩ [(voidFrame, benchEnv)]) =
      [some (ascii "V")] := by decide +kernel
  cases hrun : run clockStep ⟨Receiver.boot, []⟩ [(voidFrame, benchEnv)] with
  | error f =>
    rw [hrun] at hset
    simp [statusesSet] at hset
  | ok c =>
    rw [hrun] at hset
    obtain ⟨s, hs, hstatus⟩ := List.mem_map.mp (show some (ascii "V") ∈ statusesSet (.ok c) by
      rw [hset]; exact List.mem_singleton.mpr rfl)
    have hlaw := (h Receiver.boot _ c hrun s hs).2.1
    rw [hstatus] at hlaw
    exact absurd hlaw (by decide)

/-! ### How far the clock may be off

    The two seconds are compared without their low six bits: not their difference decides, but the
    blocks of 64 seconds they fall into. -/

/-- The test in front of `settimeofday`. -/
def outOfSync (tv_sec tmg : Int32) : Bool :=
  tv_sec.toUInt32 &&& 0xffffffc0 ≠ tmg.toUInt32 &&& 0xffffffc0

theorem toNat_toUInt32 {x : Int32} (h : 0 ≤ x.toInt) : (x.toUInt32.toNat : ℤ) = x.toInt := by
  have hsigned := toInt_toInt32 x.toUInt32
  rw [Int32.toInt32_toUInt32] at hsigned
  have hlt := x.toUInt32.toNat_lt
  split at hsigned <;> omega

theorem outOfSync_iff {tv_sec tmg : Int32} (htv : 0 ≤ tv_sec.toInt) (htmg : 0 ≤ tmg.toInt) :
    outOfSync tv_sec tmg = true ↔ tv_sec.toInt / 64 ≠ tmg.toInt / 64 := by
  have hblock : tv_sec.toUInt32 &&& 0xffffffc0 = tmg.toUInt32 &&& 0xffffffc0 ↔
      tv_sec.toUInt32.toNat / 64 = tmg.toUInt32.toNat / 64 := by
    rw [← UInt32.toNat_inj, toNat_and_high, toNat_and_high]
    omega
  rw [outOfSync, decide_eq_true_eq, Ne, hblock, ← toNat_toUInt32 htv, ← toNat_toUInt32 htmg]
  omega

theorem gprmcClock_iff (g : Receiver) (x : Env) (time : List UInt8) (date : Option (List UInt8)) :
    (gprmcClock g x time date).2 ≠ [] ↔
      outOfSync x.now (mktime (gprmcTm g x.year time date)).1 = true := by
  rw [gprmcClock_calls, outOfSync, decide_eq_true_eq]
  split <;> simp_all

/-- CORRECT (synchronisation): a call of `settimeofday` where and only where the two seconds are more
    than 63 apart; this holds exactly if they are 64 or more apart or in the same block. -/
theorem gprmcClock_sync_iff {tv_sec tmg : Int32} (htv : 0 ≤ tv_sec.toInt) (htmg : 0 ≤ tmg.toInt) :
    ((outOfSync tv_sec tmg = true ↔ 63 < |tv_sec.toInt - tmg.toInt|) ↔
      64 ≤ |tv_sec.toInt - tmg.toInt| ∨ tv_sec.toInt / 64 = tmg.toInt / 64) ∧
    ∀ (g : Receiver) (x : Env) (time : List UInt8) (date : Option (List UInt8)), x.now = tv_sec →
      (mktime (gprmcTm g x.year time date)).1 = tmg →
      ((gprmcClock g x time date).2 ≠ [] ↔ outOfSync tv_sec tmg = true) := by
  refine ⟨?_, fun g x time date hnow hmade => ?_⟩
  · rw [outOfSync_iff htv htmg]
    have habs := abs_cases (tv_sec.toInt - tmg.toInt)
    omega
  · rw [gprmcClock_iff, hnow, hmade]

/-- Two seconds in one block. -/
theorem gprmcClock_sync_block : (outOfSync 0 63 = true ↔ 63 < |(0 : Int32).toInt - (63 : Int32).toInt|) ↔
    64 ≤ |(0 : Int32).toInt - (63 : Int32).toInt| ∨
      (0 : Int32).toInt / 64 = (63 : Int32).toInt / 64 :=
  (@gprmcClock_sync_iff 0 63 (by decide) (by decide)).1

/-- The last second of 1999 and the first of 2000. -/
theorem gprmcClock_syncs_early : ¬ ∀ (g : Receiver) (x : Env) (time : List UInt8)
    (date : Option (List UInt8)) (tmg : Int32), (mktime (gprmcTm g x.year time date)).1 = tmg →
    0 ≤ x.now.toInt → 0 ≤ tmg.toInt →
    ((gprmcClock g x time date).2 ≠ [] ↔ 63 < |x.now.toInt - tmg.toInt|) := by
  intro h
  have hmade : (mktime (gprmcTm Receiver.boot benchEnv.year (ascii "000000")
      (some (ascii "010100")))).1 = 946684800 := by decide +kernel
  have hone := h Receiver.boot { benchEnv with now := 946684799 } (ascii "000000")
    (some (ascii "010100")) _ hmade (by decide) (by decide)
  rw [gprmcClock_iff, hmade] at hone
  exact absurd (hone.mp (by decide)) (by decide)

end AcqBoard.Gps
