import AcqBoard.Gps.Clock
import AcqBoard.Schemes.Account

/-! The system clock under the receiver.

    `gps_gprmc` compares the clock with the second of the frame by their blocks of 64 seconds, and sets
    it where these differ. A small offset may therefore stay, until a frame falls between the two
    borders of a block. But every call of `settimeofday` after the first takes away an offset that the
    clock has gained since the one before: the calls are paid for by what the clock gains, and a clock
    that keeps time is set at most once. -/

namespace AcqBoard.Gps
open Schemes

/-- A frame that arrives, the seconds since the one before, what the system clock has gained on them,
    and what the locals of `gps_gprmc` hold. -/
structure Arrival where
  frame : NmeaFrame
  passed : ℕ
  gained : ℤ
  year : Int32
  tmp : Int32

/-- The receiver, the GPS second, the second on the system clock, and the calls of `settimeofday` so
    far. -/
structure Disciplined where
  rx : Receiver
  time : ℤ
  clock : ℤ
  sets : ℕ

def Disciplined.offset (s : Disciplined) : ℤ := s.clock - s.time

/-- The clock behind some calls. -/
def settimeofday (clock : ℤ) (calls : List Int32) : ℤ := calls.foldl (fun _ tmg => tmg.toInt) clock

/-- The clock goes on, and `proc_gps` reads it and sets it. -/
def arrivalStep (s : Disciplined) (e : Arrival) : Except Fault Disciplined := do
  let clock := s.clock + e.passed + e.gained
  let r ← procGps s.rx (e.frame.input ⟨Int32.ofInt clock, e.year, e.tmp⟩)
  pure ⟨r.1, s.time + e.passed, settimeofday clock r.2, s.sets + r.2.length⟩

/-- The frame has a time, a speed and a date, and denotes the second. -/
def Tells (f : FrameText) (second : ℤ) : Prop :=
  ∃ time speed date, f.fields[1]? = some time ∧ f.fields[7]? = some speed ∧
    f.fields[9]? = some date ∧ sixDigits time = true ∧ isDigit (speed.headD 0) = true ∧
    sixDigits date = true ∧ utcOf time date = second

/-- A `$GPRMC` frame tells the second it arrives in, and a `time_t` holds that and the clock. -/
def Timely (s : Disciplined) (e : Arrival) : Prop :=
  e.frame.fields[0]? = some (ascii "$GPRMC") →
    Tells e.frame.toFrameText (s.time + e.passed) ∧ s.time + e.passed < 2 ^ 31 ∧
      0 ≤ s.clock + e.passed + e.gained ∧ s.clock + e.passed + e.gained < 2 ^ 31

/-! ### One frame -/

/-- What a frame that tells the second does to the clock. -/
theorem calls_of_tells {g : Receiver} {x : Env} {f : NmeaFrame} {second : ℤ}
    {r : Receiver × List Int32} (hh : f.fields[0]? = some (ascii "$GPRMC"))
    (ht : Tells f.toFrameText second) (hlt : second < 2 ^ 31)
    (hok : procGps g (f.input x) = .ok r) :
    ∃ tmg : Int32, tmg.toInt = second ∧ r.2 = if outOfSync x.now tmg then [tmg] else [] := by
  rcases calls_of_frame hok with ⟨-, hno⟩ | ⟨h, time', speed', date', hf⟩
  · exact absurd hh (hno f.valid)
  obtain ⟨time, speed, date, htime, hspeed, hdate, htd, hs, hdd, rfl⟩ := ht
  obtain ⟨h₁, h₇, h₉⟩ := hf.reads (List.getElem?_eq_some_iff.mp hdate).1
  obtain rfl := Option.some.inj (htime.symm.trans h₁)
  obtain rfl := Option.some.inj (hspeed.symm.trans h₇)
  rw [if_pos hs] at h₉
  subst h₉
  obtain ⟨g', hcalls⟩ := hf.calls x
  obtain rfl := Except.ok.inj (hok.symm.trans hcalls)
  have hutc : utcOf time (f.piece 9) = utcOf time date := utcOf_piece hdate hdd
  refine ⟨(mktime (gprmcTm h x.year time (some (f.piece 9)))).1, ?_, ?_⟩
  · rw [← hutc] at hlt ⊢
    exact (mktime_scanned htd (sixDigits_piece hdate hdd).1).mpr hlt
  · rw [gprmcClock_calls, outOfSync]
    simp only [decide_eq_true_eq]

/-- Any other frame leaves it alone. -/
theorem calls_of_other {g : Receiver} {x : Env} {f : NmeaFrame} {r : Receiver × List Int32}
    (hh : f.fields[0]? ≠ some (ascii "$GPRMC")) (hok : procGps g (f.input x) = .ok r) : r.2 = [] := by
  rcases calls_of_frame hok with ⟨hno, -⟩ | ⟨h, time, speed, date, hf⟩
  · obtain ⟨g', hg⟩ := hno x
    rw [Except.ok.inj (hok.symm.trans hg)]
  · exact absurd hf.header hh

/-- The second a frame tells is not before 1970. -/
theorem Tells.nonneg {f : FrameText} {second : ℤ} (h : Tells f second) : 0 ≤ second := by
  obtain ⟨time, speed, date, -, -, -, -, -, -, rfl⟩ := h
  exact utcOf_nonneg time date

/-- What a frame can do: another one leaves the clock alone, and a `$GPRMC` frame sets it exactly if it
    is in another block of 64 seconds. -/
theorem arrivalStep_cases {s t : Disciplined} {e : Arrival} (ht : Timely s e)
    (h : arrivalStep s e = .ok t) :
    (e.frame.fields[0]? ≠ some (ascii "$GPRMC") ∧ t.offset = s.offset + e.gained ∧
        t.sets = s.sets) ∨
      (e.frame.fields[0]? = some (ascii "$GPRMC") ∧ |t.offset| ≤ 63 ∧
        t.offset = s.offset + e.gained ∧ t.sets = s.sets) ∨
      (e.frame.fields[0]? = some (ascii "$GPRMC") ∧ t.offset = 0 ∧ s.offset + e.gained ≠ 0 ∧
        t.sets = s.sets + 1) := by
  obtain ⟨r, hr, h⟩ := bind_eq_ok.mp h
  obtain rfl := pure_eq_ok.mp h
  by_cases hh : e.frame.fields[0]? = some (ascii "$GPRMC")
  · obtain ⟨htells, htime, hlo, hhi⟩ := ht hh
    have hnow : (Int32.ofInt (s.clock + e.passed + e.gained)).toInt =
        s.clock + e.passed + e.gained := by
      rw [Int32.toInt_ofInt_of_le] <;> omega
    obtain ⟨tmg, htmg, hcalls⟩ := calls_of_tells hh htells htime hr
    have hsync := outOfSync_iff (hnow ▸ hlo) (htmg ▸ htells.nonneg)
    rw [hnow, htmg] at hsync
    cases hout : outOfSync (Int32.ofInt (s.clock + e.passed + e.gained)) tmg with
    | false =>
      have hblock : (s.clock + e.passed + e.gained) / 64 = (s.time + e.passed) / 64 := by
        by_contra hne
        rw [hsync.mpr hne] at hout
        cases hout
      rw [hcalls, hout]
      refine Or.inr (Or.inl ⟨hh, ?_, ?_, rfl⟩)
      · change |s.clock + e.passed + e.gained - (s.time + e.passed)| ≤ 63
        rw [abs_le]
        omega
      · change s.clock + e.passed + e.gained - (s.time + e.passed) = s.clock - s.time + e.gained
        omega
    | true =>
      have hblock := hsync.mp hout
      rw [hcalls, hout]
      refine Or.inr (Or.inr ⟨hh, ?_, ?_, rfl⟩)
      · change tmg.toInt - (s.time + e.passed) = 0
        omega
      · intro hzero
        change s.clock - s.time + e.gained = 0 at hzero
        exact hblock (by omega)
  · refine Or.inl ⟨hh, ?_⟩
    rw [calls_of_other hh hr]
    change s.clock + e.passed + e.gained - (s.time + e.passed) = s.clock - s.time + e.gained ∧ _
    exact ⟨by omega, rfl⟩

/-! ### The run -/

/-- What the calls and the offset amount to, from the first call on. -/
def Disciplined.account (s : Disciplined) : ℤ := if s.sets = 0 then 1 else s.sets + |s.offset|

/-- A frame adds at most what the clock gained: a call pays with the offset that it takes away. -/
theorem account_step {s t : Disciplined} {e : Arrival} (ht : Timely s e)
    (h : arrivalStep s e = .ok t) : t.account ≤ s.account + |e.gained| := by
  have hgain := abs_nonneg e.gained
  have hsum := abs_add_le s.offset e.gained
  unfold Disciplined.account
  rcases arrivalStep_cases ht h with ⟨-, hoff, hsets⟩ | ⟨-, -, hoff, hsets⟩ | ⟨-, hoff, hne, hsets⟩
  · rw [hoff, hsets]
    split <;> omega
  · rw [hoff, hsets]
    split <;> omega
  · have hpos : 1 ≤ |s.offset + e.gained| := Int.one_le_abs hne
    rw [hoff, hsets, abs_zero, if_neg (Nat.succ_ne_zero _)]
    split
    · rename_i hzero
      rw [hzero]
      omega
    · omega

/-- CORRECT (discipline): in every run in which each `$GPRMC` frame tells the second it arrives in, the
    clock is not more than 63 seconds off behind such a frame; and once it was set, the calls and the
    offset together are at most one more than what the clock has gained and lost. -/
theorem clock_disciplined {s t : Disciplined} {es : List Arrival} (h0 : s.sets = 0)
    (hm : Meets arrivalStep Timely s es) (h : run arrivalStep s es = .ok t) :
    (∀ e ∈ es.getLast?, e.frame.fields[0]? = some (ascii "$GPRMC") → |t.clock - t.time| ≤ 63) ∧
      (t.sets ≠ 0 →
        t.sets + |t.clock - t.time| ≤ 1 + (es.map fun e => |e.gained|).sum) := by
  refine ⟨fun e he hh => ?_, fun hsets => ?_⟩
  · obtain ⟨init, rfl⟩ := List.getLast?_eq_some_iff.mp he
    obtain ⟨u, hu, hstep⟩ := run_concat hm h
    rcases arrivalStep_cases hu hstep with ⟨hno, -⟩ | ⟨-, hoff, -⟩ | ⟨-, hoff, -⟩
    · exact absurd hh hno
    · exact hoff
    · change |t.offset| ≤ 63
      rw [hoff]
      decide
  · have haccount : t.account ≤ s.account + (es.map fun e => |e.gained|).sum :=
      run_cost (fun ht hstep => account_step ht hstep) hm h
    rwa [Disciplined.account, if_neg hsets, Disciplined.account, if_pos h0] at haccount

/-- A clock that was never set, and the same frame once more when it has gained three seconds. -/
def benchArrivals : List Arrival :=
  [⟨fixFrame, 0, 0, 0, 0⟩, ⟨fixFrame, 0, 3, 0, 0⟩]

def benchDisciplined : Disciplined := ⟨Receiver.boot, 1228715938, 0, 0⟩

/-- Second, clock and calls. -/
def Disciplined.view (s : Disciplined) : ℤ × ℤ × ℕ := (s.time, s.clock, s.sets)

theorem tells_fixFrame : Tells fixFrame.toFrameText 1228715938 :=
  ⟨ascii "055858", ascii "0.0", ascii "081208", by decide, by decide, by decide, by decide, by decide,
    by decide, by decide⟩

theorem clock_disciplined_bench : ∃ t, run arrivalStep benchDisciplined benchArrivals = .ok t ∧
    t.view = (1228715938, 1228715941, 1) ∧
      t.sets + |t.clock - t.time| ≤ 1 + (benchArrivals.map fun e => |e.gained|).sum := by
  have hfirst : (arrivalStep benchDisciplined ⟨fixFrame, 0, 0, 0, 0⟩).map Disciplined.view =
      .ok (1228715938, 1228715938, 1) := by decide +kernel
  have hboth : (run arrivalStep benchDisciplined benchArrivals).map Disciplined.view =
      .ok (1228715938, 1228715941, 1) := by decide +kernel
  obtain ⟨t, ht, hview⟩ := map_eq_ok.mp hboth
  have hm : Meets arrivalStep Timely benchDisciplined benchArrivals := by
    refine ⟨fun _ => ⟨tells_fixFrame, by decide, by decide, by decide⟩, fun u hu => ⟨fun _ => ?_, ?_⟩⟩
    · obtain ⟨v, hv, huv⟩ := map_eq_ok.mp hfirst
      obtain rfl : v = u := Except.ok.inj (hv.symm.trans hu)
      obtain ⟨htime, huv⟩ := Prod.mk.inj huv
      obtain ⟨hclock, -⟩ := Prod.mk.inj huv
      rw [htime, hclock]
      exact ⟨tells_fixFrame, by decide, by decide, by decide⟩
    · exact fun _ _ => trivial
  refine ⟨t, ht, hview, (clock_disciplined rfl hm ht).2 ?_⟩
  rw [(Prod.mk.inj (Prod.mk.inj hview).2).2]
  decide

end AcqBoard.Gps
