import AcqBoard.Gps.Clock

/-! Two receivers with different pasts.

    `cmd_list` is never cleared, the handlers read entries up to 9 without a look at `cmd_count`, and
    `year` and `tmp` are used whether or not they were scanned. What a frame does to the data and the
    clock can therefore depend on frames long gone and on the stack. It does not exactly for the
    frames of `Determined`. -/

namespace AcqBoard.Gps
open Schemes

/-- A state that some input leads to. -/
def Reached (g : Receiver) : Prop := ∃ buff calls, procGps Receiver.boot buff = .ok (g, calls)

/-- What can be seen of a frame's processing: the data, the static time and the clock afterwards;
    nothing if its behaviour is undefined. -/
def outcome (g : Receiver) (x : Env) (f : FrameText) : Option (GpsData × Tm × Int32) :=
  (procGps g (f.input x)).toOption.map fun r => (r.1.gpsData, r.1.tmTime, r.2.getLastD x.now)

/-- The law: from every two pasts with the same data, static time and clock the frame has the same
    outcome, whatever the uninitialised locals hold. -/
def Twins (f : FrameText) : Prop :=
  ∀ g g' x x', Reached g → Reached g' → g.gpsData = g'.gpsData → g.tmTime = g'.tmTime →
    x.now = x'.now → outcome g x f = outcome g' x' f

/-- An angle of which all three parts are scanned. -/
def anglePresent (width : ℕ) (s : List UInt8) : Prop :=
  isDigit (s.headD 0) = true ∧
    3 ≤ (sscanf [.int (some width), .int (some 2), .lit (byte '.'), .int (some 4)] s).length

/-- The condition: unless its processing is undefined in any case, a `$GPGGA` frame has ten fields,
    and a `$GPRMC` frame has ten fields, a speed, and a date and a latitude that scan completely. -/
def Determined (f : FrameText) : Prop :=
  f.fields.length ≤ 64 → byte '*' ∈ f.last → f.fields.length ≠ 1 →
    (f.piece 0 = ascii "$GPGGA" → 10 ≤ f.fields.length) ∧
    (f.piece 0 = ascii "$GPRMC" → 10 ≤ f.fields.length ∧
      isDigit ((f.piece 7).headD 0) = true ∧ 3 ≤ (sscanf threePairs (f.piece 9)).length ∧
      anglePresent 2 (f.piece 3))

/-! ### The handlers as functions of the frame -/

/-- The data after `gps_gpgga`, from the number of satellites and the height. -/
def gpggaData (d : GpsData) (used height : List UInt8) : GpsData :=
  let count := if isDigit (used.headD 0) then store (sscanf [.int (some 2)] used) 0 d.count
    else d.count
  let vs := sscanf [.int none, .lit (byte '.'), .int none] height
  { d with count := count, heightD := store vs 0 d.heightD, heightM := store vs 1 d.heightM }

/-- What `gps_gprmc` leaves after the clock, from the pieces of the frame. -/
def gprmcPosition (r : Receiver × List Int32) (tmp : Int32) (piece : ℕ → List UInt8) :
    Receiver × List Int32 :=
  let d := r.1.gpsData
  let lat := scanAngle 2 (piece 3) d.nsD d.nsM10000 tmp
  let lon := scanAngle 3 (piece 5) d.ewD d.ewM10000 lat.2.2
  ({ r.1 with gpsData := { d with
    nsD := lat.1, nsM10000 := lat.2.1, ewD := lon.1, ewM10000 := lon.2.1
    ns := (piece 4).headD 0, ew := (piece 6).headD 0, status := (piece 2).headD 0 } }, r.2)

/-- The date that `gps_gprmc` reads, if there is a speed. -/
def FrameText.date (f : FrameText) : Option (List UInt8) :=
  if isDigit ((f.piece 7).headD 0) then some (f.piece 9) else none

theorem gpsGpgga_full {g : Receiver} {used height : List UInt8}
    (h₀ : g.field 0 = .ok (ascii "$GPGGA")) (h₇ : g.field 7 = .ok used)
    (h₉ : g.field 9 = .ok height) :
    gpsGpgga g = .ok { g with gpsData := gpggaData g.gpsData used height } := by
  rw [gpsGpgga, h₀]
  simp only [bind, Except.bind, h₇, h₉]
  rfl

theorem gpsGpgga_other {g : Receiver} {header : List UInt8} (h₀ : g.field 0 = .ok header)
    (hne : header ≠ ascii "$GPGGA") : gpsGpgga g = .ok g := by
  rw [gpsGpgga, h₀]
  simp only [bind, Except.bind, if_pos hne]
  rfl

theorem gpsGprmc_full {g : Receiver} {x : Env} {piece : ℕ → List UInt8}
    {date : Option (List UInt8)} (h₀ : g.field 0 = .ok (ascii "$GPRMC"))
    (hf : ∀ j, 1 ≤ j → j ≤ 7 → g.field j = .ok (piece j)) (hd : gprmcDate g (piece 7) = .ok date) :
    gpsGprmc g x = .ok (gprmcPosition (gprmcClock g x (piece 1) date) x.tmp piece) := by
  rw [gpsGprmc, h₀]
  simp only [bind, Except.bind, hf 1 (by decide) (by decide), hf 2 (by decide) (by decide),
    hf 3 (by decide) (by decide), hf 4 (by decide) (by decide), hf 5 (by decide) (by decide),
    hf 6 (by decide) (by decide), hf 7 (by decide) (by decide), hd]
  rfl

theorem gpsGprmc_other {g : Receiver} {x : Env} {header : List UInt8} (h₀ : g.field 0 = .ok header)
    (hne : header ≠ ascii "$GPRMC") : gpsGprmc g x = .ok (g, []) := by
  rw [gpsGprmc, h₀]
  simp only [bind, Except.bind, if_pos hne]
  rfl

/-! ### What the uninitialised locals reach -/

/-- What is seen of a result. -/
def view (now : Int32) (r : Receiver × List Int32) : GpsData × Tm × Int32 :=
  (r.1.gpsData, r.1.tmTime, r.2.getLastD now)

/-- The view of `gps_gprmc` on the pieces of a frame. -/
def gprmcView (d : GpsData) (t : Tm) (x : Env) (f : FrameText) : GpsData × Tm × Int32 :=
  view x.now (gprmcPosition
    (gprmcClock { Receiver.boot with gpsData := d, tmTime := t } x (f.piece 1) f.date) x.tmp f.piece)

/-- A scanned value does not need the local's old one. -/
theorem getD_scanned {vs : List Int32} {k : ℕ} (h : k < vs.length) (a b : Int32) :
    vs.getD k a = vs.getD k b := by
  rw [List.getD_eq_getElem?_getD, List.getD_eq_getElem?_getD, List.getElem?_eq_getElem h]
  rfl

/-- A value that is not scanned is the local's old one. -/
theorem getD_garbage {vs : List Int32} {k : ℕ} (h : vs.length ≤ k) (a : Int32) :
    vs.getD k a = a := by
  rw [List.getD_eq_getElem?_getD, List.getElem?_eq_none h]
  rfl

theorem scanAngle_congr {width : ℕ} {s : List UInt8} (h : anglePresent width s) (d m : UInt32)
    (t t' : Int32) : scanAngle width s d m t = scanAngle width s d m t' := by
  unfold scanAngle
  rw [if_pos h.1]
  dsimp only
  rw [getD_scanned h.2 t t']

/-- With a complete date and latitude neither local reaches the view. -/
theorem gprmcView_congr {f : FrameText} {x x' : Env} (hnow : x.now = x'.now)
    (hspeed : isDigit ((f.piece 7).headD 0) = true)
    (hdate : 3 ≤ (sscanf threePairs (f.piece 9)).length) (hlat : anglePresent 2 (f.piece 3))
    (d : GpsData) (t : Tm) : gprmcView d t x f = gprmcView d t x' f := by
  have hd : f.date = some (f.piece 9) := if_pos hspeed
  unfold gprmcView gprmcPosition gprmcClock
  simp only [hd, Option.map_some, Option.getD_some, hnow,
    getD_scanned hdate x.year x'.year, scanAngle_congr hlat _ _ x.tmp x'.tmp]

/-- Where no year is scanned, the local decides the year that is seen. -/
theorem gprmcView_year {f : FrameText} {d : GpsData} {t : Tm}
    (h : gprmcView d t ⟨0, 0, 0⟩ f = gprmcView d t ⟨0, 1, 0⟩ f) :
    isDigit ((f.piece 7).headD 0) = true ∧ 3 ≤ (sscanf threePairs (f.piece 9)).length := by
  have hyear : ((f.date.map (sscanf threePairs)).getD []).getD 2 0 + 2000 =
      ((f.date.map (sscanf threePairs)).getD []).getD 2 1 + 2000 :=
    congrArg (fun v => v.1.tmTime.year) h
  have hlong : 2 < ((f.date.map (sscanf threePairs)).getD []).length := by
    by_contra hshort
    rw [getD_garbage (by omega), getD_garbage (by omega)] at hyear
    exact absurd hyear (by decide)
  unfold FrameText.date at hlong
  split at hlong
  · rename_i hspeed
    exact ⟨hspeed, hlong⟩
  · simp at hlong

/-- Where the latitude is not scanned, the local is added to it. -/
theorem gprmcView_tmp {f : FrameText} {d : GpsData} {t : Tm}
    (h : gprmcView d t ⟨0, 0, 0⟩ f = gprmcView d t ⟨0, 0, 1⟩ f) : anglePresent 2 (f.piece 3) := by
  have hang : (scanAngle 2 (f.piece 3) d.nsD d.nsM10000 0).2.1 =
      (scanAngle 2 (f.piece 3) d.nsD d.nsM10000 1).2.1 := congrArg (fun v => v.1.nsM10000) h
  unfold scanAngle at hang
  dsimp only at hang
  have hlong : 2 < (if isDigit ((f.piece 3).headD 0) = true then
      sscanf [.int (some 2), .int (some 2), .lit (byte '.'), .int (some 4)] (f.piece 3)
      else []).length := by
    by_contra hshort
    rw [getD_garbage (by omega), getD_garbage (by omega)] at hang
    exact absurd ((UInt32.add_right_inj _).mp hang) (by decide)
  split at hlong
  · rename_i hdigit
    exact ⟨hdigit, hlong⟩
  · simp at hlong

/-! ### The frame -/

theorem outcome_valid (g : Receiver) (x : Env) (f : NmeaFrame) :
    outcome g x f.toFrameText =
      (gpsProcFrame (g.loaded f.toFrameText) x).toOption.map (view x.now) := by
  rw [outcome, procGps_input, frameEnd, gpsChecksum_loaded, if_pos f.asterisk, f.valid]
  simp only [bind, Except.bind, Bool.not_true, Bool.false_eq_true, if_false]
  cases gpsProcFrame (g.loaded f.toFrameText) x with
  | error e => rfl
  | ok r => rfl

/-- The outcome of a frame that reaches the handlers. -/
theorem outcome_handlers (g : Receiver) {f : NmeaFrame} (hn : f.fields.length ≤ 64)
    (hstar : byte '*' ∈ f.last) (hone : f.fields.length ≠ 1) :
    ∃ h, Laid g f.toFrameText h ∧ h.gpsData = g.gpsData ∧ h.tmTime = g.tmTime ∧
      ∀ x, outcome g x f.toFrameText =
        (gpsGpgga h >>= (gpsGprmc · x)).toOption.map (view x.now) := by
  obtain ⟨h, hl, hdata, htime, heq⟩ := gpsProcFrame_cut g hn hstar
  refine ⟨h, hl, hdata, htime, ?_⟩
  intro x
  rw [outcome_valid, heq x, if_neg hone]

/-- Without an asterisk in its last field, or with too many fields, the frame has no outcome. -/
theorem outcome_undefined (g : Receiver) (x : Env) {f : NmeaFrame}
    (h : ¬ (f.fields.length ≤ 64 ∧ byte '*' ∈ f.last)) : outcome g x f.toFrameText = none := by
  obtain ⟨hfull, hnull, -⟩ := gpsProcFrame_loaded g f.toFrameText
  rw [outcome_valid]
  rcases Nat.lt_or_ge 64 f.fields.length with hn | hn
  · rw [hfull hn]; rfl
  · rw [hnull hn (fun hs => h ⟨hn, hs⟩)]; rfl

/-- A frame of one piece touches nothing. -/
theorem outcome_single (g : Receiver) (x : Env) {f : NmeaFrame} (hstar : byte '*' ∈ f.last)
    (hone : f.fields.length = 1) :
    outcome g x f.toFrameText = some (g.gpsData, g.tmTime, x.now) := by
  obtain ⟨h, hl, hdata, htime, heq⟩ := gpsProcFrame_cut g (by omega : f.fields.length ≤ 64) hstar
  rw [outcome_valid, heq, if_pos hone]
  simp [Except.toOption, view, hdata, htime]

/-- `gps_gpgga` leaves the strings. -/
theorem field_gpsGpgga {g k : Receiver} (hok : gpsGpgga g = .ok k) (j : ℕ) :
    k.field j = g.field j := by
  obtain ⟨hbuff, hlist, -⟩ := gpsGpgga_ok hok
  rw [Receiver.field, Receiver.field, hlist, hbuff]

section
variable (g : Receiver) {f : NmeaFrame} (hn : f.fields.length ≤ 64) (hstar : byte '*' ∈ f.last)
  (hone : f.fields.length ≠ 1)
include hn hstar hone

/-- A frame that neither handler knows touches nothing. -/
theorem outcome_other (x : Env) (h₁ : f.piece 0 ≠ ascii "$GPGGA")
    (h₂ : f.piece 0 ≠ ascii "$GPRMC") :
    outcome g x f.toFrameText = some (g.gpsData, g.tmTime, x.now) := by
  obtain ⟨h, hl, hdata, htime, heq⟩ := outcome_handlers g hn hstar hone
  have h₀ := hl.field f.fields_pos
  rw [heq, gpsGpgga_other h₀ h₁]
  simp only [bind, Except.bind, gpsGprmc_other h₀ h₂, Except.toOption, Option.map_some, view, hdata,
    htime, List.getLastD_nil]

/-- A `$GPGGA` frame of ten fields. -/
theorem outcome_gpgga (x : Env) (hh : f.piece 0 = ascii "$GPGGA") (h9 : 9 < f.fields.length) :
    outcome g x f.toFrameText =
      some (gpggaData g.gpsData (f.piece 7) (f.piece 9), g.tmTime, x.now) := by
  obtain ⟨h, hl, hdata, htime, heq⟩ := outcome_handlers g hn hstar hone
  have h₀ := hl.field f.fields_pos
  rw [hh] at h₀
  have hgga := gpsGpgga_full h₀ (hl.field (by omega)) (hl.field h9)
  have hk := field_gpsGpgga hgga 0
  rw [h₀] at hk
  have hrmc := gpsGprmc_other (x := x) hk (by decide)
  rw [heq, hgga]
  simp only [bind, Except.bind, hrmc]
  simp only [Except.toOption, Option.map_some, view, hdata, htime, List.getLastD_nil]

/-- A `$GPRMC` frame with a speed field, and a date field if there is a speed. -/
theorem outcome_gprmc (x : Env) (hh : f.piece 0 = ascii "$GPRMC") (h7 : 7 < f.fields.length)
    (h9 : isDigit ((f.piece 7).headD 0) = true → 9 < f.fields.length) :
    outcome g x f.toFrameText = some (gprmcView g.gpsData g.tmTime x f.toFrameText) := by
  obtain ⟨h, hl, hdata, htime, heq⟩ := outcome_handlers g hn hstar hone
  have h₀ := hl.field f.fields_pos
  rw [hh] at h₀
  have hall : ∀ j, 1 ≤ j → j ≤ 7 → h.field j = .ok (f.piece j) := fun j _ _ => hl.field (by omega)
  have hdate : gprmcDate h (f.piece 7) = .ok f.date := by
    unfold gprmcDate FrameText.date
    split
    · rename_i hspeed
      rw [hl.field (h9 hspeed)]; rfl
    · rfl
  rw [heq, gpsGpgga_other h₀ (by decide)]
  simp only [bind, Except.bind, gpsGprmc_full h₀ hall hdate, Except.toOption, Option.map_some]
  unfold gprmcView view gprmcPosition gprmcClock
  simp only [hdata, htime]

end

/-- The condition is enough. -/
theorem twins_of_determined {f : NmeaFrame} (hd : Determined f.toFrameText) :
    Twins f.toFrameText := by
  intro g g' x x' _ _ hdata htime hnow
  rcases Classical.em (f.fields.length ≤ 64 ∧ byte '*' ∈ f.last) with ⟨hn, hstar⟩ | hno
  · rcases eq_or_ne f.fields.length 1 with hone | hone
    · rw [outcome_single g x hstar hone, outcome_single g' x' hstar hone, hdata, htime, hnow]
    obtain ⟨hgga, hrmc⟩ := hd hn hstar hone
    rcases eq_or_ne (f.piece 0) (ascii "$GPRMC") with hr | hr
    · obtain ⟨hlen, hspeed, hdate, hlat⟩ := hrmc hr
      rw [outcome_gprmc g hn hstar hone x hr (by omega) fun _ => by omega,
        outcome_gprmc g' hn hstar hone x' hr (by omega) fun _ => by omega, hdata, htime,
        gprmcView_congr hnow hspeed hdate hlat]
    rcases eq_or_ne (f.piece 0) (ascii "$GPGGA") with ha | ha
    · rw [outcome_gpgga g hn hstar hone x ha (hgga ha),
        outcome_gpgga g' hn hstar hone x' ha (hgga ha), hdata, htime, hnow]
    · rw [outcome_other g hn hstar hone x ha hr, outcome_other g' hn hstar hone x' ha hr, hdata,
        htime, hnow]
  · rw [outcome_undefined g x hno, outcome_undefined g' x' hno]

/-! ### Two pasts that tell frames apart -/

/-- A frame with an outcome has every entry that its handler reads. -/
theorem ready_of_outcome {g : Receiver} {x : Env} {f : NmeaFrame} (hn : f.fields.length ≤ 64)
    (hstar : byte '*' ∈ f.last) (hone : f.fields.length ≠ 1) :
    outcome g x f.toFrameText ≠ none ↔
      (f.piece 0 = ascii "$GPGGA" → GpggaReady g f.toFrameText) ∧
        (f.piece 0 = ascii "$GPRMC" → GprmcReady g f.toFrameText) := by
  obtain ⟨h, hl, -, -, heq⟩ := outcome_handlers g hn hstar hone
  rw [← handlers_complete (x := x) hl, heq]
  cases gpsGpgga h >>= (gpsGprmc · x) with
  | error e => simp [Except.toOption]
  | ok r => simp [Except.toOption]

/-- A frame of eleven empty fields, which no handler knows. -/
def filler : NmeaFrame where
  body := ascii ",,,,,,,,,,*00"
  fits := by decide
  plain := plain_of_all (by decide)
  asterisk := by decide
  valid := by decide

/-- Its past: the data are those of the start, but every entry is set. -/
theorem exists_filled : ∃ g, Reached g ∧ g.gpsData = Receiver.boot.gpsData ∧
    g.tmTime = Receiver.boot.tmTime ∧ ∀ j ≤ 9, g.cmdList j ≠ none := by
  have hlen : filler.fields.length = 11 := by decide
  obtain ⟨h, hl, hdata, htime, heq⟩ :=
    gpsProcFrame_cut Receiver.boot (f := filler.toFrameText) (by omega) (by decide)
  have h₀ := hl.field filler.fields_pos
  have hrmc := gpsGprmc_other (x := benchEnv) h₀ (by decide)
  have hrun : procGps Receiver.boot (filler.input benchEnv) = .ok ({ h with sIndex := -1 }, []) := by
    rw [procGps_input, frameEnd, gpsChecksum_loaded, if_pos filler.asterisk, filler.valid]
    simp only [bind, Except.bind, Bool.not_true, Bool.false_eq_true, if_false]
    rw [heq, if_neg (by omega), gpsGpgga_other h₀ (by decide)]
    simp only [bind, Except.bind, hrmc]
    rfl
  refine ⟨_, ⟨_, _, hrun⟩, hdata, htime, ?_⟩
  intro j hj
  have hentry : h.cmdList j = some (offset filler.fields j) := (hl.own j (by omega)).1
  change h.cmdList j ≠ none
  rw [hentry]
  simp

/-- The receiver at the start has only the frame's own entries. -/
theorem entryAt_boot {f : FrameText} {j : ℕ} (h : entryAt Receiver.boot f j ≠ none) :
    j < f.fields.length := by
  by_contra hge
  exact h (if_neg hge)

theorem reached_boot : Reached Receiver.boot := ⟨[], [], rfl⟩

/-- The condition is needed: the past of the start and a past that fills the table tell a frame with
    missing fields apart, and two values of the locals the other ones. -/
theorem determined_of_twins {f : NmeaFrame} (ht : Twins f.toFrameText) :
    Determined f.toFrameText := by
  intro hn hstar hone
  obtain ⟨g, hg, hdata, htime, hfilled⟩ := exists_filled
  have hentry : ∀ j ≤ 9, entryAt g f.toFrameText j ≠ none := by
    intro j hj
    unfold entryAt
    split
    · simp
    · exact hfilled j hj
  have hready : outcome g benchEnv f.toFrameText ≠ none :=
    (ready_of_outcome hn hstar hone).mpr
      ⟨fun _ => ⟨hentry 7 (by omega), hentry 9 (by omega)⟩,
        fun _ => ⟨fun j _ _ => hentry j (by omega), fun _ _ _ => hentry 9 (by omega)⟩⟩
  rw [ht g Receiver.boot benchEnv benchEnv hg reached_boot hdata htime rfl] at hready
  obtain ⟨hgga, hrmc⟩ := (ready_of_outcome hn hstar hone).mp hready
  refine ⟨fun h => entryAt_boot (hgga h).2, ?_⟩
  intro hh
  obtain ⟨hset, hdate⟩ := hrmc hh
  have h7 : 7 < f.fields.length := entryAt_boot (hset 7 (by omega) (by omega))
  have h9 : isDigit ((f.piece 7).headD 0) = true → 9 < f.fields.length := by
    intro hspeed
    obtain ⟨h, hl, -⟩ := gpsProcFrame_cut Receiver.boot hn hstar
    obtain ⟨-, hpiece⟩ := hl.own 7 h7
    rw [← hpiece, hl.isDigit] at hspeed
    exact entryAt_boot (hdate _ (if_pos h7) hspeed)
  have hview : ∀ x x', x.now = x'.now →
      gprmcView Receiver.boot.gpsData Receiver.boot.tmTime x f.toFrameText =
        gprmcView Receiver.boot.gpsData Receiver.boot.tmTime x' f.toFrameText := by
    intro x x' hnow
    have hsame := ht Receiver.boot Receiver.boot x x' reached_boot reached_boot rfl rfl hnow
    rw [outcome_gprmc _ hn hstar hone x hh h7 h9, outcome_gprmc _ hn hstar hone x' hh h7 h9] at hsame
    exact Option.some.inj hsame
  obtain ⟨hspeed, hday⟩ := gprmcView_year (hview _ _ rfl)
  exact ⟨h9 hspeed, hspeed, hday, gprmcView_tmp (hview _ _ rfl)⟩

/-- CORRECT (two pasts): a frame with a right checksum has the same outcome after every two pasts
    with the same data, static time and clock exactly if it is determined. -/
theorem twins_iff_determined (f : NmeaFrame) : Twins f.toFrameText ↔ Determined f.toFrameText := by
  constructor
  · exact determined_of_twins
  · exact twins_of_determined

/-- A receiver without a fix: no speed, and the year is what the stack held. -/
def noFixFrame : NmeaFrame where
  body := ascii "GPRMC,055858,V,,,,,,,081208,,*37"
  fits := by decide
  plain := plain_of_all (by decide)
  asterisk := by decide
  valid := by decide

/-- On that frame two receivers at the start part, both of them with an outcome. -/
theorem twins_fail_without_speed : ¬ ∀ (f : NmeaFrame) (g g' : Receiver) (x x' : Env), Reached g →
    Reached g' → g.gpsData = g'.gpsData → g.tmTime = g'.tmTime → x.now = x'.now →
    outcome g x f.toFrameText ≠ none → outcome g' x' f.toFrameText ≠ none →
    outcome g x f.toFrameText = outcome g' x' f.toFrameText := by
  intro h
  have hout : ∀ x, outcome Receiver.boot x noFixFrame.toFrameText =
      some (gprmcView Receiver.boot.gpsData Receiver.boot.tmTime x noFixFrame.toFrameText) :=
    fun x => outcome_gprmc _ (by decide) (by decide) (by decide) x (by decide) (by decide)
      (by decide)
  have hsame := h noFixFrame _ _ ⟨0, 0, 0⟩ ⟨0, 1, 0⟩ reached_boot reached_boot rfl rfl rfl
    (by rw [hout]; simp) (by rw [hout]; simp)
  rw [hout, hout] at hsame
  exact absurd (gprmcView_year (Option.some.inj hsame)).1 (by decide)

end AcqBoard.Gps
