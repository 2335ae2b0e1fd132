import AcqBoard.Gps.Position

/-! The position over a sequence of frames.

    `gps_gprmc` scans an angle only if its field begins with a digit, but scales the minutes and adds
    `tmp` in any case. A frame without a fix therefore multiplies the minutes of the frame before it by
    10000 and adds what the local holds. -/

namespace AcqBoard.Gps
open Schemes

/-- A `$GPRMC` frame reaches `gps_gprmc` with its pieces in place and the data as it was. -/
theorem gprmc_of_frame {g : Receiver} {x : Env} {f : NmeaFrame} {r : Receiver × List Int32}
    (hh : f.fields[0]? = some (ascii "$GPRMC")) (hok : procGps g (f.input x) = .ok r) :
    ∃ h s, (∀ j, j < f.fields.length → h.field j = .ok (f.piece j)) ∧
      f.piece 0 = ascii "$GPRMC" ∧ h.gpsData = g.gpsData ∧ h.tmTime = g.tmTime ∧
      gpsGprmc h x = .ok s ∧ r.1.gpsData = s.1.gpsData ∧ r.1.tmTime = s.1.tmTime ∧ r.2 = s.2 ∧
      1 < f.fields.length ∧ r.1.sbuff = s.1.sbuff ∧ r.1.cmdList = s.1.cmdList ∧
      cutFrame (g.loaded f.toFrameText) = .ok (h, true) := by
  rw [procGps_input, frameEnd, gpsChecksum_loaded, if_pos f.asterisk, f.valid] at hok
  simp only [bind, Except.bind, Bool.not_true, Bool.false_eq_true, if_false] at hok
  obtain ⟨s, hs, hok⟩ := bind_eq_ok.mp hok
  obtain rfl := pure_eq_ok.mp hok
  obtain ⟨hn, hstar, -⟩ := gpsProcFrame_completes.mp ⟨s, hs⟩
  have hone : f.fields.length ≠ 1 := fun hone => header_of_single hone hstar hh
  have hpos := f.fields_pos
  have hpiece : f.piece 0 = ascii "$GPRMC" := piece_of_lt hh (by omega)
  obtain ⟨h, hl, hdata, htime, -, hcut⟩ := cutFrame_loaded g hn hstar
  have h₀ := hl.field hpos
  rw [hpiece] at h₀
  rw [decide_eq_true hone] at hcut
  rw [gpsProcFrame, hcut] at hs
  simp only [bind, Except.bind, if_true, gpsGpgga_other h₀ (by decide)] at hs
  exact ⟨h, s, fun j hj => hl.field hj, hpiece, hdata, htime, hs, rfl, rfl, rfl, by omega, rfl,
    rfl, hcut⟩

/-! ### The law -/

/-- The degrees and the minutes of an angle at the scale of `gps_data`. -/
def AngleField.pair {width : ℕ} (a : AngleField width) : ℕ × ℕ := (digitsVal a.deg, a.m10000)

/-- An accepted `$GPRMC` frame whose latitude and longitude are empty or of the form `ddmm.mmmm` and
    `dddmm.mmmm`. -/
structure PositionFrame extends NmeaFrame where
  header : toFrameText.fields[0]? = some (ascii "$GPRMC")
  present : 5 < toFrameText.fields.length
  lat : Option (AngleField 2)
  lon : Option (AngleField 3)
  latPiece : toFrameText.piece 3 = (lat.map AngleField.text).getD []
  lonPiece : toFrameText.piece 5 = (lon.map AngleField.text).getD []
  latStandard : ∀ a ∈ lat, a.frac.length = 4
  lonStandard : ∀ a ∈ lon, a.frac.length = 4

/-- `proc_gps` on one frame. -/
def positionStep (g : Receiver) (e : PositionFrame × Env) : Except Fault Receiver := do
  let r ← procGps g (e.1.input e.2)
  pure r.1

/-- The last of the values that are there. -/
def mostRecent {α : Type} (init : α) (l : List (Option α)) : α := l.foldl (fun p o => o.getD p) init

def GpsData.lat (d : GpsData) : ℕ × ℕ := (d.nsD.toNat, d.nsM10000.toNat)

def GpsData.lon (d : GpsData) : ℕ × ℕ := (d.ewD.toNat, d.ewM10000.toNat)

/-- After the frames `es` the position is that of the most recent ones with a fix. -/
structure Recent (g : Receiver) (es : List (PositionFrame × Env)) (s : Receiver) : Prop where
  lat : s.gpsData.lat = mostRecent g.gpsData.lat (es.map fun e => e.1.lat.map AngleField.pair)
  lon : s.gpsData.lon = mostRecent g.gpsData.lon (es.map fun e => e.1.lon.map AngleField.pair)

/-- The law: so it is, and no minutes from 60 on are stored if none were received. -/
structure PositionLaw (g : Receiver) (es : List (PositionFrame × Env)) (s : Receiver) : Prop
    extends Recent g es s where
  latBound : g.gpsData.nsM10000 < 600000 → (∀ e ∈ es, ∀ a ∈ e.1.lat, a.minutes < 60) →
    s.gpsData.nsM10000 < 600000
  lonBound : g.gpsData.ewM10000 < 600000 → (∀ e ∈ es, ∀ a ∈ e.1.lon, a.minutes < 60) →
    s.gpsData.ewM10000 < 600000

/-- The condition: both angles are there, or where one is missing the scaled minutes happen to be the
    old ones. The local `tmp` is what the stack held, or the fraction of the latitude. -/
def Held (g : Receiver) (e : PositionFrame × Env) : Prop :=
  (e.1.lat = none →
    g.gpsData.nsM10000 * 10000 + e.2.tmp.toUInt32 = g.gpsData.nsM10000) ∧
  (e.1.lon = none →
    g.gpsData.ewM10000 * 10000 + ((e.1.lat.map fun a => Int32.ofInt a.scanned).getD e.2.tmp).toUInt32 =
      g.gpsData.ewM10000)

/-! ### One frame -/

/-- A field of the standard form is stored at its scale. -/
theorem scanAngle_standard {width : ℕ} (a : AngleField width) (hw : 0 < width) (hw' : width ≤ 9)
    (hs : a.frac.length = 4) (d m : UInt32) (tmp : Int32) :
    ((scanAngle width a.text d m tmp).1.toNat, (scanAngle width a.text d m tmp).2.1.toNat) =
      a.pair := by
  have hm : (scanAngle width a.text d m tmp).2.1.toNat = a.m10000 :=
    (angleKept_iff a hw d m tmp).mpr (Or.inl (by omega))
  have hlt : digitsVal a.deg < 2 ^ 31 := by
    have := digitsVal_lt a.degDigits
    rw [a.degLength] at this
    exact this.trans_le ((Nat.pow_le_pow_right (by decide) hw').trans (by decide))
  rw [AngleField.pair, ← hm, a.scanAngle_text hw, saturate_of_lt hlt, Int32.ofInt_eq_ofNat,
    Int32.toUInt32_ofNat', UInt32.toNat_ofNat_of_lt' (by change _ < 4294967296; omega)]

/-- What a frame does to the two angles. -/
theorem position_step {g t : Receiver} {e : PositionFrame × Env} (h : positionStep g e = .ok t) :
    (∀ a ∈ e.1.lat, t.gpsData.lat = a.pair) ∧ (∀ a ∈ e.1.lon, t.gpsData.lon = a.pair) ∧
    (e.1.lat = none → t.gpsData.nsD = g.gpsData.nsD ∧
      t.gpsData.nsM10000 = g.gpsData.nsM10000 * 10000 + e.2.tmp.toUInt32) ∧
    (e.1.lon = none → t.gpsData.ewD = g.gpsData.ewD ∧
      t.gpsData.ewM10000 = g.gpsData.ewM10000 * 10000 +
        ((e.1.lat.map fun a => Int32.ofInt a.scanned).getD e.2.tmp).toUInt32) := by
  obtain ⟨f, x⟩ := e
  obtain ⟨r, hr, ht⟩ := bind_eq_ok.mp h
  obtain rfl := pure_eq_ok.mp ht
  obtain ⟨k, s, hfield, hh, hdata, -, hs, hrs, -⟩ := gprmc_of_frame f.header hr
  have hpresent := f.present
  have h₀ := hfield 0 (by omega)
  rw [hh] at h₀
  obtain ⟨latitude, longitude, lat, lon, h₃, h₅, hlat, hlon, hnd, hnm, hed, hem⟩ :=
    gpsGprmc_position h₀ hs
  obtain rfl := Except.ok.inj ((hfield 3 (by omega)).symm.trans h₃)
  obtain rfl := Except.ok.inj ((hfield 5 hpresent).symm.trans h₅)
  rw [f.latPiece, hdata] at hlat
  rw [f.lonPiece, hdata] at hlon
  have htmp : lat.2.2 = (f.lat.map fun a => Int32.ofInt a.scanned).getD x.tmp := by
    rw [hlat]
    cases f.lat with
    | none => rfl
    | some a => exact congrArg (·.2.2) (a.scanAngle_text (by decide) _ _ _)
  refine ⟨?_, ?_, ?_, ?_⟩
  · intro a ha
    rw [Option.mem_def.mp ha] at hlat
    rw [GpsData.lat, hrs, hnd, hnm, hlat]
    exact scanAngle_standard a (by decide) (by decide) (f.latStandard a ha) _ _ _
  · intro a ha
    rw [Option.mem_def.mp ha] at hlon
    rw [GpsData.lon, hrs, hed, hem, hlon]
    exact scanAngle_standard a (by decide) (by decide) (f.lonStandard a ha) _ _ _
  · intro hnone
    change f.lat = none at hnone
    rw [hnone] at hlat
    rw [hrs, hnd, hnm, hlat]
    exact ⟨rfl, rfl⟩
  · intro hnone
    change f.lon = none at hnone
    rw [hnone] at hlon
    rw [hrs, hed, hem, hlon, htmp]
    exact ⟨rfl, rfl⟩

theorem pair_toNat_inj {a b c d : UInt32} (h : (a.toNat, b.toNat) = (c.toNat, d.toNat)) :
    a = c ∧ b = d := by
  obtain ⟨h₁, h₂⟩ := Prod.mk.inj h
  exact ⟨UInt32.toNat_inj.mp h₁, UInt32.toNat_inj.mp h₂⟩

/-- One frame leaves the position as the law says exactly under the condition. -/
theorem recent_step {g t : Receiver} {e : PositionFrame × Env} (h : positionStep g e = .ok t) :
    Recent g [e] t ↔ Held g e := by
  obtain ⟨hlat, hlon, hnolat, hnolon⟩ := position_step h
  constructor
  · rintro ⟨hl, hr⟩
    refine ⟨?_, ?_⟩
    · intro hnone
      rw [List.map_singleton, hnone] at hl
      rw [← (hnolat hnone).2]
      exact (pair_toNat_inj hl).2
    · intro hnone
      rw [List.map_singleton, hnone] at hr
      rw [← (hnolon hnone).2]
      exact (pair_toNat_inj hr).2
  · rintro ⟨hl, hr⟩
    refine ⟨?_, ?_⟩
    · rw [List.map_singleton]
      cases ha : e.1.lat with
      | some a => exact hlat a ha
      | none =>
        obtain ⟨hd, hm⟩ := hnolat ha
        rw [GpsData.lat, hd, hm, hl ha]
        rfl
    · rw [List.map_singleton]
      cases ha : e.1.lon with
      | some a => exact hlon a ha
      | none =>
        obtain ⟨hd, hm⟩ := hnolon ha
        rw [GpsData.lon, hd, hm, hr ha]
        rfl

/-- Behind such a frame the law starts anew. -/
theorem recent_cons {g t u : Receiver} {e : PositionFrame × Env} {es : List (PositionFrame × Env)}
    (h : positionStep g e = .ok t) (hheld : Held g e) : Recent g (e :: es) u ↔ Recent t es u := by
  obtain ⟨hlat, hlon⟩ := (recent_step h).mpr hheld
  constructor
  · rintro ⟨hl, hr⟩
    exact ⟨by rw [hlat]; exact hl, by rw [hlon]; exact hr⟩
  · rintro ⟨hl, hr⟩
    rw [hlat] at hl
    rw [hlon] at hr
    exact ⟨hl, hr⟩

/-! ### Sequences of frames -/

/-- What the start and all the values have, the most recent one has. -/
theorem mostRecent_inv {α : Type} {P : α → Prop} {start : α} {l : List (Option α)} (hstart : P start)
    (hall : ∀ o ∈ l, ∀ a ∈ o, P a) : P (mostRecent start l) := by
  induction l generalizing start with
  | nil => exact hstart
  | cons o l ih =>
    refine ih ?_ fun o' ho' => hall o' (List.mem_cons_of_mem _ ho')
    cases o with
    | none => exact hstart
    | some a => exact hall (some a) List.mem_cons_self a rfl

/-- Minutes below 60 at the scale. -/
theorem m10000_lt {width : ℕ} {a : AngleField width} (h : a.minutes < 60) : a.m10000 < 600000 := by
  have hnonneg : 0 ≤ 10 ^ 4 * a.minutes := by
    unfold AngleField.minutes
    positivity
  refine (Nat.floor_lt hnonneg).mpr ?_
  push_cast
  linarith

/-- The most recent minutes are below 60 if all were. -/
theorem mostRecent_lt {width : ℕ} {es : List (PositionFrame × Env)} {start : ℕ × ℕ}
    {field : PositionFrame × Env → Option (AngleField width)} (hstart : start.2 < 600000)
    (hall : ∀ e ∈ es, ∀ a ∈ field e, a.minutes < 60) :
    (mostRecent start (es.map fun e => (field e).map AngleField.pair)).2 < 600000 := by
  refine mostRecent_inv (P := fun p : ℕ × ℕ => p.2 < 600000) hstart ?_
  intro o ho p hp
  obtain ⟨e, he, rfl⟩ := List.mem_map.mp ho
  obtain ⟨a, ha, rfl⟩ := Option.map_eq_some_iff.mp hp
  exact m10000_lt (hall e he a ha)

theorem positionLaw_of_recent {g s : Receiver} {es : List (PositionFrame × Env)}
    (h : Recent g es s) : PositionLaw g es s where
  toRecent := h
  latBound := by
    intro hg hall
    have hstart : g.gpsData.lat.2 < 600000 := UInt32.lt_iff_toNat_lt.mp hg
    have hlt := mostRecent_lt hstart hall
    rw [← h.lat] at hlt
    exact UInt32.lt_iff_toNat_lt.mpr hlt
  lonBound := by
    intro hg hall
    have hstart : g.gpsData.lon.2 < 600000 := UInt32.lt_iff_toNat_lt.mp hg
    have hlt := mostRecent_lt hstart hall
    rw [← h.lon] at hlt
    exact UInt32.lt_iff_toNat_lt.mpr hlt

/-- CORRECT: in a sequence of frames that is processed from any state, the position is that of the most
    recent frames with a fix after every frame if and only if all the frames meet the condition. -/
theorem position_iff {g s : Receiver} {es : List (PositionFrame × Env)}
    (h : run positionStep g es = .ok s) :
    (∀ pre t, pre <+: es → run positionStep g pre = .ok t → PositionLaw g pre t) ↔
      Meets positionStep Held g es := by
  rw [← prefixes_iff_meets (L := Recent) (fun _ => ⟨rfl, rfl⟩) recent_step recent_cons h]
  constructor
  · exact fun hlaw pre t hpre ht => (hlaw pre t hpre ht).toRecent
  · exact fun hlaw pre t hpre ht => positionLaw_of_recent (hlaw pre t hpre ht)

/-- A frame with a fix. -/
def fixedFrame : PositionFrame where
  body := ascii "GPRMC,,A,2307.1963,N,11316.2968,E,0.0,,081208,*16"
  fits := by decide
  plain := plain_of_all (by decide)
  asterisk := by decide
  valid := by decide
  header := by decide
  present := by decide
  lat := some sampleMinute
  lon := some sampleLongitude
  latPiece := by decide
  lonPiece := by decide
  latStandard := by rintro a ⟨⟩; rfl
  lonStandard := by rintro a ⟨⟩; rfl

/-- A frame without one. -/
def unfixedFrame : PositionFrame where
  body := ascii "GPRMC,,V,,,,,,,081208,*1E"
  fits := by decide
  plain := plain_of_all (by decide)
  asterisk := by decide
  valid := by decide
  header := by decide
  present := by decide
  lat := none
  lon := none
  latPiece := by decide
  lonPiece := by decide
  latStandard := by rintro a ⟨⟩
  lonStandard := by rintro a ⟨⟩

theorem positionStep_returns (g : Receiver) (x : Env) {f : PositionFrame} (hstar : byte '*' ∈ f.last)
    (hlow : 10 ≤ f.fields.length) (hhigh : f.fields.length ≤ 64) :
    ∃ t, positionStep g (f, x) = .ok t := by
  obtain ⟨r, hr⟩ := procGps_returns x (completes_of_ten g f.asterisk hstar hlow hhigh)
  exact ⟨r.1, bind_eq_ok.mpr ⟨r, hr, rfl⟩⟩

/-- Both angles are there. -/
theorem position_fixed : ∃ s, run positionStep Receiver.boot [(fixedFrame, benchEnv)] = .ok s ∧
    PositionLaw Receiver.boot [(fixedFrame, benchEnv)] s := by
  obtain ⟨s, hs⟩ := positionStep_returns Receiver.boot benchEnv (f := fixedFrame) (by decide)
    (by decide) (by decide)
  have hrun : run positionStep Receiver.boot [(fixedFrame, benchEnv)] = .ok s :=
    run_cons_ok.mpr ⟨s, hs, rfl⟩
  have hmeets : Meets positionStep Held Receiver.boot [(fixedFrame, benchEnv)] := by
    refine ⟨⟨?_, ?_⟩, fun _ _ => trivial⟩
    · rintro ⟨⟩
    · rintro ⟨⟩
  exact ⟨s, hrun, (position_iff hrun).mpr hmeets _ s (List.prefix_refl _) hrun⟩

/-- A frame without a fix behind it: the minutes are scaled once more. -/
theorem position_scaled_twice : ¬ ∀ (g s : Receiver) (es : List (PositionFrame × Env)),
    run positionStep g es = .ok s → PositionLaw g es s := by
  intro h
  obtain ⟨t, ht⟩ := positionStep_returns Receiver.boot benchEnv (f := fixedFrame) (by decide)
    (by decide) (by decide)
  obtain ⟨s, hs⟩ := positionStep_returns t benchEnv (f := unfixedFrame) (by decide) (by decide)
    (by decide)
  have hlat : t.gpsData.lat = sampleMinute.pair := (position_step ht).1 _ rfl
  have hlaw := (h t s [(unfixedFrame, benchEnv)] (run_cons_ok.mpr ⟨s, hs, rfl⟩)).toRecent
  have hheld := ((recent_step hs).mp hlaw).1 rfl
  have hm : sampleMinute.m10000 = 71963 := by
    rw [AngleField.m10000_eq]
    decide
  have hnm : t.gpsData.nsM10000 = 71963 := UInt32.toNat_inj.mp ((Prod.mk.inj hlat).2.trans hm)
  rw [hnm] at hheld
  exact absurd hheld (by decide)

end AcqBoard.Gps
