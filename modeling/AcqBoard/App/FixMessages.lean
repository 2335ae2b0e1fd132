import AcqBoard.App.Command
import AcqBoard.App.DataFile
import AcqBoard.Gps.Fixes

/-! The GPS records that the PC reads.

    On every start interrupt `MesgThread` gets a pointer to `gps_data`, deals with the data file, copies
    the record behind a header and sends both over a TCP link that has no framing of its own. This
    module follows the data the whole way: frames come in at the receiver at any time, messages go out
    to the PC, which has some first part of the bytes. What is sent is the record at the copy, not the
    one at the interrupt. `memcpy` is one step here, as is the processing of a frame. -/

namespace AcqBoard.App
open Schemes Gps

/-! ### The message -/

/-- `struct gps_data_t` in memory; `tm_zone`, `card`, `speed100` and `cog100` are never set. -/
def gpsBytes (d : GpsData) : List UInt8 :=
  le32 d.tmTime.sec.toUInt32 ++ le32 d.tmTime.min.toUInt32 ++ le32 d.tmTime.hour.toUInt32 ++
  le32 d.tmTime.mday.toUInt32 ++ le32 d.tmTime.mon.toUInt32 ++ le32 d.tmTime.year.toUInt32 ++
  List.replicate 4 0 ++
  le32 d.nsD ++ le32 d.nsM10000 ++ le32 d.ewD ++ le32 d.ewM10000 ++
  [d.ns] ++ [d.ew] ++ [d.status] ++ List.replicate 1 0 ++ List.replicate 8 0 ++
  le32 d.count ++ le32 d.heightD ++ le32 d.heightM

/-- `GpsTimeMesg`. -/
def gpsTimeMesg : UInt16 := 0x2005

/-- What `MesgThread` leaves in `s_pMesgBuff` and sends; the reserved word is never set. -/
def fixMessage (d : GpsData) : List UInt8 :=
  le16 gpsTimeMesg ++ le16 68 ++ le32 0 ++ gpsBytes d

/-! ### Reading it -/

/-- A half word in memory. -/
def halfCodec : Codec UInt16 where
  size := 2
  encode := le16
  decode bs := if bs.length = 2 then some (readLe16 bs) else none
  length_encode _ := rfl
  decode_encode x := by
    have h₀ : x.toUInt8.toNat = x.toNat % 256 := UInt16.toNat_toUInt8 x
    have h₁ : (x >>> 8).toUInt8.toNat = x.toNat / 256 % 256 := by
      rw [UInt16.toNat_toUInt8, UInt16.toNat_shiftRight, Nat.shiftRight_eq_div_pow]
      rfl
    have hlt := x.toNat_lt
    have hsum : x.toNat % 256 + 256 * (x.toNat / 256 % 256) = x.toNat := by omega
    have hlen : (le16 x).length = 2 := rfl
    rw [if_pos hlen, le16, readLe16]
    simp only [List.getD_cons_zero, List.getD_cons_succ]
    rw [h₀, h₁, hsum, UInt16.ofNat_toNat]

def tmCodec : Codec Tm :=
  (intCodec.pair <| intCodec.pair <| intCodec.pair <| intCodec.pair <| intCodec.pair <|
    intCodec.pair (.blank 4)).map
    (fun t => (t.sec, t.min, t.hour, t.mday, t.mon, t.year, ()))
    (fun (sec, min, hour, mday, mon, year, _) => { sec, min, hour, mday, mon, year })
    (fun _ => rfl)

def dataCodec : Codec GpsData :=
  (tmCodec.pair <| wordCodec.pair <| wordCodec.pair <| wordCodec.pair <| wordCodec.pair <|
    Codec.one.pair <| Codec.one.pair <| Codec.one.pair <| (Codec.blank 1).pair <| (Codec.blank 8).pair <|
      wordCodec.pair <| wordCodec.pair wordCodec).map
    (fun d => (d.tmTime, d.nsD, d.nsM10000, d.ewD, d.ewM10000, d.ns, d.ew, d.status, (), (), d.count,
      d.heightD, d.heightM))
    (fun (tmTime, nsD, nsM10000, ewD, ewM10000, ns, ew, status, _, _, count, heightD, heightM) =>
      { tmTime, nsD, nsM10000, ewD, ewM10000, ns, ew, status, count, heightD, heightM })
    (fun _ => rfl)

/-- A message of the PC link: a header, then the record. -/
def fixCodec : Codec GpsData :=
  (halfCodec.pair <| halfCodec.pair <| wordCodec.pair dataCodec).map
    (fun d => (gpsTimeMesg, 68, 0, d)) (fun (_, _, _, d) => d) (fun _ => rfl)

theorem fixMessage_eq (d : GpsData) : fixMessage d = fixCodec.encode d := by
  simp only [fixMessage, gpsBytes, List.append_assoc]
  rfl

/-! ### From the receiver to the PC -/

/-- What happens at the receiver and at `MesgThread`: a `$GPRMC` frame with standard angles, any other
    accepted frame, a start interrupt, the copy behind the data file, or the `send` behind the copy,
    which takes `accepted` bytes, none if it fails. -/
inductive FixEvent where
  | position (f : PositionFrame) (x : Env)
  | other (f : NmeaFrame) (x : Env)
  | startIrq
  | copy
  | send (accepted : ℕ)

/-- Where `MesgThread` is: in front of `read`, with the pointer, or with the record in
    `s_pMesgBuff`. -/
inductive MesgTurn (α : Type) where
  | waiting
  | pointed
  | copied (record : α)

/-- The receiver and `MesgThread`, the bytes on the link so far, and the records as they were copied
    of which a message went out. -/
structure FixLink where
  receiver : Receiver
  mesg : MesgTurn GpsData
  stream : List UInt8
  records : List GpsData

/-- A step of `MesgThread` whose turn it is not leaves everything as it is. -/
def fixStep (s : FixLink) : FixEvent → Except Gps.Fault FixLink
  | .position f x => do
    let r ← procGps s.receiver (f.input x)
    pure { s with receiver := r.1 }
  | .other f x => do
    let r ← procGps s.receiver (f.input x)
    pure { s with receiver := r.1 }
  | .startIrq =>
    match s.mesg with
    | .waiting => .ok { s with mesg := .pointed }
    | _ => .ok s
  | .copy =>
    match s.mesg with
    | .pointed => .ok { s with mesg := .copied s.receiver.gpsData }
    | _ => .ok s
  | .send accepted =>
    match s.mesg with
    | .copied record => .ok { s with
        mesg := .waiting
        stream := s.stream ++ (fixMessage record).take accepted
        records := if accepted = 0 then s.records else s.records ++ [record] }
    | _ => .ok s

/-- `send` takes the whole message or nothing. -/
def WholeSend (_ : FixLink) : FixEvent → Prop
  | .send accepted => accepted = 0 ∨ 76 ≤ accepted
  | _ => True

/-- Every `$GPRMC` frame has standard angles, and where one is empty its minutes are in a fixed point
    of the scaling. -/
def HeldFix (s : FixLink) : FixEvent → Prop
  | .position f x => Held s.receiver (f, x)
  | .other f _ => f.fields[0]? ≠ some (ascii "$GPRMC")
  | _ => True

/-! ### What is meant -/

/-- Degrees and scaled minutes, north and east. -/
abbrev Place := (ℕ × ℕ) × (ℕ × ℕ)

def placeOf (d : GpsData) : Place := (d.lat, d.lon)

/-- A frame replaces the angles it has. -/
def Place.next (p : Place) (f : PositionFrame) : Place :=
  ((f.lat.map AngleField.pair).getD p.1, (f.lon.map AngleField.pair).getD p.2)

/-- The same turn with another view of the record. -/
def MesgTurn.map {α β : Type} (f : α → β) : MesgTurn α → MesgTurn β
  | .waiting => .waiting
  | .pointed => .pointed
  | .copied record => .copied (f record)

/-- The positions that the PC is told: in every message the last one received before its copy. -/
def toldPlaces : Place → MesgTurn Place → List FixEvent → List Place
  | _, _, [] => []
  | p, m, .position f _ :: es => toldPlaces (p.next f) m es
  | p, m, .other .. :: es => toldPlaces p m es
  | p, .waiting, .startIrq :: es => toldPlaces p .pointed es
  | p, .pointed, .copy :: es => toldPlaces p (.copied p) es
  | p, .copied q, .send accepted :: es =>
    (if accepted = 0 then [] else [q]) ++ toldPlaces p .waiting es
  | p, m, _ :: es => toldPlaces p m es

/-! ### Other frames -/

theorem gpsGpgga_place {g h : Receiver} (hok : gpsGpgga g = .ok h) :
    placeOf h.gpsData = placeOf g.gpsData ∧ ∀ j, h.field j = g.field j := by
  obtain ⟨hbuff, hlist, -⟩ := gpsGpgga_ok hok
  refine ⟨?_, fun j => by rw [Receiver.field, Receiver.field, hbuff, hlist]⟩
  obtain ⟨header, -, hok⟩ := bind_eq_ok.mp hok
  split at hok
  · rw [← pure_eq_ok.mp hok]
  · obtain ⟨used, -, hok⟩ := bind_eq_ok.mp hok
    obtain ⟨height, -, hok⟩ := bind_eq_ok.mp hok
    rw [← pure_eq_ok.mp hok]
    rfl

/-- A frame that is no `$GPRMC` frame leaves the position as it is. -/
theorem procGps_other {g : Receiver} {x : Env} {f : NmeaFrame} {r : Receiver × List Int32}
    (hh : f.fields[0]? ≠ some (ascii "$GPRMC")) (hok : procGps g (f.input x) = .ok r) :
    placeOf r.1.gpsData = placeOf g.gpsData := by
  rw [procGps_input, frameEnd, gpsChecksum_loaded, if_pos f.asterisk, f.valid] at hok
  simp only [bind, Except.bind, Bool.not_true, Bool.false_eq_true, if_false] at hok
  obtain ⟨s, hs, hok⟩ := bind_eq_ok.mp hok
  obtain rfl := pure_eq_ok.mp hok
  change placeOf s.1.gpsData = _
  obtain ⟨hn, hstar, -⟩ := gpsProcFrame_completes.mp ⟨s, hs⟩
  obtain ⟨h, hl, hdata, -, heq⟩ := gpsProcFrame_cut g hn hstar
  rw [heq] at hs
  split at hs
  · rw [← Except.ok.inj hs, hdata]
  · rename_i hone
    obtain ⟨k, hk, hs⟩ := bind_eq_ok.mp hs
    obtain ⟨hplace, hfield⟩ := gpsGpgga_place hk
    have hpos := f.fields_pos
    obtain ⟨t, ht⟩ : ∃ t, f.fields[0]? = some t := ⟨_, List.getElem?_eq_getElem hpos⟩
    have h₀ : k.field 0 = .ok t := by
      rw [hfield, hl.field hpos, piece_of_lt ht (by omega)]
    have hne : t ≠ ascii "$GPRMC" := fun heq => hh (heq ▸ ht)
    rw [gpsGprmc, h₀] at hs
    simp only [bind, Except.bind, if_pos hne] at hs
    rw [← pure_eq_ok.mp hs, hplace, hdata]

theorem procGps_position {g : Receiver} {x : Env} {f : PositionFrame} {r : Receiver × List Int32}
    (hheld : Held g (f, x)) (hok : procGps g (f.input x) = .ok r) :
    placeOf r.1.gpsData = (placeOf g.gpsData).next f := by
  have hstep : positionStep g (f, x) = .ok r.1 := bind_eq_ok.mpr ⟨r, hok, rfl⟩
  obtain ⟨hlat, hlon⟩ := (recent_step hstep).mpr hheld
  exact Prod.ext hlat hlon

/-! ### Runs -/

section
variable {s t : FixLink} {es : List FixEvent}

/-- STEP: the bytes on the link are those of whole messages. -/
theorem stream_step {e : FixEvent} (hs : s.stream = s.records.flatMap fixCodec.encode)
    (hw : WholeSend s e) (h : fixStep s e = .ok t) :
    t.stream = t.records.flatMap fixCodec.encode := by
  cases e with
  | position f x =>
    obtain ⟨r, -, h⟩ := bind_eq_ok.mp h
    rw [← pure_eq_ok.mp h]
    exact hs
  | other f x =>
    obtain ⟨r, -, h⟩ := bind_eq_ok.mp h
    rw [← pure_eq_ok.mp h]
    exact hs
  | startIrq =>
    rw [fixStep] at h
    split at h
    · rw [← Except.ok.inj h]
      exact hs
    · rw [← Except.ok.inj h]
      exact hs
  | copy =>
    rw [fixStep] at h
    split at h
    · rw [← Except.ok.inj h]
      exact hs
    · rw [← Except.ok.inj h]
      exact hs
  | send accepted =>
    rw [fixStep] at h
    split at h
    · rename_i record hturn
      rw [← Except.ok.inj h]
      rcases hw with rfl | hw
      · simpa using hs
      · have hlen : (fixCodec.encode record).length ≤ accepted := by
          rw [fixCodec.length_encode]
          exact hw
        have hne : accepted ≠ 0 := by omega
        dsimp only
        rw [fixMessage_eq, List.take_of_length_le hlen, if_neg hne, hs, List.flatMap_append,
          List.flatMap_singleton]
    · rw [← Except.ok.inj h]
      exact hs

/-- RUN: the records are the ones meant, one for each message. -/
theorem records_run (hm : Meets fixStep HeldFix s es) (h : run fixStep s es = .ok t) :
    t.records.map placeOf = s.records.map placeOf ++
      toldPlaces (placeOf s.receiver.gpsData) (s.mesg.map placeOf) es := by
  induction es generalizing s with
  | nil =>
    obtain rfl : s = t := by simpa using h
    rw [toldPlaces, List.append_nil]
  | cons e es ih =>
    obtain ⟨u, hu, hrun⟩ := run_cons_ok.mp h
    rw [ih (hm.2 u hu) hrun]
    obtain ⟨receiver, mesg, stream, records⟩ := s
    cases e with
    | position f x =>
      obtain ⟨r, hr, hu⟩ := bind_eq_ok.mp hu
      obtain rfl := pure_eq_ok.mp hu
      dsimp only
      rw [procGps_position hm.1 hr, toldPlaces]
    | other f x =>
      obtain ⟨r, hr, hu⟩ := bind_eq_ok.mp hu
      obtain rfl := pure_eq_ok.mp hu
      dsimp only
      rw [procGps_other hm.1 hr, toldPlaces]
    | startIrq =>
      cases mesg with
      | waiting | pointed | copied record =>
        obtain rfl := Except.ok.inj hu
        rfl
    | copy =>
      cases mesg with
      | waiting | pointed | copied record =>
        obtain rfl := Except.ok.inj hu
        rfl
    | send accepted =>
      cases mesg with
      | waiting | pointed =>
        obtain rfl := Except.ok.inj hu
        rfl
      | copied record =>
        obtain rfl := Except.ok.inj hu
        dsimp only [MesgTurn.map, toldPlaces]
        split
        · rfl
        · rw [List.map_append, List.map_singleton, List.append_assoc]

end

/-- The link at the start. -/
def FixLink.start (g : Receiver) : FixLink := ⟨g, .waiting, [], []⟩

/-- CORRECT (messages): let every `send` take its message whole or fail. Then whatever first part of
    the bytes has reached the PC, it reads as many records as have arrived whole, each as it was when
    it was copied. If moreover every `$GPRMC` frame has standard angles and finds the minutes of an
    empty one in a fixed point of the scaling, the position in each is that of the last frames received
    before the copy. -/
theorem messages_tell {g : Receiver} {es : List FixEvent} {t : FixLink}
    (h : run fixStep (.start g) es = .ok t) (hw : Meets fixStep WholeSend (.start g) es)
    {bs : List UInt8} (hbs : bs <+: t.stream) :
    fixCodec.readAll bs = some (t.records.take (bs.length / 76)) ∧
      (Meets fixStep HeldFix (.start g) es →
        (t.records.take (bs.length / 76)).map placeOf =
          (toldPlaces (placeOf g.gpsData) .waiting es).take (bs.length / 76)) := by
  have hstream : t.stream = t.records.flatMap fixCodec.encode :=
    run_inv (P := fun s => s.stream = s.records.flatMap fixCodec.encode) stream_step rfl hw h
  refine ⟨fixCodec.readAll_cut (hstream ▸ hbs), fun hheld => ?_⟩
  rw [List.map_take, records_run hheld h]
  rfl

/-- A start interrupt, and a frame with a fix while the data file is made: the PC reads the fix. -/
theorem messages_tell_fix : ∃ t, run fixStep (.start Receiver.boot)
      [.startIrq, .position fixedFrame benchEnv, .copy, .send 76] = .ok t ∧
    fixCodec.readAll t.stream = some (t.records.take (t.stream.length / 76)) ∧
    (t.records.take (t.stream.length / 76)).map placeOf =
      [(sampleMinute.pair, sampleLongitude.pair)].take (t.stream.length / 76) := by
  obtain ⟨r, hr⟩ := procGps_returns benchEnv (completes_of_ten Receiver.boot fixedFrame.asterisk
    (by decide) (by decide) (by decide))
  obtain ⟨t, ht⟩ : ∃ t, run fixStep (.start Receiver.boot)
      [.startIrq, .position fixedFrame benchEnv, .copy, .send 76] = .ok t :=
    ⟨_, run_cons_ok.mpr ⟨_, rfl, run_cons_ok.mpr ⟨_, bind_eq_ok.mpr ⟨r, hr, rfl⟩, rfl⟩⟩⟩
  have hwhole : Meets fixStep WholeSend (.start Receiver.boot)
      [.startIrq, .position fixedFrame benchEnv, .copy, .send 76] :=
    ⟨trivial, fun _ _ => ⟨trivial, fun _ _ => ⟨trivial, fun _ _ =>
      ⟨Or.inr (Nat.le_refl 76), fun _ _ => trivial⟩⟩⟩⟩
  have hheld : Meets fixStep HeldFix (.start Receiver.boot)
      [.startIrq, .position fixedFrame benchEnv, .copy, .send 76] := by
    refine ⟨trivial, fun _ _ => ⟨⟨?_, ?_⟩, fun _ _ => ⟨trivial, fun _ _ =>
      ⟨trivial, fun _ _ => trivial⟩⟩⟩⟩
    · rintro ⟨⟩
    · rintro ⟨⟩
  obtain ⟨hread, hplaces⟩ := messages_tell ht hwhole List.prefix_rfl
  exact ⟨t, ht, hread, hplaces hheld⟩

end AcqBoard.App
