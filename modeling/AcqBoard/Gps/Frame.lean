import AcqBoard.Gps.State

/-! What becomes of a frame when its carriage return arrives: `gps_checksum`, and for a frame that
    passes it `gps_proc_frame` with `gps_gpgga` and `gps_gprmc`. -/

namespace AcqBoard.Gps
open Schemes

/-- A hexadecimal digit of `%X`. -/
def hexDigit (n : ℕ) : UInt8 := UInt8.ofNat (if n < 10 then 48 + n else 55 + n)

/-- `%02X` of an unsigned byte. -/
def hex2 (b : UInt8) : List UInt8 := [hexDigit (b.toNat / 16), hexDigit (b.toNat % 16)]

/-- `gps_checksum`: whether the checksum is wrong. -/
def gpsChecksum (b : Sbuff) : Except Fault Bool :=
  match b.strchr (byte '*') 0 with
  | none => .error .nullPointer
  | some ptr2 =>
    let cs := ((List.range (ptr2 - 1)).map fun i => b.mem (1 + i)).foldl (· ^^^ ·) 0
    .ok (decide ((hex2 cs).take 2 ≠ (b.cstr (ptr2 + 1)).take 2))

/-- What the loop of `gps_proc_frame` leaves. -/
structure Cut where
  sbuff : Sbuff
  cmdList : ℕ → Option ℕ
  i : ℕ
  ptr1 : ℕ

/-- The loop of `gps_proc_frame`, with room for `room` more entries in `cmd_list`. -/
def cmdLoop (b : Sbuff) (cmdList : ℕ → Option ℕ) (i ptr1 : ℕ) : ℕ → Except Fault Cut
  | 0 => .error .tableFull
  | room + 1 =>
    let cmdList := Function.update cmdList i (some ptr1)
    match b.strchr (byte ',') ptr1 with
    | none => .ok ⟨b, cmdList, i, ptr1⟩
    | some ptr2 => cmdLoop (b.nulAt ptr2) cmdList (i + 1) (ptr2 + 1) room

/-- `cmd_list[j]`, dereferenced. -/
def Receiver.field (g : Receiver) (j : ℕ) : Except Fault (List UInt8) :=
  match g.cmdList j with
  | none => .error .nullPointer
  | some p => .ok (g.sbuff.cstr p)

/-- A scanned value, stored in an `unsigned long` that keeps its value if it was not scanned. -/
def store (vs : List Int32) (k : ℕ) (old : UInt32) : UInt32 := (vs.map Int32.toUInt32).getD k old

def gpsGpgga (g : Receiver) : Except Fault Receiver := do
  let header ← g.field 0
  if header ≠ ascii "$GPGGA" then pure g else do
    let used ← g.field 7
    let count := if isDigit (used.headD 0) then
        store (sscanf [.int (some 2)] used) 0 g.gpsData.count
      else g.gpsData.count
    let height ← g.field 9
    let vs := sscanf [.int none, .lit (byte '.'), .int none] height
    pure { g with gpsData := { g.gpsData with
      count := count
      heightD := store vs 0 g.gpsData.heightD
      heightM := store vs 1 g.gpsData.heightM } }

/-- `tm_hour`, `tm_min`, `tm_sec` from a scan. -/
def Tm.setTime (t : Tm) (vs : List Int32) : Tm :=
  { t with hour := vs.getD 0 t.hour, min := vs.getD 1 t.min, sec := vs.getD 2 t.sec }

/-- `tm_mday`, `tm_mon` from a scan. -/
def Tm.setDate (t : Tm) (vs : List Int32) : Tm :=
  { t with mday := vs.getD 0 t.mday, mon := vs.getD 1 t.mon }

/-- Degrees, ten-thousandths of minutes and the local `tmp`, from a field `%..ld%02ld.%04d`. -/
def scanAngle (width : ℕ) (f : List UInt8) (d m10000 : UInt32) (tmp : Int32) :
    UInt32 × UInt32 × Int32 :=
  let vs := if isDigit (f.headD 0) then
      sscanf [.int (some width), .int (some 2), .lit (byte '.'), .int (some 4)] f
    else []
  let tmp := vs.getD 2 tmp
  (store vs 0 d, store vs 1 m10000 * 10000 + tmp.toUInt32, tmp)

/-- The part of `gps_gprmc` that sets the two times and the clock: the state, and the second it calls
    `settimeofday` with, if it does. -/
def gprmcClock (g : Receiver) (x : Env) (time : List UInt8) (date : Option (List UInt8)) :
    Receiver × List Int32 :=
  let ts := if isDigit (time.headD 0) then sscanf threePairs time else []
  let ds := (date.map (sscanf threePairs)).getD []
  let year := ds.getD 2 x.year + 2000
  let own := { (Tm.zero.setTime ts).setDate ds with year := year }
  let t := (g.tmTime.setTime ts).setDate ds
  let made := mktime { t with year := year - 1900, mon := t.mon - 1 }
  let tmg := made.1
  ({ g with gpsData := { g.gpsData with tmTime := own }, tmTime := made.2 },
    if x.now.toUInt32 &&& 0xffffffc0 ≠ tmg.toUInt32 &&& 0xffffffc0 then [tmg] else [])

/-- The date field; it is read if the speed field begins with a digit. -/
def gprmcDate (g : Receiver) (speed : List UInt8) : Except Fault (Option (List UInt8)) :=
  if isDigit (speed.headD 0) then do
    let date ← g.field 9
    pure (some date)
  else pure none

/-- `gps_gprmc`. -/
def gpsGprmc (g : Receiver) (x : Env) : Except Fault (Receiver × List Int32) := do
  let header ← g.field 0
  if header ≠ ascii "$GPRMC" then pure (g, []) else do
    let time ← g.field 1
    let speed ← g.field 7
    let date ← gprmcDate g speed
    let r := gprmcClock g x time date
    let d := r.1.gpsData
    let latitude ← g.field 3
    let lat := scanAngle 2 latitude d.nsD d.nsM10000 x.tmp
    let longitude ← g.field 5
    let lon := scanAngle 3 longitude d.ewD d.ewM10000 lat.2.2
    let ns ← g.field 4
    let ew ← g.field 6
    let status ← g.field 2
    pure ({ r.1 with gpsData := { d with
      nsD := lat.1, nsM10000 := lat.2.1, ewD := lon.1, ewM10000 := lon.2.1
      ns := ns.headD 0, ew := ew.headD 0, status := status.headD 0 } }, r.2)

/-- `gps_proc_frame` up to the handlers, and whether they are called. -/
def cutFrame (g : Receiver) : Except Fault (Receiver × Bool) := do
  let c ← cmdLoop g.sbuff g.cmdList 0 0 64
  match c.sbuff.strchr (byte '*') c.ptr1 with
  | none => .error .nullPointer
  | some ptr1 =>
    let g := { g with sbuff := c.sbuff.nulAt ptr1, cmdList := c.cmdList }
    if c.i = 0 then pure (g, false) else pure ({ g with cmdCount := c.i + 1 }, true)

/-- `gps_proc_frame`. -/
def gpsProcFrame (g : Receiver) (x : Env) : Except Fault (Receiver × List Int32) := do
  let r ← cutFrame g
  if r.2 then do
    let g ← gpsGpgga r.1
    gpsGprmc g x
  else pure (r.1, [])

/-- `proc_gps` at a carriage return. -/
def frameEnd (g : Receiver) (x : Env) : Except Fault (Receiver × List Int32) := do
  let wrong ← gpsChecksum g.sbuff
  if wrong then pure ({ g with sIndex := -1 }, []) else do
    let r ← gpsProcFrame g x
    pure ({ r.1 with sIndex := -1 }, r.2)

/-- `proc_gps` on one byte: the state, and the seconds it calls `settimeofday` with. -/
def gpsByte (g : Receiver) (x : Env) (b : UInt8) : Except Fault (Receiver × List Int32) :=
  if b = byte '$' then
    .ok ({ g with sbuff := g.sbuff.put 0 b (by decide), sIndex := 1 }, [])
  else if g.sIndex = -1 then .ok (g, [])
  else if b = 13 then frameEnd g x
  else if h : 0 ≤ g.sIndex ∧ g.sIndex + 1 < 256 then
    .ok ({ g with sbuff := g.sbuff.put g.sIndex.toNat b (by omega), sIndex := g.sIndex + 1 }, [])
  else .error .overflow

/-- `proc_gps` on a buffer; each byte finds its own surroundings. -/
def procGps : Receiver → List (UInt8 × Env) → Except Fault (Receiver × List Int32)
  | g, [] => .ok (g, [])
  | g, (b, x) :: buff => do
    let r ← gpsByte g x b
    let s ← procGps r.1 buff
    pure (s.1, r.2 ++ s.2)

end AcqBoard.Gps
