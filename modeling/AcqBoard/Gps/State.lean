import AcqBoard.Schemes.CString
import AcqBoard.Schemes.Scanf
import AcqBoard.Schemes.Calendar
import AcqBoard.Schemes.Run

/-! The state of the GPS receiver: the globals of `gps.c`.

    The globals that only report progress (`s_gpsOK_1`, `s_gpsOK_2`), the fields of `gps_data` that are
    never set, and the two options that no caller sets (`gps_debug`, `timesync`) are left out. `char`
    is unsigned and `long` and `time_t` have 32 bits, as on the board's ARM.

    A pointer into `sbuff` is its offset; a null pointer is `none`. -/

namespace AcqBoard.Gps
open Schemes

/-- Undefined behaviours of `gps.c`. -/
inductive Fault where
  | overflow     -- a write to `sbuff` at an index of 256 or more
  | tableFull    -- a write to `cmd_list` at an index of 64 or more
  | nullPointer  -- a null pointer dereferenced
  deriving DecidableEq

/-- `sbuff`. Data bytes are only written where a NUL fits behind them, so that the last byte stays
    NUL and every string in it ends in it. -/
structure Sbuff where
  mem : ℕ → UInt8
  last : mem 255 = 0

/-- A NUL over the byte at `p`. -/
def Sbuff.nulAt (b : Sbuff) (p : ℕ) : Sbuff where
  mem := Schemes.nulAt b.mem p
  last := by
    by_cases hp : 255 = p
    · rw [hp]; exact nulAt_self _ _
    · rw [nulAt_ne hp]; exact b.last

/-- A byte at `p` and a NUL behind it. -/
def Sbuff.put (b : Sbuff) (p : ℕ) (v : UInt8) (h : p + 1 < 256) : Sbuff where
  mem := Function.update (Function.update b.mem p v) (p + 1) 0
  last := by
    by_cases hp : 255 = p + 1
    · rw [hp]; exact Function.update_self _ _ _
    · rw [Function.update_of_ne hp, Function.update_of_ne (by omega)]; exact b.last

theorem Sbuff.put_self (b : Sbuff) {p : ℕ} (v : UInt8) (h : p + 1 < 256) :
    (b.put p v h).mem p = v :=
  (Function.update_of_ne (Nat.ne_of_lt (Nat.lt_succ_self p)) _ _).trans (Function.update_self _ _ _)

theorem Sbuff.put_nul (b : Sbuff) {p : ℕ} (v : UInt8) (h : p + 1 < 256) :
    (b.put p v h).mem (p + 1) = 0 := Function.update_self _ _ _

theorem Sbuff.put_lt (b : Sbuff) {p q : ℕ} (v : UInt8) (h : p + 1 < 256) (hq : q < p) :
    (b.put p v h).mem q = b.mem q :=
  (Function.update_of_ne (by omega) _ _).trans (Function.update_of_ne (by omega) _ _)

/-- A string and its NUL over the first bytes. -/
def Sbuff.load (b : Sbuff) (s : List UInt8) (h : s.length < 256) : Sbuff where
  mem := Schemes.load b.mem 0 s
  last := by
    by_cases hs : 0 + s.length = 255
    · rw [← hs]; exact load_end s 0
    · rw [load_gt (by omega)]; exact b.last

theorem Sbuff.ext {b c : Sbuff} (h : b.mem = c.mem) : b = c := by
  cases b; cases c; cases h; rfl

/-- The string at `p`. -/
def Sbuff.cstr (b : Sbuff) (p : ℕ) : List UInt8 := Schemes.cstr b.mem p (256 - p)

def Sbuff.strchr (b : Sbuff) (c : UInt8) (p : ℕ) : Option ℕ := Schemes.strchr b.mem c p (256 - p)

/-- The fields that `struct tm` and `struct MyTm` share. -/
structure Tm where
  sec : Int32
  min : Int32
  hour : Int32
  mday : Int32
  mon : Int32
  year : Int32

/-- `struct gps_data_t`. -/
structure GpsData where
  tmTime : Tm
  nsD : UInt32
  nsM10000 : UInt32
  ewD : UInt32
  ewM10000 : UInt32
  ns : UInt8
  ew : UInt8
  status : UInt8
  count : UInt32
  heightD : UInt32
  heightM : UInt32

/-- Globals of `gps.c`. -/
structure Receiver where
  sbuff : Sbuff
  sIndex : ℤ
  cmdList : ℕ → Option ℕ
  cmdCount : ℕ
  gpsData : GpsData
  tmTime : Tm

/-- What a call of `gps_gprmc` finds outside the globals: the second that `gettimeofday` returns, and
    what its uninitialised locals hold. -/
structure Env where
  now : Int32
  year : Int32
  tmp : Int32

def Tm.zero : Tm := ⟨0, 0, 0, 0, 0, 0⟩

/-- The static initial values. -/
def Receiver.boot : Receiver where
  sbuff := ⟨fun _ => 0, rfl⟩
  sIndex := -1
  cmdList := fun _ => none
  cmdCount := 0
  gpsData := ⟨Tm.zero, 0, 0, 0, 0, 0, 0, 0, 0, 0, 0⟩
  tmTime := Tm.zero

/-! ### `mktime` -/

/-- The UTC second that the fields denote. -/
def Tm.seconds (t : Tm) : ℤ :=
  utcSeconds (1900 + t.year.toInt) t.mon.toInt t.mday.toInt t.hour.toInt t.min.toInt t.sec.toInt

/-- The fields of a UTC second, in their ranges. -/
def gmtime (s : ℤ) : Tm :=
  let (y, m, d) := civilFromDays (s / 86400)
  { sec := Int32.ofInt (s % 60)
    min := Int32.ofInt (s / 60 % 60)
    hour := Int32.ofInt (s / 3600 % 24)
    mday := Int32.ofInt d
    mon := Int32.ofInt (m - 1)
    year := Int32.ofInt (y - 1900) }

/-- `mktime` in UTC: the second and the fields brought into their ranges, or -1 and the fields as they
    are if a 32-bit `time_t` cannot hold the second. -/
def mktime (t : Tm) : Int32 × Tm :=
  if -2 ^ 31 ≤ t.seconds ∧ t.seconds < 2 ^ 31 then (Int32.ofInt t.seconds, gmtime t.seconds)
  else (-1, t)

end AcqBoard.Gps
