import AcqBoard.Driver.XfifoDma
import AcqBoard.Schemes.Word

/-! One call of `xfifo_dma_read` or `xfifo_dma_write` from its entry to its exit.

    `lseek` moves a 64-bit position; a call narrows it to an `int`, adds it to the 32-bit bus address
    of the device and programs one transfer of at most `fifo_depth` bytes from there. Then it sleeps
    until a callback has cleared `busy` or a signal comes, and does not look which of them it was.

        lock -> buffer -> channel -> program, unlock -> wait -> copy -> give the channel back
         |        |          |
        -EINTR  -ENOMEM    -EBUSY

    What the kernel answers along the way is an argument of the call. Who owns which buffer is the
    matter of the interleaved model; here the call is alone. -/

namespace AcqBoard.Driver
open Schemes

/-- The memory resource of the platform device, from the device tree: its first and last address. -/
structure Resource where
  start : UInt32
  stop : UInt32
  le : start ≤ stop

/-- The size of the device window. -/
def Resource.size (r : Resource) : ℕ := r.stop.toNat - r.start.toNat + 1

/-- The device behind `probe`, with the mutex and the channel. -/
structure Xfifo extends XfifoDmaDev where
  resource : Resource
  writes : UInt32
  mutex : Bool     -- held by the call
  channel : Bool   -- given to the call
  depth : fifoDepth ≤ 65536

/-- `xfifo_dma_probe`: the depth of the device tree is overwritten. -/
def xfifoDmaProbe (r : Resource) (ofNode : Bool) : Xfifo where
  fifoDepth := if ofNode then 65536 else 0
  buffer := ⟨0, 0⟩
  count := 0
  busy := false
  bytesWritten := 0
  errors := 0
  resource := r
  writes := 0
  mutex := false
  channel := false
  depth := by cases ofNode <;> decide

def Xfifo.devPhysaddr (x : Xfifo) : UInt32 := x.resource.start

inductive DmaMode where
  | read
  | write
  deriving DecidableEq

/-- The transfer that is programmed into the controller. -/
structure Dma where
  mode : DmaMode
  dmaAddr : UInt32
  dmaCount : ℕ
  devAddr : UInt32
  incrDevAddr : Bool

/-- What ends the wait. -/
inductive Ending where
  | done
  | fault
  | signal
  deriving DecidableEq

/-- What the kernel and the controller answer to one call. -/
structure Answers where
  locked : Bool            -- `mutex_lock_interruptible` returned 0
  buffer : DmaBuffer       -- of `dma_alloc_coherent`, null without memory
  requestOk : Bool         -- `request_dma` returned 0
  ending : Ending
  data : ℕ → UInt8         -- the DMA buffer at the end of the wait
  notCopied : ℕ            -- what `copy_to_user` returned

/-- A call at its exit: the device, the return value, the user's buffer and the transfer. -/
structure Outcome where
  dev : Xfifo
  ret : Int32
  user : ℕ → UInt8
  programmed : Option Dma

/-- `xfifo_dma_lseek`: the position and the return value. A sum past `2^63` wraps to a negative one. -/
def xfifoDmaLseek (fPos off : Int64) (whence : Int32) : Int64 × Int64 :=
  match (if whence = 0 then some off else if whence = 1 then some (fPos + off) else none) with
  | none => (fPos, -22)
  | some newpos => if newpos < 0 then (fPos, -22) else (newpos, newpos)

/-- The position after a sequence of `lseek` calls on a file that was just opened. -/
def lseeks (cs : List (Int64 × Int32)) : Int64 := cs.foldl (fun p c => (xfifoDmaLseek p c.1 c.2).1) 0

/-- `count`, clamped to the depth. -/
def Xfifo.transferSize (x : Xfifo) (count : UInt32) : ℕ :=
  if count.toNat > x.fifoDepth then x.fifoDepth else count.toNat

/-- The mutex section of both calls: the transfer, or the error of one of the two `goto` paths. -/
def Xfifo.setup (x : Xfifo) (mode : DmaMode) (fPos : Int64) (count : UInt32) (e : Answers) :
    Xfifo × Except Int32 Dma :=
  let x := { x with mutex := true, buffer := e.buffer }
  if e.buffer.vAddr = 0 then ({ x with mutex := false }, .error (-12))  -- `-ENOMEM`
  else if e.requestOk = false then ({ x with mutex := false }, .error (-16))  -- `-EBUSY`
  else
    let n := x.transferSize count
    let fpos := fPos.toInt32
    ({ x with channel := true, busy := true, count := n, mutex := false },
      .ok ⟨mode, e.buffer.dAddr, n, x.devPhysaddr + fpos.toUInt32, mode = .read⟩)

/-- The wait. Both callbacks clear `busy`; a signal does not. -/
def Xfifo.wait (x : Xfifo) : Ending → Xfifo
  | .done => { x with toXfifoDmaDev := xfifoDmaDoneCallback x.toXfifoDmaDev, depth := x.depth }
  | .fault => { x with toXfifoDmaDev := xfifoDmaFaultCallback x.toXfifoDmaDev, depth := x.depth }
  | .signal => x

/-- `copy_to_user`, which returns how much it left out. -/
def copyToUser (user data : ℕ → UInt8) (n notCopied : ℕ) : ℕ → UInt8 :=
  fun i => if i < n - notCopied then data i else user i

def xfifoDmaRead (x : Xfifo) (fPos : Int64) (user : ℕ → UInt8) (count : UInt32) (e : Answers) :
    Outcome :=
  if e.locked = false then ⟨x, -4, user, none⟩  -- `-EINTR`
  else
    match x.setup .read fPos count e with
    | (x, .error retval) => ⟨x, retval, user, none⟩
    | (x, .ok d) => ⟨{ x.wait e.ending with channel := false }, Int32.ofNat d.dmaCount,
        copyToUser user e.data d.dmaCount e.notCopied, some d⟩

def xfifoDmaWrite (x : Xfifo) (fPos : Int64) (user : ℕ → UInt8) (count : UInt32) (e : Answers) :
    Outcome :=
  if e.locked = false then ⟨x, -4, user, none⟩
  else
    match { x with writes := x.writes + 1 }.setup .write fPos count e with
    | (x, .error retval) => ⟨x, retval, user, none⟩
    | (x, .ok d) =>
      ⟨{ x.wait e.ending with channel := false }, Int32.ofNat d.dmaCount, user, some d⟩

/-- The call gets as far as the transfer. -/
def Answers.Granted (e : Answers) : Prop :=
  e.locked = true ∧ e.buffer.vAddr ≠ 0 ∧ e.requestOk = true

instance (e : Answers) : Decidable e.Granted := inferInstanceAs (Decidable (_ ∧ _ ∧ _))

/-- The transfer of a call that is granted one. -/
def Xfifo.dma (x : Xfifo) (mode : DmaMode) (fPos : Int64) (count : UInt32) (e : Answers) : Dma :=
  ⟨mode, e.buffer.dAddr, x.transferSize count, x.devPhysaddr + fPos.toInt32.toUInt32, mode = .read⟩

section
variable {x : Xfifo} {fPos : Int64} {user : ℕ → UInt8} {count : UInt32} {e : Answers}

theorem setup_granted (he : e.Granted) (mode : DmaMode) : x.setup mode fPos count e =
    ({ x with buffer := e.buffer, channel := true, busy := true, count := x.transferSize count,
              mutex := false }, .ok (x.dma mode fPos count e)) := by
  obtain ⟨-, hb, hr⟩ := he
  simp only [Xfifo.setup, if_neg hb, hr, Bool.true_eq_false, if_false]
  rfl

variable (x fPos count) in
/-- Both `goto` paths unlock the mutex. -/
theorem setup_refused (hl : e.locked = true) (he : ¬ e.Granted) (mode : DmaMode) :
    ∃ retval : Int32, retval.toInt < 0 ∧
      x.setup mode fPos count e = ({ x with buffer := e.buffer, mutex := false }, .error retval) := by
  by_cases hb : e.buffer.vAddr = 0
  · refine ⟨-12, by decide, ?_⟩
    simp only [Xfifo.setup, if_pos hb]
  · have hr : e.requestOk = false := by
      by_contra hr
      exact he ⟨hl, hb, eq_true_of_ne_false hr⟩
    refine ⟨-16, by decide, ?_⟩
    simp only [Xfifo.setup, if_neg hb, if_pos hr]

theorem read_granted (he : e.Granted) : xfifoDmaRead x fPos user count e =
    ⟨{ { x with buffer := e.buffer, channel := true, busy := true, count := x.transferSize count,
                mutex := false : Xfifo }.wait e.ending with channel := false },
      Int32.ofNat (x.transferSize count),
      copyToUser user e.data (x.transferSize count) e.notCopied, some (x.dma .read fPos count e)⟩ := by
  rw [xfifoDmaRead, if_neg (by simp [he.1]), setup_granted he]
  rfl

variable (x fPos user count) in
/-- A refused call programs nothing, leaves the user's buffer and says so. -/
theorem read_refused (he : ¬ e.Granted) : ∃ (buffer : DmaBuffer) (mutex : Bool) (retval : Int32),
    (x.mutex = false → mutex = false) ∧ retval.toInt < 0 ∧
      xfifoDmaRead x fPos user count e =
        ⟨{ x with buffer := buffer, mutex := mutex }, retval, user, none⟩ := by
  by_cases hl : e.locked = false
  · exact ⟨x.buffer, x.mutex, -4, id, by decide, by rw [xfifoDmaRead, if_pos hl]⟩
  · obtain ⟨retval, hneg, hsetup⟩ := setup_refused x fPos count
      (eq_true_of_ne_false hl) he .read
    exact ⟨e.buffer, false, retval, fun _ => rfl, hneg, by rw [xfifoDmaRead, if_neg hl, hsetup]⟩

theorem write_programmed : (xfifoDmaWrite x fPos user count e).programmed =
    if e.Granted then some (x.dma .write fPos count e) else none := by
  by_cases hl : e.locked = false
  · rw [xfifoDmaWrite, if_pos hl, if_neg (fun he : e.Granted => by simp [he.1] at hl)]
  · rw [xfifoDmaWrite, if_neg hl]
    by_cases he : e.Granted
    · rw [setup_granted he, if_pos he]
      rfl
    · obtain ⟨retval, -, hsetup⟩ := setup_refused { x with writes := x.writes + 1 }
        fPos count (eq_true_of_ne_false hl) he .write
      rw [hsetup, if_neg he]

theorem read_programmed : (xfifoDmaRead x fPos user count e).programmed =
    if e.Granted then some (x.dma .read fPos count e) else none := by
  by_cases he : e.Granted
  · rw [read_granted he, if_pos he]
  · obtain ⟨buffer, mutex, retval, -, -, hread⟩ := read_refused x fPos user count he
    rw [hread, if_neg he]

end

/-! ### The same call among others -/

/-- The steps of the interleaved model that one call takes. -/
def labels (count : UInt32) (e : Answers) : List (ReadLabel Unit) :=
  if e.locked = false then [.interrupted ()]
  else if e.buffer.vAddr = 0 then [.noMemory () e.buffer.dAddr]
  else if e.requestOk = false then [.enter () count.toNat e.buffer false]
  else .enter () count.toNat e.buffer true :: match e.ending with
    | .done => [.callback false, .wake () false]
    | .fault => [.callback true, .wake () false]
    | .signal => [.wake () true]

section
variable {x : Xfifo} {fPos : Int64} {user : ℕ → UInt8} {count : UInt32} {e : Answers}

theorem transferSize_eq (x : Xfifo) (count : UInt32) :
    x.transferSize count = min count.toNat x.fifoDepth := by
  unfold Xfifo.transferSize
  split <;> omega

theorem transferSize_le (x : Xfifo) (count : UInt32) : x.transferSize count ≤ 65536 := by
  have hdepth := x.depth
  rw [transferSize_eq]
  omega

theorem toInt_transferSize (x : Xfifo) (count : UInt32) :
    (Int32.ofNat (x.transferSize count)).toInt = x.transferSize count :=
  Int32.toInt_ofNat_of_lt (by have := transferSize_le x count; omega)

theorem enter_alone (dev : XfifoDmaDev) (count : ℕ) {b : DmaBuffer} (hb : b.vAddr ≠ 0)
    (requestOk : Bool) : readStep (Readers.init dev : Readers Unit) (.enter () count b requestOk) =
      .ok ((Readers.init dev).request () (min count dev.fifoDepth) b requestOk) :=
  enabled_eq_ok.mpr ⟨⟨rfl, ⟨hb, fun _ hc => absurd hc (by simp [Readers.init])⟩, fun _ => rfl⟩, rfl⟩

/-- A call that is alone is the only call of an interleaving: it leaves the same device and returns
    the same value. -/
theorem xfifoDmaRead_alone (x : Xfifo) (fPos : Int64) (user : ℕ → UInt8) (count : UInt32)
    (e : Answers) : ∃ s, run readStep (Readers.init x.toXfifoDmaDev) (labels count e) = .ok s ∧
      s.dev = (xfifoDmaRead x fPos user count e).dev.toXfifoDmaDev ∧
      s.calls () = .returned (xfifoDmaRead x fPos user count e).ret.toInt := by
  by_cases hl : e.locked = false
  · rw [labels, if_pos hl, xfifoDmaRead, if_pos hl]
    exact ⟨_, rfl, rfl, rfl⟩
  rw [labels, if_neg hl]
  by_cases hb : e.buffer.vAddr = 0
  · rw [if_pos hb, xfifoDmaRead, if_neg hl]
    simp only [Xfifo.setup, if_pos hb]
    refine ⟨_, rfl, ?_, rfl⟩
    change { x.toXfifoDmaDev with buffer := ⟨0, e.buffer.dAddr⟩ } = _
    rw [← hb]
  rw [if_neg hb]
  by_cases hr : e.requestOk = false
  · rw [if_pos hr, xfifoDmaRead, if_neg hl]
    simp only [Xfifo.setup, if_neg hb, if_pos hr, run_cons, enter_alone _ _ hb]
    exact ⟨_, rfl, rfl, rfl⟩
  have hsize := transferSize_eq x count
  rw [if_neg hr, read_granted ⟨eq_true_of_ne_false hl, hb, eq_true_of_ne_false hr⟩, run_cons,
    enter_alone _ _ hb, toInt_transferSize, hsize]
  cases e.ending with
  | done => exact ⟨_, rfl, rfl, rfl⟩
  | fault => exact ⟨_, rfl, rfl, rfl⟩
  | signal => exact ⟨_, rfl, rfl, rfl⟩

end

/-! ### The window -/

/-- The addresses of a transfer that counts up are in the window. -/
def Dma.Inside (d : Dma) (r : Resource) : Prop :=
  ∀ a, d.devAddr.toNat ≤ a → a < d.devAddr.toNat + d.dmaCount →
    r.start.toNat ≤ a ∧ a < r.start.toNat + r.size

/-- The first address of a transfer is in the window. -/
def Dma.StartsInside (d : Dma) (r : Resource) : Prop :=
  r.start.toNat ≤ d.devAddr.toNat ∧ d.devAddr.toNat < r.start.toNat + r.size

/-- The low 32 bits of the position: what is added to the address. -/
def offset (fPos : Int64) : ℕ := fPos.toInt.toNat % 2 ^ 32

section
variable {x : Xfifo} {fPos : Int64} {count : UInt32} {e : Answers}

theorem Resource.end_le (r : Resource) : r.start.toNat + r.size ≤ 2 ^ 32 := by
  have hle := UInt32.le_iff_toNat_le.mp r.le
  have hlt := r.stop.toNat_lt
  unfold Resource.size
  omega

/-- Step lemma: `lseek` refuses to make the position negative. -/
theorem xfifoDmaLseek_nonneg {off : Int64} {whence : Int32} (h : 0 ≤ fPos.toInt) :
    0 ≤ (xfifoDmaLseek fPos off whence).1.toInt := by
  rw [xfifoDmaLseek]
  split
  · exact h
  · split
    · exact h
    · rename_i newpos _ hneg
      rw [Int64.lt_iff_toInt_lt] at hneg
      exact Int.not_lt.mp hneg

/-- Run lemma. -/
theorem lseeks_nonneg (cs : List (Int64 × Int32)) : 0 ≤ (lseeks cs).toInt := by
  have hrun : ∀ p : Int64, 0 ≤ p.toInt →
      0 ≤ (cs.foldl (fun p c => (xfifoDmaLseek p c.1 c.2).1) p).toInt := by
    induction cs with
    | nil => exact fun p hp => hp
    | cons c cs ih => exact fun p hp => ih _ (xfifoDmaLseek_nonneg hp)
  exact hrun 0 (Int.le_refl 0)

theorem toNat_narrow_pos (h : 0 ≤ fPos.toInt) : fPos.toInt32.toUInt32.toNat = offset fPos := by
  have hsigned := toInt_toInt32 fPos.toInt32.toUInt32
  rw [Int32.toInt32_toUInt32, Int64.toInt_toInt32, Int.bmod_def] at hsigned
  have hlt := fPos.toInt32.toUInt32.toNat_lt
  unfold offset
  split at hsigned <;> split at hsigned <;> omega

variable (x count e) in
/-- The sum wraps to below the window, or it is the offset into it. -/
theorem toNat_devAddr (h : 0 ≤ fPos.toInt) (mode : DmaMode) :
    (x.dma mode fPos count e).devAddr.toNat =
      (x.resource.start.toNat + offset fPos) % 2 ^ 32 := by
  rw [Xfifo.dma, UInt32.toNat_add, toNat_narrow_pos h]
  rfl

theorem dma_inside_iff (h : 0 ≤ fPos.toInt) (mode : DmaMode) :
    (x.dma mode fPos count e).Inside x.resource ↔
      x.transferSize count = 0 ∨ offset fPos + x.transferSize count ≤ x.resource.size := by
  have hend := x.resource.end_le
  have hoff : offset fPos < 2 ^ 32 := Nat.mod_lt _ (by decide)
  have haddr := toNat_devAddr x count e h mode
  have hcount : (x.dma mode fPos count e).dmaCount = x.transferSize count := rfl
  rw [Dma.Inside, hcount, haddr]
  constructor
  · intro hin
    by_contra hout
    have hfirst := hin _ (Nat.le_refl _) (by omega)
    have hlast := hin ((x.resource.start.toNat + offset fPos) % 2 ^ 32 + x.transferSize count - 1)
      (by omega) (by omega)
    omega
  · intro hfit a ha hlt
    omega

variable (count e) in
theorem dma_startsInside_iff (h : 0 ≤ fPos.toInt) (mode : DmaMode) :
    (x.dma mode fPos count e).StartsInside x.resource ↔ offset fPos < x.resource.size := by
  have hend := x.resource.end_le
  have hoff : offset fPos < 2 ^ 32 := Nat.mod_lt _ (by decide)
  rw [Dma.StartsInside, toNat_devAddr x count e h mode]
  omega

end

/-- CORRECT (window): after every sequence of `lseek` calls, a read programs a range in the device
    window exactly if the low 32 bits of the position and the clamped size fit into it together, and
    a write starts there exactly if those bits do; or the call programs nothing. -/
theorem xfifoDma_window_iff (x : Xfifo) (cs : List (Int64 × Int32)) (user : ℕ → UInt8)
    (count : UInt32) (e : Answers) :
    ((∀ d, (xfifoDmaRead x (lseeks cs) user count e).programmed = some d → d.Inside x.resource) ↔
      ¬ e.Granted ∨ min count.toNat x.fifoDepth = 0 ∨
        offset (lseeks cs) + min count.toNat x.fifoDepth ≤ x.resource.size) ∧
    ((∀ d, (xfifoDmaWrite x (lseeks cs) user count e).programmed = some d →
        d.StartsInside x.resource) ↔
      ¬ e.Granted ∨ offset (lseeks cs) < x.resource.size) := by
  have hnonneg := lseeks_nonneg cs
  have hsize := transferSize_eq x count
  rw [read_programmed, write_programmed, ← hsize, ← dma_inside_iff (e := e) hnonneg .read,
    ← dma_startsInside_iff count e hnonneg .write]
  by_cases he : e.Granted <;> simp [he]

/-- The device of the board's device tree. -/
def board : Xfifo := xfifoDmaProbe ⟨0x80000000, 0x8000ffff, by decide⟩ true

/-- Everything is granted, and the transfer is done and copied. -/
def granted : Answers where
  locked := true
  buffer := ⟨0xc8000000, 0x08000000⟩
  requestOk := true
  ending := .done
  data := fun _ => 1
  notCopied := 0

/-- `lseek` to the end of the window; a read of one byte. -/
theorem xfifoDma_leaves_window : ¬ ∀ (x : Xfifo) (cs : List (Int64 × Int32)) (user : ℕ → UInt8)
    (count : UInt32) (e : Answers) (d : Dma),
    (xfifoDmaRead x (lseeks cs) user count e).programmed = some d → d.Inside x.resource := by
  intro h
  have hin := h board [(65536, 0)] (fun _ => 0) 1 granted _ rfl 0x80010000 (by decide) (by decide)
  exact absurd hin.2 (by decide)

/-! ### The report -/

/-- Nobody is at the device. -/
structure Xfifo.Free (x : Xfifo) : Prop where
  mutex : x.mutex = false
  channel : x.channel = false
  busy : x.busy = false

/-- The law of a call's exit: a positive result is a transfer that was done and is in the user's
    buffer, any other one is an error, and everything that was taken is given back. -/
structure Reports (e : Answers) (o : Outcome) : Prop where
  positive : 0 < o.ret.toInt → e.ending = .done ∧
    ∃ d, o.programmed = some d ∧ o.ret.toInt = d.dmaCount ∧ ∀ i < d.dmaCount, o.user i = e.data i
  negative : ¬ 0 < o.ret.toInt → o.ret.toInt < 0
  free : o.dev.Free

section
variable {x : Xfifo} {fPos : Int64} {user : ℕ → UInt8} {count : UInt32} {e : Answers}

variable (fPos user count e) in
theorem read_free (hx : x.Free) : (xfifoDmaRead x fPos user count e).dev.Free ↔
    (e.Granted → e.ending ≠ .signal) := by
  by_cases he : e.Granted
  · rw [read_granted he]
    cases e.ending with
    | done => exact iff_of_true ⟨rfl, rfl, rfl⟩ fun _ => by decide
    | fault => exact iff_of_true ⟨rfl, rfl, rfl⟩ fun _ => by decide
    | signal => exact iff_of_false (fun h => by simpa [Xfifo.wait] using h.busy) fun h => h he rfl
  · obtain ⟨buffer, mutex, retval, hmutex, -, hread⟩ := read_refused x fPos user count he
    rw [hread]
    exact iff_of_true ⟨hmutex hx.mutex, hx.channel, hx.busy⟩ fun h => absurd h he

/-- The bytes that a transfer leaves in the user's buffer. -/
theorem copyToUser_eq_iff {data : ℕ → UInt8} {n notCopied : ℕ} :
    (∀ i < n, copyToUser user data n notCopied i = data i) ↔
      ∀ i < n, n - notCopied ≤ i → user i = data i := by
  refine forall₂_congr fun i _ => ?_
  rw [copyToUser]
  split
  · exact iff_of_true rfl fun hle => by omega
  · exact ⟨fun h _ => h, fun h => h (by omega)⟩

end

/-- CORRECT (report): a call that is alone keeps the law exactly if it fails early, or asks for
    something, its transfer is done, and `copy_to_user` leaves out only what is there already. -/
theorem xfifoDmaRead_reports_iff {x : Xfifo} (hx : x.Free) (fPos : Int64) (user : ℕ → UInt8)
    (count : UInt32) (e : Answers) :
    Reports e (xfifoDmaRead x fPos user count e) ↔
      ¬ e.Granted ∨ 0 < min count.toNat x.fifoDepth ∧ e.ending = .done ∧
        ∀ i < min count.toNat x.fifoDepth, min count.toNat x.fifoDepth - e.notCopied ≤ i →
          user i = e.data i := by
  have hsize := transferSize_eq x count
  by_cases he : e.Granted
  · have hfree := read_free fPos user count e hx
    rw [← hsize, ← copyToUser_eq_iff]
    have hret : (xfifoDmaRead x fPos user count e).ret.toInt = x.transferSize count := by
      rw [read_granted he, toInt_transferSize]
    have hprog : (xfifoDmaRead x fPos user count e).programmed = some (x.dma .read fPos count e) := by
      rw [read_programmed, if_pos he]
    have huser : (xfifoDmaRead x fPos user count e).user =
        copyToUser user e.data (x.transferSize count) e.notCopied := by
      rw [read_granted he]
    constructor
    · intro h
      have hpos : 0 < x.transferSize count := by
        by_contra hzero
        have hneg := h.negative (by omega)
        omega
      obtain ⟨hdone, d, hd, -, hdata⟩ := h.positive (by omega)
      obtain rfl := Option.some.inj (hprog.symm.trans hd)
      exact Or.inr ⟨hpos, hdone, by rwa [← huser]⟩
    · rintro (hrefused | ⟨hpos, hdone, hdata⟩)
      · exact absurd he hrefused
      · refine ⟨fun _ => ⟨hdone, _, hprog, hret, by rwa [huser]⟩, fun h => absurd h (by omega),
          hfree.mpr fun _ => by rw [hdone]; decide⟩
  · have hfree := (read_free fPos user count e hx).mpr
      fun h => absurd h he
    refine iff_of_true ?_ (Or.inl he)
    obtain ⟨buffer, mutex, retval, hmutex, hneg, hread⟩ := read_refused x fPos user count he
    rw [hread] at hfree ⊢
    exact ⟨fun hpos => absurd hpos (by dsimp only; omega), fun _ => hneg, hfree⟩

/-- A read of 512 bytes. -/
theorem xfifoDmaRead_reports_done :
    Reports granted (xfifoDmaRead board 0 (fun _ => 0) 512 granted) :=
  (xfifoDmaRead_reports_iff (x := board) ⟨rfl, rfl, rfl⟩ 0 (fun _ => 0) 512 granted).mpr
    (Or.inr ⟨by decide, rfl, fun i hi hle => by
      have hall : min (512 : UInt32).toNat board.fifoDepth - granted.notCopied =
        min (512 : UInt32).toNat board.fifoDepth := Nat.sub_zero _
      omega⟩)

/-- A fault counts as success. -/
theorem xfifoDmaRead_reports_fault : ¬ ∀ (x : Xfifo), x.Free → ∀ (fPos : Int64) (user : ℕ → UInt8)
    (count : UInt32) (e : Answers), Reports e (xfifoDmaRead x fPos user count e) := by
  intro h
  have hreport := h board ⟨rfl, rfl, rfl⟩ 0 (fun _ => 0) 512 { granted with ending := .fault }
  exact absurd (hreport.positive (by decide)).1 (by decide)

end AcqBoard.Driver
