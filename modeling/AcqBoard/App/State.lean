import AcqBoard.App.Csr
import AcqBoard.Schemes.Text

/-! The state of the acquisition program: the globals of `app.c`, the control registers, the code
    RAM and the data files.

    Globals that are only ever written (`s_ucIntHappend`, `s_ucDeliveredDone`, `s_uiCheck`,
    `s_WorkMode_TX`, `m_SendLen`) are left out. A `FILE *` is the name it was opened with: the program
    holds one data file at a time and closes it before it opens the next. stdio stands between the
    two: the program never flushes, so what `fwrite` takes is in the file at `fclose` at the latest.

    A step of the C code whose behaviour is undefined has no next state; it names a `Fault`. -/

namespace AcqBoard.App
open Schemes

/-- Undefined behaviours of `app.c`. -/
inductive Fault where
  | nullFile     -- `fwrite` on a null `FILE *`
  | outOfRange   -- an array or string buffer accessed outside its bounds
  | divByZero    -- `uiSeconds % t3` with `t3 = 0`
  deriving DecidableEq

/-- `BRAM_SIZE`, the bytes of one block. -/
def bramSize : UInt64 := 65536

/-- `PACKAGE_SIZE`, the bytes of one `send`. -/
def packageSize : UInt64 := 32768

/-- A string that `read_profile_string` can leave in the 64-byte `s_SdDataDIR`. -/
structure DataDir where
  bytes : List UInt8
  fits : bytes.length < 64
  noNul : (0 : UInt8) ∉ bytes

/-- What `Configuration` reads: the integers that `read_profile_int` returns for its keys, and the
    string of `DataDirectory` when `read_profile_string` finds one. -/
structure Profile where
  workMode : Int32
  syncMode : Int32
  fullScalRange : Int32
  lpfFilter : Int32
  inputSource : Int32
  impulseWidth : Int32
  adcSamplingRates : Int32
  sequenceLength : Int32
  generationPolymerization : Int32
  initialValue : Int32
  savePosition : Int32
  dataDirectory : Option DataDir

/-- The data files of the SD card, by name, and stdio in front of them: the bytes it still holds of the
    file that is open, and how many of so many bytes an `fwrite` hands on. -/
structure Files where
  disk : List UInt8 → Option (List UInt8)
  held : List UInt8
  drain : ℕ → ℕ

/-- An empty card behind a buffer of 4096 bytes, of which stdio hands on full ones. -/
def Files.empty : Files := ⟨fun _ => none, [], fun n => if n ≤ 4096 then 0 else n - n % 4096⟩

/-- `fopen(name, "wb")`: create the file, or empty the one that is there. -/
def Files.create (fs : Files) (name : List UInt8) : Files :=
  { fs with disk := Function.update fs.disk name (some []), held := [] }

/-- `fwrite` at the end of an open file: the bytes join those that stdio holds, and the first of them
    go on into the file; a file that was removed while open stays removed. -/
def Files.append (fs : Files) (name bytes : List UInt8) : Files :=
  let held := fs.held ++ bytes
  let n := fs.drain held.length
  { fs with
    disk := Function.update fs.disk name ((fs.disk name).map (· ++ held.take n))
    held := held.drop n }

/-- `fclose`: the rest goes into the file. -/
def Files.close (fs : Files) (name : List UInt8) : Files :=
  { fs with disk := Function.update fs.disk name ((fs.disk name).map (· ++ fs.held)), held := [] }

/-- `remove(name)`. -/
def Files.remove (fs : Files) (name : List UInt8) : Files :=
  { fs with disk := Function.update fs.disk name none }

/-- What an open file will hold once it is closed. -/
def Files.opened (fs : Files) (name : List UInt8) : Option (List UInt8) :=
  (fs.disk name).map (· ++ fs.held)

section
variable {fs : Files} {name other : List UInt8}

theorem Files.create_ne (h : other ≠ name) : (fs.create name).disk other = fs.disk other :=
  Function.update_of_ne h _ _

theorem Files.append_ne (h : other ≠ name) (bytes : List UInt8) :
    (fs.append name bytes).disk other = fs.disk other := Function.update_of_ne h _ _

theorem Files.close_ne (h : other ≠ name) : (fs.close name).disk other = fs.disk other :=
  Function.update_of_ne h _ _

theorem Files.remove_ne (h : other ≠ name) : (fs.remove name).disk other = fs.disk other :=
  Function.update_of_ne h _ _

@[simp] theorem Files.opened_create (fs : Files) (name : List UInt8) :
    (fs.create name).opened name = some [] := by
  have hself : (fs.create name).disk name = some [] := Function.update_self _ _ _
  rw [Files.opened, hself]
  rfl

/-- Whatever stdio holds back, the file gets the bytes. -/
@[simp] theorem Files.opened_append (fs : Files) (name bytes : List UInt8) :
    (fs.append name bytes).opened name = (fs.opened name).map (· ++ bytes) := by
  have hself : (fs.append name bytes).disk name = (fs.disk name).map
      (· ++ (fs.held ++ bytes).take (fs.drain (fs.held ++ bytes).length)) := Function.update_self _ _ _
  rw [Files.opened, hself, Files.opened, Option.map_map, Option.map_map]
  congr 1
  funext written
  simp only [Function.comp_apply, Files.append, List.append_assoc, List.take_append_drop]

@[simp] theorem Files.close_self (fs : Files) (name : List UInt8) :
    (fs.close name).disk name = fs.opened name := Function.update_self _ _ _

@[simp] theorem Files.remove_self (fs : Files) (name : List UInt8) :
    (fs.remove name).disk name = none := Function.update_self _ _ _

/-- A file that was removed while open is not made again when it is closed. -/
theorem Files.close_remove (fs : Files) (name old : List UInt8) :
    ((fs.remove name).close old).disk name = none := by
  by_cases h : name = old
  · subst h
    rw [Files.close_self, Files.opened, Files.remove_self]
    rfl
  · rw [Files.close_ne h, Files.remove_self]

/-- Nothing is held back exactly if the file holds all it was given. -/
theorem Files.opened_eq_disk {contents : List UInt8} (h : fs.opened name = some contents) :
    fs.disk name = some contents ↔ fs.held = [] := by
  rw [Files.opened, Option.map_eq_some_iff] at h
  obtain ⟨written, hdisk, rfl⟩ := h
  rw [hdisk, Option.some.injEq, List.self_eq_append_right]

end

/-- Globals of `app.c` and the devices they drive. -/
structure Board where
  ucIsReady : Bool
  uiFlag : UInt32
  ulTotalLen : UInt64
  ulSampleLength : UInt64
  uiSavePC : UInt32
  pSdHPFd : Option (List UInt8)
  sdFileName : List UInt8
  sdDataDir : DataDir
  puiConfigBuf : List UInt8
  puiPrbsBuff : ℕ → UInt32
  csr : Csr.Regs
  ram : ℕ → UInt32
  files : Files

/-- The program's static initial values, on any registers, code RAM and file system. -/
def Board.boot (csr : Csr.Regs) (ram : ℕ → UInt32) (files : Files) : Board where
  ucIsReady := false
  uiFlag := 0
  ulTotalLen := 0
  ulSampleLength := 0
  uiSavePC := 0
  pSdHPFd := none
  sdFileName := []
  sdDataDir := ⟨[], Nat.zero_lt_succ 63, List.not_mem_nil⟩
  puiConfigBuf := List.replicate 348 0
  puiPrbsBuff := fun _ => 0
  csr := csr
  ram := ram
  files := files

/-- What a file holds, with what stdio still holds of it if it is the one that is open. -/
def Board.contents (b : Board) (name : List UInt8) : Option (List UInt8) :=
  if b.pSdHPFd = some name then b.files.opened name else b.files.disk name

/-- `fclose(s_pSdHPFd)` and `s_pSdHPFd = NULL`, unless it is null already. -/
def Board.fclose (b : Board) : Board :=
  match b.pSdHPFd with
  | none => b
  | some name => { b with files := b.files.close name, pSdHPFd := none }

/-- `fwrite(bytes)` on `s_pSdHPFd`. -/
def Board.fwrite (b : Board) (bytes : List UInt8) : Except Fault Board :=
  match b.pSdHPFd with
  | none => .error .nullFile
  | some name => .ok { b with files := b.files.append name bytes }

theorem Board.contents_open {b : Board} {name : List UInt8} (h : b.pSdHPFd = some name) :
    b.contents name = b.files.opened name := by rw [Board.contents, if_pos h]

theorem Board.contents_closed {b : Board} {name : List UInt8} (h : b.pSdHPFd ≠ some name) :
    b.contents name = b.files.disk name := by rw [Board.contents, if_neg h]

/-- Only the handle and the files change, and no file's contents. -/
theorem Board.fclose_eq (b : Board) :
    b.fclose = { b with files := b.fclose.files, pSdHPFd := none } := by
  cases b
  unfold Board.fclose
  dsimp only
  split
  · rfl
  · rfl

@[simp] theorem Board.csr_fclose (b : Board) : b.fclose.csr = b.csr := by rw [Board.fclose_eq]

@[simp] theorem Board.disk_fclose (b : Board) (name : List UInt8) :
    b.fclose.files.disk name = b.contents name := by
  unfold Board.fclose Board.contents
  cases h : b.pSdHPFd with
  | none => rfl
  | some old =>
    by_cases hname : old = name
    · subst hname
      simp
    · rw [if_neg fun heq => hname (Option.some.inj heq)]
      exact Files.close_ne (Ne.symm hname)

theorem Board.fwrite_eq_ok {b c : Board} {bytes : List UInt8} :
    b.fwrite bytes = .ok c ↔
      ∃ name, b.pSdHPFd = some name ∧ c = { b with files := b.files.append name bytes } := by
  unfold Board.fwrite
  cases b.pSdHPFd with
  | none => simp
  | some name => simp [eq_comm]

theorem Board.fwrite_eq_error {b : Board} {bytes : List UInt8} {f : Fault} :
    b.fwrite bytes = .error f ↔ b.pSdHPFd = none ∧ f = .nullFile := by
  unfold Board.fwrite
  cases b.pSdHPFd with
  | none => simp [eq_comm]
  | some name => simp

end AcqBoard.App
