import AcqBoard.App.Labels
import AcqBoard.App.Configuration
import AcqBoard.Schemes.Trace
import Mathlib.Algebra.Ring.Int.Defs
import Mathlib.Algebra.Ring.Nat

/-! The two memory devices: `bram.c` (the code RAM) and `axi_csr.c` (the control registers).

    The drivers are the same but for the number of words. A file position counts words; `read` and
    `write` move one word at the position and leave it there. The position is a 64-bit `loff_t`, but
    they look at a copy of it in an `unsigned long`, which has 32 bits here.

    Memory is a word for every address; `ioremap` has put the device's words at `devVirtaddr`. -/

namespace AcqBoard.Driver
open Schemes

/-- Undefined behaviour of the drivers: a `loff_t` sum that overflows. -/
inductive Fault where
  | overflow
  deriving DecidableEq

/-- An open file of a device with `size` words. `lseek` keeps the position from being negative. -/
structure File (size : ℕ) where
  devVirtaddr : UInt32
  fPos : ℕ
  fits : fPos < 2 ^ 63
  mem : UInt32 → UInt32

/-- The system calls on the file. -/
inductive Call where
  | lseek (off : Int64) (whence : Int32)
  | read
  | write (uiValue : UInt32)

/-- What a system call gives back, and the word it leaves in the caller's buffer, if any. -/
structure Ret where
  ret : ℤ
  pbuf : Option UInt32
  deriving DecidableEq

/-- `-EINVAL`. -/
def einval : ℤ := -22

variable {size : ℕ}

/-- The file position that the code checks and uses. -/
def File.narrow (f : File size) : UInt32 := UInt32.ofNat f.fPos

/-- The address of a word, in 32-bit arithmetic. -/
def File.addr (f : File size) (i : UInt32) : UInt32 := f.devVirtaddr + 4 * i

/-- `newpos` of `lseek`, none for an unknown `whence`. -/
def newpos (size pos : ℕ) (off : Int64) (whence : Int32) : Option ℤ :=
  if whence = 0 then some off.toInt          -- SEEK_SET
  else if whence = 1 then some (pos + off.toInt)   -- SEEK_CUR
  else if whence = 2 then some (size - off.toInt)  -- SEEK_END
  else none

def File.lseek (f : File size) (off : Int64) (whence : Int32) : Except Fault (File size × Ret) :=
  match newpos size f.fPos off whence with
  | none => .ok (f, ⟨einval, none⟩)
  | some p =>
    if p < 0 then .ok (f, ⟨einval, none⟩)
    else if h : p < 2 ^ 63 then
      .ok ({ f with fPos := p.toNat, fits := (Int.toNat_lt' (by decide)).mpr h }, ⟨p, none⟩)
    else .error .overflow

def File.read (f : File size) : File size × Ret :=
  if f.narrow.toNat ≥ size then (f, ⟨0, none⟩)
  else (f, ⟨4, some (f.mem (f.addr f.narrow))⟩)

def File.write (f : File size) (uiValue : UInt32) : File size × Ret :=
  if f.narrow.toNat ≥ size then (f, ⟨0, none⟩)
  else ({ f with mem := Function.update f.mem (f.addr f.narrow) uiValue }, ⟨4, none⟩)

/-- One system call on a file. -/
def step (f : File size) : Call → Except Fault (File size × Ret)
  | .lseek off whence => f.lseek off whence
  | .read => .ok f.read
  | .write uiValue => .ok (f.write uiValue)

/-! ### The two drivers -/

/-- `BRAM_PHY_SIZE` and `AXI_CSR_PHY_SIZE`, in words. -/
abbrev bramPhySize : ℕ := 80
abbrev axiCsrPhySize : ℕ := 14

def bramLseek (f : File bramPhySize) (off : Int64) (whence : Int32) := f.lseek off whence
def bramRead (f : File bramPhySize) := f.read
def bramWrite (f : File bramPhySize) (uiValue : UInt32) := f.write uiValue

def axiCsrLseek (f : File axiCsrPhySize) (off : Int64) (whence : Int32) := f.lseek off whence
def axiCsrRead (f : File axiCsrPhySize) := f.read
def axiCsrWrite (f : File axiCsrPhySize) (uiValue : UInt32) := f.write uiValue

/-- One system call on the code RAM. -/
def bramStep (f : File bramPhySize) : Call → Except Fault (File bramPhySize × Ret)
  | .lseek off whence => bramLseek f off whence
  | .read => .ok (bramRead f)
  | .write uiValue => .ok (bramWrite f uiValue)

/-! ### The array that a device is meant to be -/

/-- An array of words with a position. -/
structure Words (size : ℕ) where
  pos : ℕ
  word : Fin size → UInt32

/-- A system call on the array: past its end nothing is read or written, and only a successful
    `lseek` moves the position. -/
def Words.step (a : Words size) : Call → Words size × Ret
  | .lseek off whence =>
    match newpos size a.pos off whence with
    | none => (a, ⟨einval, none⟩)
    | some p => if p < 0 then (a, ⟨einval, none⟩) else ({ a with pos := p.toNat }, ⟨p, none⟩)
  | .read => if h : a.pos < size then (a, ⟨4, some (a.word ⟨a.pos, h⟩)⟩) else (a, ⟨0, none⟩)
  | .write uiValue =>
    if h : a.pos < size then
      ({ a with word := Function.update a.word ⟨a.pos, h⟩ uiValue }, ⟨4, none⟩)
    else (a, ⟨0, none⟩)

/-- The array that a file shows. -/
def File.words (f : File size) : Words size := ⟨f.fPos, fun i => f.mem (f.addr (UInt32.ofNat i))⟩

/-- The position that the driver checks is the position: its low 32 bits do not point into the
    device when the rest is not zero. -/
def InReach (f : File size) : Call → Prop
  | .lseek _ _ => True
  | _ => f.fPos < 2 ^ 32 ∨ size ≤ f.fPos % 2 ^ 32

instance (f : File size) : (c : Call) → Decidable (InReach f c)
  | .lseek _ _ => isTrue trivial
  | .read => inferInstanceAs (Decidable (_ ∨ _))
  | .write _ => inferInstanceAs (Decidable (_ ∨ _))

theorem toNat_narrow (f : File size) : f.narrow.toNat = f.fPos % 2 ^ 32 := UInt32.toNat_ofNat'

theorem lseek_words {f g : File size} {off : Int64} {whence : Int32} {r : Ret}
    (h : f.lseek off whence = .ok (g, r)) :
    f.words.step (.lseek off whence) = (g.words, r) := by
  unfold File.lseek at h
  unfold Words.step File.words
  dsimp only at h ⊢
  split at h
  · rename_i hnew
    obtain ⟨rfl, rfl⟩ := Prod.mk.inj (Except.ok.inj h)
    rfl
  · rename_i p hnew
    split at h
    · rename_i hneg
      obtain ⟨rfl, rfl⟩ := Prod.mk.inj (Except.ok.inj h)
      rw [if_pos hneg]
    · rename_i hneg
      rw [if_neg hneg]
      split at h
      · obtain ⟨rfl, rfl⟩ := Prod.mk.inj (Except.ok.inj h)
        rfl
      · simp at h

/-- A system call reaches no memory but the device's words. -/
theorem mem_step {f g : File size} {c : Call} {r : Ret} (h : step f c = .ok (g, r)) {a : UInt32}
    (ha : ∀ i < size, a ≠ f.addr (UInt32.ofNat i)) : g.mem a = f.mem a := by
  cases c with
  | lseek off whence =>
    rw [step, File.lseek] at h
    split at h
    · obtain ⟨rfl, -⟩ := Prod.mk.inj (Except.ok.inj h); rfl
    · split at h
      · obtain ⟨rfl, -⟩ := Prod.mk.inj (Except.ok.inj h); rfl
      · split at h
        · obtain ⟨rfl, -⟩ := Prod.mk.inj (Except.ok.inj h); rfl
        · simp at h
  | read =>
    rw [step, File.read] at h
    split at h <;> (obtain ⟨rfl, -⟩ := Prod.mk.inj (Except.ok.inj h); rfl)
  | write v =>
    rw [step, File.write] at h
    split at h
    · obtain ⟨rfl, -⟩ := Prod.mk.inj (Except.ok.inj h); rfl
    · rename_i hlt
      obtain ⟨rfl, -⟩ := Prod.mk.inj (Except.ok.inj h)
      refine Function.update_of_ne ?_ _ _
      have hne := ha f.narrow.toNat (Nat.not_le.mp hlt)
      rwa [UInt32.ofNat_toNat] at hne

theorem read_words {f : File size} (h : InReach f .read) :
    f.words.step .read = ((f.read).1.words, (f.read).2) := by
  have hn := toNat_narrow f
  have hle : f.fPos % 2 ^ 32 ≤ f.fPos := Nat.mod_le _ _
  rcases Nat.lt_or_ge f.narrow.toNat size with hlt | hge
  · have hpos : f.fPos < size := by
      rcases h with h | h
      · rw [Nat.mod_eq_of_lt h] at hn; omega
      · omega
    rw [File.read, if_neg (Nat.not_le.mpr hlt), Words.step, dif_pos (show f.words.pos < size from hpos)]
    rfl
  · have hpos : ¬ f.fPos < size := by omega
    rw [File.read, if_pos hge, Words.step, dif_neg (show ¬ f.words.pos < size from hpos)]

/-- Out of reach a word of the device is moved where the array moves none. -/
theorem step_stray {f g : File size} (hsize : size ≤ 2 ^ 32) {c : Call} {r : Ret}
    (hbad : ¬ InReach f c) (h : step f c = .ok (g, r)) : (f.words.step c).2 ≠ r := by
  have hn := toNat_narrow f
  cases c with
  | lseek off whence => exact absurd trivial hbad
  | read =>
    have hpos : 2 ^ 32 ≤ f.fPos ∧ f.fPos % 2 ^ 32 < size := by simpa [InReach, not_or] using hbad
    have hend : ¬ f.words.pos < size := Nat.not_lt.mpr (le_trans hsize hpos.1)
    rw [step, File.read, if_neg (by omega)] at h
    obtain ⟨-, rfl⟩ := Prod.mk.inj (Except.ok.inj h)
    rw [Words.step, dif_neg hend]
    simp
  | write v =>
    have hpos : 2 ^ 32 ≤ f.fPos ∧ f.fPos % 2 ^ 32 < size := by simpa [InReach, not_or] using hbad
    have hend : ¬ f.words.pos < size := Nat.not_lt.mpr (le_trans hsize hpos.1)
    rw [step, File.write, if_neg (by omega)] at h
    obtain ⟨-, rfl⟩ := Prod.mk.inj (Except.ok.inj h)
    rw [Words.step, dif_neg hend]
    simp

/-- Two words of the device have different addresses. -/
theorem addr_inj (hsize : size ≤ 2 ^ 30) (f : File size) {i j : ℕ} (hi : i < size) (hj : j < size)
    (h : f.addr (UInt32.ofNat i) = f.addr (UInt32.ofNat j)) : i = j := by
  have h4 : (4 : UInt32).toNat = 4 := rfl
  have hmul : 4 * UInt32.ofNat i = 4 * UInt32.ofNat j := by
    unfold File.addr at h
    exact (UInt32.add_right_inj _).mp h
  have hnat := congrArg UInt32.toNat hmul
  rw [UInt32.toNat_mul, UInt32.toNat_mul, UInt32.toNat_ofNat', UInt32.toNat_ofNat', h4] at hnat
  omega

theorem write_words (hsize : size ≤ 2 ^ 30) {f : File size} {v : UInt32}
    (h : InReach f (.write v)) :
    f.words.step (.write v) = ((f.write v).1.words, (f.write v).2) := by
  have hn := toNat_narrow f
  have hle : f.fPos % 2 ^ 32 ≤ f.fPos := Nat.mod_le _ _
  rcases Nat.lt_or_ge f.narrow.toNat size with hlt | hge
  · have hpos : f.fPos < size := by
      rcases h with h | h
      · rw [Nat.mod_eq_of_lt h] at hn; omega
      · omega
    rw [File.write, if_neg (Nat.not_le.mpr hlt), Words.step,
      dif_pos (show f.words.pos < size from hpos)]
    refine Prod.ext ?_ rfl
    refine congrArg (Words.mk f.fPos) (funext fun i => ?_)
    change Function.update f.words.word ⟨f.fPos, hpos⟩ v i =
      Function.update f.mem (f.addr f.narrow) v (f.addr (UInt32.ofNat i))
    rcases eq_or_ne i ⟨f.fPos, hpos⟩ with rfl | hne
    · rw [Function.update_self]
      exact (Function.update_self (f.addr f.narrow) v f.mem).symm
    · rw [Function.update_of_ne hne, Function.update_of_ne]
      · rfl
      · intro heq
        exact hne (Fin.ext (addr_inj hsize f i.isLt hpos heq))
  · have hpos : ¬ f.fPos < size := by omega
    rw [File.write, if_pos hge, Words.step, dif_neg (show ¬ f.words.pos < size from hpos)]

/-! ### Whole runs -/

/-- A run of a device gives what the array gives, in every result and every word, exactly if no read
    or write happens at a position whose low 32 bits alone point into the device. -/
theorem trace_words_iff (hsize : size ≤ 2 ^ 30) {f g : File size} {cs : List Call} {rs : List Ret}
    (h : trace step f cs = .ok (g, rs)) :
    specTrace Words.step f.words cs = (g.words, rs) ↔ Meets (next step) InReach f cs := by
  refine trace_refines_iff File.words ?_ ?_ h
  · intro s c t r hok hstep
    cases c with
    | lseek off whence => exact lseek_words hstep
    | read =>
      obtain ⟨rfl, rfl⟩ := Prod.mk.inj (Except.ok.inj hstep)
      exact read_words hok
    | write v =>
      obtain ⟨rfl, rfl⟩ := Prod.mk.inj (Except.ok.inj hstep)
      exact write_words hsize hok
  · intro s c t r hbad hstep
    exact step_stray (by omega) hbad hstep

theorem bramStep_eq : bramStep = step := by
  funext f c
  cases c <;> rfl

/-- CORRECT (code RAM): from any position, any run of `lseek`, `read` and `write` without overflow
    behaves as the array of 80 words exactly if its reads and writes are in reach. -/
theorem bram_array {f g : File bramPhySize} {cs : List Call} {rs : List Ret}
    (h : trace bramStep f cs = .ok (g, rs)) :
    specTrace Words.step f.words cs = (g.words, rs) ↔ Meets (next bramStep) InReach f cs := by
  rw [bramStep_eq] at h ⊢
  exact trace_words_iff (by decide) h

/-- The device as `open` leaves it, over memory that is zero. -/
def opened : File bramPhySize := ⟨0xF0000000, 0, by decide, fun _ => 0⟩

/-- Write word 3, seek to where the file is, read it back, read past the end, seek before the
    start. -/
def word3 : List Call :=
  [.lseek 3 0, .write 7, .lseek 0 1, .read, .lseek 80 0, .read, .lseek (-1) 0]

theorem bram_array_word3 :
    ∃ g, specTrace Words.step opened.words word3 = (File.words g,
      [⟨3, none⟩, ⟨4, none⟩, ⟨3, none⟩, ⟨4, some 7⟩, ⟨80, none⟩, ⟨0, none⟩, ⟨-22, none⟩]) := by
  have h : trace bramStep opened word3 = .ok (⟨0xF0000000, 80, by decide,
      Function.update (fun _ => 0) 0xF000000C 7⟩,
      [⟨3, none⟩, ⟨4, none⟩, ⟨3, none⟩, ⟨4, some 7⟩, ⟨80, none⟩, ⟨0, none⟩, ⟨-22, none⟩]) := rfl
  exact ⟨_, (bram_array h).mpr (by decide)⟩

/-- After a seek to 2^32 a write lands in word 0. -/
theorem bram_wraps : ¬ ∀ (f g : File bramPhySize) (cs : List Call) (rs : List Ret), f.fPos = 0 →
    trace bramStep f cs = .ok (g, rs) → specTrace Words.step f.words cs = (g.words, rs) := by
  intro h
  have hrun : trace bramStep opened [.lseek 4294967296 0, .write 7] =
      .ok (⟨0xF0000000, 4294967296, by decide, Function.update (fun _ => 0) 0xF0000000 7⟩,
        [⟨4294967296, none⟩, ⟨4, none⟩]) := rfl
  have hrets := congrArg Prod.snd (h opened _ _ _ rfl hrun)
  exact absurd hrets (by decide)

/-! ### The application's use of the devices -/

/-- What an `lseek` to a word of the device does. -/
theorem lseek_set {f : File size} {off : ℕ} (h : off < 2 ^ 31) :
    f.lseek (Int64.ofNat off) 0 =
      .ok ({ f with fPos := off, fits := by omega }, ⟨off, none⟩) := by
  have hoff : (Int64.ofNat off).toInt = off := Int64.toInt_ofNat_of_lt (by omega)
  have hneg : ¬ (off : ℤ) < 0 := by omega
  unfold File.lseek newpos
  simp only [if_true, hoff]
  rw [if_neg hneg, dif_pos (by omega)]
  rfl

/-- A word in reach, read where the file is. -/
theorem read_word {f : File size} (hpos : f.fPos < 2 ^ 32) (h : f.fPos < size) :
    f.read = (f, ⟨4, some (f.words.word ⟨f.fPos, h⟩)⟩) := by
  have hn := toNat_narrow f
  rw [Nat.mod_eq_of_lt hpos] at hn
  rw [File.read, if_neg (by omega)]
  rfl

theorem read_end {f : File size} (hpos : f.fPos < 2 ^ 32) (h : size ≤ f.fPos) :
    f.read = (f, ⟨0, none⟩) := by
  have hn := toNat_narrow f
  rw [Nat.mod_eq_of_lt hpos] at hn
  rw [File.read, if_pos (by omega)]

/-- A word in reach, written where the file is. -/
theorem write_word (hsize : size ≤ 2 ^ 30) {f : File size} (h : f.fPos < size) (v : UInt32) :
    (f.write v).1.words = ⟨f.fPos, Function.update f.words.word ⟨f.fPos, h⟩ v⟩ := by
  have hw := write_words hsize (f := f) (v := v) (Or.inl (by omega))
  rw [Words.step, dif_pos (show f.words.pos < size from h)] at hw
  exact (congrArg Prod.fst hw).symm

theorem write_end {f : File size} (hpos : f.fPos < 2 ^ 32) (h : size ≤ f.fPos) (v : UInt32) :
    f.write v = (f, ⟨0, none⟩) := by
  have hn := toNat_narrow f
  rw [Nat.mod_eq_of_lt hpos] at hn
  rw [File.write, if_pos (by omega)]

/-- `axi_csr_lseek` and `axi_csr_read` as `RegRead` uses them, with `uiRead` zeroed: the model's
    register read. -/
theorem axiCsrRead_device (f : File axiCsrPhySize) (off : UInt8) :
    ∃ g, axiCsrLseek f (Int64.ofNat off.toNat) 0 = .ok (g, ⟨off.toNat, none⟩) ∧
      g.words.word = f.words.word ∧
      (axiCsrRead g).2.pbuf.getD 0 = Csr.axiCsrRead f.words.word off.toUInt32 := by
  have hoff : off.toNat < 2 ^ 8 := off.toNat_lt
  have h32 : off.toUInt32.toNat = off.toNat := UInt8.toNat_toUInt32 off
  refine ⟨_, lseek_set (by omega), rfl, ?_⟩
  unfold Csr.axiCsrRead axiCsrRead
  simp only [h32]
  rcases Nat.lt_or_ge off.toNat 14 with hlt | hge
  · rw [dif_pos hlt, read_word (show off.toNat < 2 ^ 32 by omega) hlt]
    rfl
  · rw [dif_neg (Nat.not_lt.mpr hge), read_end (show off.toNat < 2 ^ 32 by omega) hge]
    rfl

/-- The same for `axi_csr_write`. -/
theorem axiCsrWrite_device (f : File axiCsrPhySize) (off : UInt8) (v : UInt32) :
    ∃ g, axiCsrLseek f (Int64.ofNat off.toNat) 0 = .ok (g, ⟨off.toNat, none⟩) ∧
      (axiCsrWrite g v).1.words.word = Csr.axiCsrWrite f.words.word off.toUInt32 v := by
  have hoff : off.toNat < 2 ^ 8 := off.toNat_lt
  have h32 : off.toUInt32.toNat = off.toNat := UInt8.toNat_toUInt32 off
  refine ⟨_, lseek_set (by omega), ?_⟩
  unfold Csr.axiCsrWrite axiCsrWrite
  simp only [h32]
  rcases Nat.lt_or_ge off.toNat 14 with hlt | hge
  · rw [dif_pos hlt, write_word (by decide) (show _ < axiCsrPhySize from hlt)]
    rfl
  · rw [dif_neg (Nat.not_lt.mpr hge), write_end (show off.toNat < 2 ^ 32 by omega) hge]
    rfl

/-- The system calls of `SetDataToRam`'s copy loop, from word `i` on. -/
def ramCalls (puiPrbsBuff : ℕ → UInt32) : ℕ → ℕ → List Call
  | 0, _ => []
  | n + 1, i =>
    .lseek (Int64.ofNat i) 0 :: .write (puiPrbsBuff i) :: ramCalls puiPrbsBuff n (i + 1)

/-- The copy loop of the model is the copy loop on the device. -/
theorem ramLoop_device {buf ram ram' : ℕ → UInt32} {n i : ℕ} {f : File bramPhySize}
    (hf : ∀ k, f.words.word k = ram k) (h : App.ramLoop buf n i ram = .ok ram') :
    ∃ g rs, trace bramStep f (ramCalls buf n i) = .ok (g, rs) ∧ ∀ k, g.words.word k = ram' k := by
  induction n generalizing i ram f with
  | zero =>
    obtain rfl : ram = ram' := Except.ok.inj h
    exact ⟨f, [], rfl, hf⟩
  | succ n ih =>
    rw [App.ramLoop] at h
    split at h
    · rename_i hi
      have hlt : i < bramPhySize := by unfold bramPhySize; omega
      have hseek := lseek_set (f := f) (show i < 2 ^ 31 by omega)
      have hword : (File.write { f with fPos := i, fits := by omega } (buf i)).1.words.word =
          Function.update f.words.word ⟨i, hlt⟩ (buf i) :=
        congrArg Words.word (write_word (by decide) hlt (buf i))
      have hnext : ∀ k : Fin bramPhySize,
          (File.write { f with fPos := i, fits := by omega } (buf i)).1.words.word k =
            Function.update ram i (buf i) k := by
        intro k
        rw [hword]
        rcases eq_or_ne k ⟨i, hlt⟩ with rfl | hne
        · rw [Function.update_self, Function.update_self]
        · rw [Function.update_of_ne hne, Function.update_of_ne (fun hk => hne (Fin.ext hk))]
          exact hf k
      obtain ⟨g, rs, hrun, hg⟩ := ih hnext h
      exact ⟨g, _, trace_cons_ok.mpr ⟨_, _, _, hseek, trace_cons_ok.mpr ⟨_, _, _, rfl, hrun, rfl⟩,
        rfl⟩, hg⟩
    · simp at h

end AcqBoard.Driver
