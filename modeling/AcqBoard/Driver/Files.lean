import AcqBoard.Schemes.Interleave
import Mathlib.Data.Int.Notation
import Mathlib.Data.List.FinRange
import Mathlib.Data.Nat.Notation
import Mathlib.Logic.Function.Basic

/-! Open files of the devices, by any number of processes.

    `xfifo_dma` admits one writer at a time and counts it in `writers`, under a mutex that a signal can
    interrupt. The kernel drops a file whatever its `release` returns, so a release that a signal
    interrupts leaves its count behind.

    `bram` and `axi_csr` map their device in `open` and unmap it in `release`, but keep the address in
    one place for all files; the reference counts that would admit one file at a time are commented
    out. -/

namespace AcqBoard.Driver
open Schemes

/-! ### The writer of `xfifo_dma` -/

/-- The fields of `xfifo_dma_dev` that `open` and `release` use. -/
structure XfifoDmaCounts where
  writers : UInt32
  busy : Bool
  opens : UInt32
  closes : UInt32
  deriving DecidableEq

/-- `f_flags & O_ACCMODE` is `O_RDONLY`. The branches of `O_WRONLY` and of the rest are the same. -/
def readOnly (fFlags : UInt32) : Bool := fFlags &&& 3 = 0

def xfifoDmaOpen (dev : XfifoDmaCounts) (fFlags : UInt32) (interrupted : Bool) : ℤ × XfifoDmaCounts :=
  if interrupted then (-512, dev)  -- `-ERESTARTSYS`
  else if readOnly fFlags then (0, { dev with opens := dev.opens + 1 })
  else if dev.writers ≠ 0 ∨ dev.busy = true then (-16, dev)  -- `-EBUSY`
  else (0, { dev with writers := dev.writers + 1, opens := dev.opens + 1 })

def xfifoDmaRelease (dev : XfifoDmaCounts) (fFlags : UInt32) (interrupted : Bool) :
    ℤ × XfifoDmaCounts :=
  if interrupted then (-4, dev)  -- `-EINTR`
  else if readOnly fFlags then (0, { dev with closes := dev.closes + 1 })
  else (0, { dev with writers := dev.writers - 1, closes := dev.closes + 1 })

/-- An open fails and changes nothing, or it is for reading, or it finds no writer and counts one. -/
theorem xfifoDmaOpen_cases (dev : XfifoDmaCounts) (fFlags : UInt32) (interrupted : Bool) :
    ((xfifoDmaOpen dev fFlags interrupted).1 ≠ 0 ∧ (xfifoDmaOpen dev fFlags interrupted).2 = dev) ∨
    (xfifoDmaOpen dev fFlags interrupted).1 = 0 ∧
      (readOnly fFlags = true ∧
          (xfifoDmaOpen dev fFlags interrupted).2.writers = dev.writers ∨
        readOnly fFlags = false ∧ dev.writers = 0 ∧
          (xfifoDmaOpen dev fFlags interrupted).2.writers = 1) := by
  unfold xfifoDmaOpen
  split
  · exact Or.inl ⟨show (-512 : ℤ) ≠ 0 by decide, rfl⟩
  split
  · rename_i hread
    exact Or.inr ⟨rfl, Or.inl ⟨hread, rfl⟩⟩
  split
  · exact Or.inl ⟨show (-16 : ℤ) ≠ 0 by decide, rfl⟩
  · rename_i hread hfree
    have hzero : dev.writers = 0 := not_not.mp (not_or.mp hfree).1
    refine Or.inr ⟨rfl, Or.inr ⟨Bool.eq_false_iff.mpr hread, hzero, ?_⟩⟩
    change dev.writers + 1 = 1
    rw [hzero]
    rfl

/-- The device and the flags of its open files. -/
structure XfifoDmaFiles (ι : Type) where
  dev : XfifoDmaCounts
  opened : ι → Option UInt32

def XfifoDmaFiles.init {ι : Type} : XfifoDmaFiles ι := ⟨⟨0, false, 0, 0⟩, fun _ => none⟩

inductive FileLabel (ι : Type) where
  | open (i : ι) (fFlags : UInt32) (interrupted : Bool)
  | release (i : ι) (interrupted : Bool)
  | busy (b : Bool)  -- a transfer starts or ends

variable {ι : Type} [DecidableEq ι]

/-- The file is gone after `release`, whatever it returns. -/
def fileStep (s : XfifoDmaFiles ι) : FileLabel ι → Except (Stuck Empty) (XfifoDmaFiles ι)
  | .open i fFlags interrupted => enabled (s.opened i = none) <|
    let r := xfifoDmaOpen s.dev fFlags interrupted
    pure ⟨r.2, if r.1 = 0 then Function.update s.opened i (some fFlags) else s.opened⟩
  | .release i interrupted =>
    match s.opened i with
    | some fFlags =>
      pure ⟨(xfifoDmaRelease s.dev fFlags interrupted).2, Function.update s.opened i none⟩
    | none => .error .disabled
  | .busy b => pure { s with dev := { s.dev with busy := b } }

/-- The file is open for writing. -/
def XfifoDmaFiles.Writes (s : XfifoDmaFiles ι) (i : ι) : Prop :=
  ∃ fFlags, s.opened i = some fFlags ∧ readOnly fFlags = false

instance (s : XfifoDmaFiles ι) (i : ι) : Decidable (s.Writes i) :=
  match h : s.opened i with
  | none => isFalse (by rintro ⟨f, hf, -⟩; rw [h] at hf; cases hf)
  | some f => decidable_of_iff (readOnly f = false) (by simp [XfifoDmaFiles.Writes, h])

/-- `writers` says whether there is a writer. -/
def XfifoDmaFiles.Exact (s : XfifoDmaFiles ι) : Prop := s.dev.writers ≠ 0 ↔ ∃ i, s.Writes i

/-- No signal interrupts the release of a writer. -/
def NotLost (s : XfifoDmaFiles ι) : FileLabel ι → Prop
  | .release i interrupted => s.Writes i → interrupted = false
  | _ => True

instance (s : XfifoDmaFiles ι) : (l : FileLabel ι) → Decidable (NotLost s l)
  | .open .. => isTrue trivial
  | .release _ _ => inferInstanceAs (Decidable (_ → _))
  | .busy _ => isTrue trivial

/-- There is one writer at most, and it is counted. -/
structure OneWriter (s : XfifoDmaFiles ι) : Prop where
  one : ∀ {i j}, s.Writes i → s.Writes j → i = j
  counted : ∀ {i}, s.Writes i → s.dev.writers = 1
  count : s.dev.writers = 0 ∨ s.dev.writers = 1

omit [DecidableEq ι] in
theorem not_writes_init (i : ι) : ¬ (XfifoDmaFiles.init : XfifoDmaFiles ι).Writes i := by
  rintro ⟨f, hf, -⟩
  cases hf

omit [DecidableEq ι] in
theorem oneWriter_init : OneWriter (XfifoDmaFiles.init : XfifoDmaFiles ι) :=
  ⟨fun h => absurd h (not_writes_init _), fun h => absurd h (not_writes_init _), Or.inl rfl⟩

theorem writes_opened {s t : XfifoDmaFiles ι} {i j : ι} {fFlags : UInt32}
    (h : t.opened = Function.update s.opened i (some fFlags)) :
    t.Writes j ↔ j = i ∧ readOnly fFlags = false ∨ j ≠ i ∧ s.Writes j := by
  rcases eq_or_ne j i with rfl | hne
  · simp [XfifoDmaFiles.Writes, h]
  · simp [XfifoDmaFiles.Writes, h, hne]

theorem writes_closed {s t : XfifoDmaFiles ι} {i j : ι}
    (h : t.opened = Function.update s.opened i none) : t.Writes j ↔ j ≠ i ∧ s.Writes j := by
  rcases eq_or_ne j i with rfl | hne
  · simp [XfifoDmaFiles.Writes, h]
  · simp [XfifoDmaFiles.Writes, h, hne]

/-- A step leaves the writers as they are, or one comes, while none is counted, or one goes, and is
    counted off unless its release is interrupted. -/
theorem fileStep_writes {s t : XfifoDmaFiles ι} {l : FileLabel ι} (h : fileStep s l = .ok t) :
    ((∀ j, t.Writes j ↔ s.Writes j) ∧ t.dev.writers = s.dev.writers ∧ NotLost s l) ∨
    (∃ i, (∀ j, t.Writes j ↔ j = i ∨ s.Writes j) ∧ s.dev.writers = 0 ∧ t.dev.writers = 1 ∧
      NotLost s l) ∨
    ∃ i, s.Writes i ∧ (∀ j, t.Writes j ↔ j ≠ i ∧ s.Writes j) ∧
      (t.dev.writers = s.dev.writers - 1 ∧ NotLost s l ∨
        t.dev.writers = s.dev.writers ∧ ¬ NotLost s l) := by
  cases l with
  | busy b =>
    obtain rfl := Except.ok.inj h
    exact Or.inl ⟨fun _ => Iff.rfl, rfl, trivial⟩
  | «open» i fFlags interrupted =>
    obtain ⟨hnone, h⟩ := enabled_eq_ok.mp h
    have hnot : ¬ s.Writes i := by
      rintro ⟨f, hf, -⟩
      rw [hnone] at hf
      cases hf
    obtain rfl := Except.ok.inj h
    rcases xfifoDmaOpen_cases s.dev fFlags interrupted with
      ⟨hret, hdev⟩ | ⟨hret, ⟨hread, hcount⟩ | ⟨hread, hzero, hcount⟩⟩
    · exact Or.inl ⟨fun j => by simp [XfifoDmaFiles.Writes, if_neg hret], congrArg _ hdev, trivial⟩
    · refine Or.inl ⟨fun j => ?_, hcount, trivial⟩
      rw [writes_opened (if_pos hret), hread]
      constructor
      · rintro (⟨-, hx⟩ | ⟨-, hj⟩)
        · cases hx
        · exact hj
      · intro hj
        exact Or.inr ⟨fun hji => hnot (hji ▸ hj), hj⟩
    · refine Or.inr (Or.inl ⟨i, fun j => ?_, hzero, hcount, trivial⟩)
      rw [writes_opened (if_pos hret), hread]
      constructor
      · rintro (⟨hji, -⟩ | ⟨-, hj⟩)
        · exact Or.inl hji
        · exact Or.inr hj
      · intro hj
        rcases eq_or_ne j i with hji | hji
        · exact Or.inl ⟨hji, rfl⟩
        · exact Or.inr ⟨hji, hj.resolve_left hji⟩
  | release i interrupted =>
    rw [fileStep] at h
    split at h
    · rename_i f hf
      obtain rfl := Except.ok.inj h
      have hclosed : ∀ j, XfifoDmaFiles.Writes ⟨(xfifoDmaRelease s.dev f interrupted).2,
          Function.update s.opened i none⟩ j ↔ j ≠ i ∧ s.Writes j := fun j => writes_closed rfl
      cases hread : readOnly f with
      | true =>
        have hnot : ¬ s.Writes i := by
          rintro ⟨f', hf', hw⟩
          rw [hf] at hf'
          obtain rfl := Option.some.inj hf'
          rw [hread] at hw
          cases hw
        refine Or.inl ⟨fun j => (hclosed j).trans ⟨fun hj => hj.2, fun hj => ⟨?_, hj⟩⟩, ?_, ?_⟩
        · exact fun hji => hnot (hji ▸ hj)
        · change (xfifoDmaRelease s.dev f interrupted).2.writers = _
          unfold xfifoDmaRelease
          rw [hread]
          cases interrupted <;> rfl
        · exact fun hw => absurd hw hnot
      | false =>
        have hw : s.Writes i := ⟨f, hf, hread⟩
        refine Or.inr (Or.inr ⟨i, hw, hclosed, ?_⟩)
        unfold xfifoDmaRelease
        rw [hread]
        cases interrupted with
        | true => exact Or.inr ⟨rfl, fun hlost => Bool.noConfusion (hlost hw)⟩
        | false => exact Or.inl ⟨rfl, fun _ => rfl⟩
    · cases h

theorem oneWriter_step {s t : XfifoDmaFiles ι} {l : FileLabel ι} (hs : OneWriter s)
    (h : fileStep s l = .ok t) : OneWriter t := by
  rcases fileStep_writes h with ⟨hw, hcount, -⟩ | ⟨i, hw, hzero, hone, -⟩ | ⟨i, hi, hw, hcount⟩
  · refine ⟨fun ha hb => hs.one ((hw _).mp ha) ((hw _).mp hb), fun ha => ?_, hcount ▸ hs.count⟩
    rw [hcount]
    exact hs.counted ((hw _).mp ha)
  · have hnone : ∀ j, ¬ s.Writes j := by
      intro j hj
      have h1 := hs.counted hj
      rw [hzero] at h1
      cases h1
    have honly : ∀ {j}, t.Writes j → j = i := fun hj => ((hw _).mp hj).resolve_right (hnone _)
    exact ⟨fun ha hb => (honly ha).trans (honly hb).symm, fun _ => hone, Or.inr hone⟩
  · have hnone : ∀ {j}, ¬ t.Writes j := by
      intro j hj
      obtain ⟨hne, hj⟩ := (hw j).mp hj
      exact hne (hs.one hj hi)
    refine ⟨fun ha => absurd ha hnone, fun ha => absurd ha hnone, ?_⟩
    rcases hcount with ⟨hc, -⟩ | ⟨hc, -⟩
    · left
      rw [hc, hs.counted hi]
      rfl
    · rw [hc]
      exact hs.count

theorem exact_step {s t : XfifoDmaFiles ι} {l : FileLabel ι} (hs : OneWriter s) (hexact : s.Exact)
    (h : fileStep s l = .ok t) : t.Exact ↔ NotLost s l := by
  rcases fileStep_writes h with ⟨hw, hcount, hl⟩ | ⟨i, hw, -, hone, hl⟩ | ⟨i, hi, hw, hcount⟩
  · refine iff_of_true ?_ hl
    rw [XfifoDmaFiles.Exact, hcount]
    exact hexact.trans (exists_congr fun j => (hw j).symm)
  · refine iff_of_true (iff_of_true ?_ ⟨i, (hw i).mpr (Or.inl rfl)⟩) hl
    rw [hone]
    decide
  · have hnone : ¬ ∃ j, t.Writes j := by
      rintro ⟨j, hj⟩
      obtain ⟨hne, hj⟩ := (hw j).mp hj
      exact hne (hs.one hj hi)
    rcases hcount with ⟨hc, hl⟩ | ⟨hc, hl⟩
    · refine iff_of_true (iff_of_false ?_ hnone) hl
      rw [hc, hs.counted hi]
      decide
    · refine iff_of_false (fun hx => hnone (hx.mp ?_)) hl
      rw [hc, hs.counted hi]
      decide

/-- A count that was left behind stays, and nobody writes any more. -/
theorem lost_step {s t : XfifoDmaFiles ι} {l : FileLabel ι} (hs : OneWriter s) (hlost : ¬ s.Exact)
    (h : fileStep s l = .ok t) : ¬ t.Exact := by
  have hnone : s.dev.writers ≠ 0 ∧ ¬ ∃ j, s.Writes j := by
    by_cases hw : ∃ j, s.Writes j
    · obtain ⟨j, hj⟩ := hw
      have h1 : s.dev.writers ≠ 0 := by rw [hs.counted hj]; decide
      exact absurd (iff_of_true h1 ⟨j, hj⟩) hlost
    · exact ⟨fun h0 => hlost (iff_of_false (not_not.mpr h0) hw), hw⟩
  rcases fileStep_writes h with ⟨hw, hcount, -⟩ | ⟨i, -, hzero, -⟩ | ⟨i, hi, -⟩
  · intro hx
    obtain ⟨j, hj⟩ := hx.mp (hcount ▸ hnone.1)
    exact hnone.2 ⟨j, (hw j).mp hj⟩
  · exact absurd hzero hnone.1
  · exact absurd ⟨i, hi⟩ hnone.2

/-- CORRECT (writers): in every interleaving of opens, releases and transfers, with signals anywhere,
    there is at most one writer. `writers` says whether there is one, all along, exactly if no release
    of a writer is interrupted; after such a release nobody will ever open the device for writing. -/
theorem writers_exact_iff {ls : List (FileLabel ι)} {t : XfifoDmaFiles ι}
    (h : run fileStep XfifoDmaFiles.init ls = .ok t) :
    (∀ i j, t.Writes i → t.Writes j → i = j) ∧
    (Always fileStep XfifoDmaFiles.Exact XfifoDmaFiles.init ls ↔
      Meets fileStep NotLost XfifoDmaFiles.init ls) ∧
    (¬ t.Exact → ∀ ms u, run fileStep t ms = .ok u → ∀ i, ¬ u.Writes i) := by
  have hone : OneWriter t := run_keeps oneWriter_step oneWriter_init h
  have hinit : (XfifoDmaFiles.init : XfifoDmaFiles ι).Exact :=
    iff_of_false (fun h0 => h0 rfl) fun ⟨i, hi⟩ => not_writes_init i hi
  refine ⟨fun i j => hone.one, ?_, fun hlost ms u hu i hi => ?_⟩
  · refine always_iff_meets_of_ok (fun s => OneWriter s ∧ s.Exact) (fun _ _ => True) (fun hs => hs.2)
      (fun hs _ hok hst => ⟨oneWriter_step hs.1 hst, (exact_step hs.1 hs.2 hst).mpr hok⟩)
      (fun hs _ hst => exact_step hs.1 hs.2 hst) ⟨oneWriter_init, hinit⟩ (meets_true ls _) h
  · obtain ⟨hu₁, hu₂⟩ := run_keeps (P := fun s => OneWriter s ∧ ¬ s.Exact)
      (fun hs hst => ⟨oneWriter_step hs.1 hst, lost_step hs.1 hs.2 hst⟩) ⟨hone, hlost⟩ hu
    refine hu₂ (iff_of_true ?_ ⟨i, hi⟩)
    rw [hu₁.counted hi]
    decide

/-- A writer and a reader; a second writer is turned away until the first one has gone. -/
theorem writers_exact_iff_three : Always fileStep XfifoDmaFiles.Exact XfifoDmaFiles.init
    [.open 0 1 false, .open 1 0 false, .open 2 2 false, .release 0 false, .open 2 2 false] := by
  obtain ⟨t, ht⟩ : ∃ t, run fileStep XfifoDmaFiles.init [.open (0 : ℕ) 1 false, .open 1 0 false,
    .open 2 2 false, .release 0 false, .open 2 2 false] = .ok t := ⟨_, rfl⟩
  exact (writers_exact_iff ht).2.1.mpr (by decide)

/-! ### The mapping of `bram` and `axi_csr` -/

/-- Who holds the device's memory region. -/
inductive Holder (ι : Type) where
  | other  -- another driver
  | file (i : ι)
  deriving DecidableEq

/-- One of the two devices, its open files with the address that `ioremap` gave each, and what the
    kernel has given out. -/
structure MappedFiles (ι : Type) where
  devVirtaddr : UInt32
  opened : ι → Option UInt32
  live : List UInt32
  region : Option (Holder ι)

def MappedFiles.init {ι : Type} (region : Option (Holder ι)) : MappedFiles ι :=
  ⟨0, fun _ => none, [], region⟩

/-- Using or unmapping an address that is not mapped. -/
inductive Misuse where
  | unmapped
  deriving DecidableEq

inductive MapLabel (ι : Type) where
  | open (i : ι) (addr : UInt32)  -- null: no mapping
  | access (i : ι)                -- `read` or `write` in range
  | release (i : ι)

/-- `open`, with the address that `ioremap` gives. A `request_mem_region` that fails is only printed. -/
def MappedFiles.map (s : MappedFiles ι) (i : ι) (addr : UInt32) : MappedFiles ι where
  devVirtaddr := addr
  opened := Function.update s.opened i (some addr)
  live := if addr = 0 then s.live else addr :: s.live
  region := s.region.or (some (.file i))

/-- `release`: `release_mem_region` frees the region whoever holds it. -/
def MappedFiles.unmap (s : MappedFiles ι) (i : ι) : MappedFiles ι where
  devVirtaddr := s.devVirtaddr
  opened := Function.update s.opened i none
  live := s.live.erase s.devVirtaddr
  region := none

def bramOpen (s : MappedFiles ι) (i : ι) (addr : UInt32) := s.map i addr
def bramRelease (s : MappedFiles ι) (i : ι) := s.unmap i

def axiCsrOpen (s : MappedFiles ι) (i : ι) (addr : UInt32) := s.map i addr
def axiCsrRelease (s : MappedFiles ι) (i : ι) := s.unmap i

inductive MappedDevice where
  | bram | axiCsr
  deriving DecidableEq

/-- The device's own `open`. -/
def MappedDevice.openFile : MappedDevice → MappedFiles ι → ι → UInt32 → MappedFiles ι
  | .bram => bramOpen
  | .axiCsr => axiCsrOpen

/-- The device's own `release`. -/
def MappedDevice.releaseFile : MappedDevice → MappedFiles ι → ι → MappedFiles ι
  | .bram => bramRelease
  | .axiCsr => axiCsrRelease

/-- `ioremap` gives null or an address that is not in use. -/
def mapStep (dev : MappedDevice) (s : MappedFiles ι) :
    MapLabel ι → Except (Stuck Misuse) (MappedFiles ι)
  | .open i addr => enabled (s.opened i = none ∧ (addr ≠ 0 → addr ∉ s.live)) <|
    pure (dev.openFile s i addr)
  | .access i => enabled (s.opened i ≠ none) <|
    if s.devVirtaddr ∈ s.live then pure s else .error (.fault .unmapped)
  | .release i => enabled (s.opened i ≠ none) <|
    if s.devVirtaddr ∈ s.live then pure (dev.releaseFile s i) else .error (.fault .unmapped)

/-- Both devices map alike. -/
theorem openFile_eq (dev : MappedDevice) (s : MappedFiles ι) (i : ι) (addr : UInt32) :
    dev.openFile s i addr = s.map i addr := by
  cases dev <;> rfl

theorem releaseFile_eq (dev : MappedDevice) (s : MappedFiles ι) (i : ι) :
    dev.releaseFile s i = s.unmap i := by
  cases dev <;> rfl

/-- The device is mapped and reserved for the file that is open, and for none if none is. -/
structure MapSound (s : MappedFiles ι) : Prop where
  used : ∀ {i addr}, s.opened i = some addr →
    s.devVirtaddr = addr ∧ s.live = [addr] ∧ s.region = some (.file i)
  unused : (∀ i, s.opened i = none) → s.live = [] ∧ ∀ i, s.region ≠ some (.file i)

/-- A file is opened while none is open, with the region free, and is mapped. -/
def Alone (s : MappedFiles ι) : MapLabel ι → Prop
  | .open _ addr => (∀ j, s.opened j = none) ∧ s.region = none ∧ addr ≠ 0
  | _ => True

omit [DecidableEq ι] in
theorem alone_open {s : MappedFiles ι} {i : ι} {addr : UInt32} : Alone s (.open i addr) ↔
    (∀ j, (s.opened j).isNone = true) ∧ s.region.isNone = true ∧ addr ≠ 0 := by
  simp only [Alone, Option.isNone_iff_eq_none]

instance {n : ℕ} (s : MappedFiles (Fin n)) : (l : MapLabel (Fin n)) → Decidable (Alone s l)
  | .open _ addr => decidable_of_iff
      (((List.finRange n).all fun j => (s.opened j).isNone) = true ∧ s.region.isNone = true ∧ addr ≠ 0)
      (by simp [alone_open])
  | .access _ => isTrue trivial
  | .release _ => isTrue trivial

@[simp] theorem map_opened_self (s : MappedFiles ι) (i : ι) (addr : UInt32) :
    (s.map i addr).opened i = some addr := Function.update_self ..

theorem map_opened_ne (s : MappedFiles ι) {i j : ι} (h : j ≠ i) (addr : UInt32) :
    (s.map i addr).opened j = s.opened j := Function.update_of_ne h ..

@[simp] theorem unmap_opened_self (s : MappedFiles ι) (i : ι) : (s.unmap i).opened i = none :=
  Function.update_self ..

theorem unmap_opened_ne (s : MappedFiles ι) {i j : ι} (h : j ≠ i) :
    (s.unmap i).opened j = s.opened j := Function.update_of_ne h ..

omit [DecidableEq ι] in
/-- In a sound state one file is open at most. -/
theorem MapSound.only {s : MappedFiles ι} (hs : MapSound s) {i j : ι} {a b : UInt32}
    (hi : s.opened i = some a) (hj : s.opened j = some b) : i = j := by
  have hregion := (hs.used hi).2.2
  rw [(hs.used hj).2.2] at hregion
  exact (Holder.file.inj (Option.some.inj hregion)).symm

theorem mapSound_map {s : MappedFiles ι} (hs : MapSound s) {i : ι} {addr : UInt32}
    (hi : s.opened i = none) : MapSound (s.map i addr) ↔ Alone s (.open i addr) := by
  constructor
  · intro ht
    have hall : ∀ j, s.opened j = none := by
      intro j
      cases hj : s.opened j with
      | none => rfl
      | some a =>
        have hji : j ≠ i := by
          rintro rfl
          rw [hi] at hj
          cases hj
        have hopen : (s.map i addr).opened j = some a := (map_opened_ne s hji addr).trans hj
        exact absurd (ht.only hopen (map_opened_self s i addr)) hji
    obtain ⟨hlive, hregion⟩ := hs.unused hall
    obtain ⟨-, hlive', hregion'⟩ := ht.used (map_opened_self s i addr)
    refine ⟨hall, ?_, ?_⟩
    · cases hr : s.region with
      | none => rfl
      | some h =>
        have hh : s.region.or (some (.file i)) = some (.file i) := hregion'
        rw [hr] at hh
        exact absurd (hr.trans hh) (hregion i)
    · rintro rfl
      have hh : s.live = [0] := hlive'
      rw [hlive] at hh
      cases hh
  · rintro ⟨hall, hfree, hne⟩
    refine ⟨?_, ?_⟩
    · intro j a hj
      rcases eq_or_ne j i with rfl | hji
      · rw [map_opened_self] at hj
        obtain rfl := Option.some.inj hj
        refine ⟨rfl, ?_, ?_⟩
        · change (if addr = 0 then s.live else addr :: s.live) = [addr]
          rw [if_neg hne, (hs.unused hall).1]
        · change s.region.or (some (.file j)) = some (.file j)
          rw [hfree]
          rfl
      · rw [map_opened_ne s hji, hall j] at hj
        cases hj
    · intro hnone
      have hj := hnone i
      rw [map_opened_self] at hj
      cases hj

theorem mapSound_unmap {s : MappedFiles ι} (hs : MapSound s) {i : ι} {addr : UInt32}
    (hi : s.opened i = some addr) : MapSound (s.unmap i) := by
  have hall : ∀ j, (s.unmap i).opened j = none := by
    intro j
    rcases eq_or_ne j i with rfl | hji
    · exact unmap_opened_self s j
    · rw [unmap_opened_ne s hji]
      cases hj : s.opened j with
      | none => rfl
      | some b => exact absurd (hs.only hj hi) hji
  obtain ⟨hvirt, hlive, -⟩ := hs.used hi
  refine ⟨fun hj => ?_, fun _ => ⟨?_, fun j hj => ?_⟩⟩
  · rw [hall] at hj
    cases hj
  · change s.live.erase s.devVirtaddr = []
    rw [hvirt, hlive, List.erase_cons_head]
  · cases hj

omit [DecidableEq ι] in
/-- In a sound state an open file can be used and closed. -/
theorem MapSound.mapped {s : MappedFiles ι} (hs : MapSound s) {i : ι} (hi : s.opened i ≠ none) :
    s.devVirtaddr ∈ s.live := by
  obtain ⟨addr, haddr⟩ := Option.ne_none_iff_exists'.mp hi
  obtain ⟨hvirt, hlive, -⟩ := hs.used haddr
  rw [hvirt, hlive]
  exact List.mem_singleton_self addr

theorem mapStep_iff {dev : MappedDevice} {s : MappedFiles ι} {l : MapLabel ι} (hs : MapSound s)
    (hen : mapStep dev s l ≠ .error .disabled) :
    (∃ t, mapStep dev s l = .ok t ∧ MapSound t) ↔ Alone s l := by
  cases l with
  | «open» i addr =>
    have hp : s.opened i = none ∧ (addr ≠ 0 → addr ∉ s.live) := by
      by_contra hp
      exact hen (if_neg hp)
    rw [← mapSound_map hs hp.1, ← openFile_eq dev]
    exact ⟨fun ⟨t, ht, hsound⟩ => Except.ok.inj ((enabled_eq_ok.mp ht).2) ▸ hsound,
      fun hsound => ⟨_, enabled_eq_ok.mpr ⟨hp, rfl⟩, hsound⟩⟩
  | access i =>
    have hp : s.opened i ≠ none := by
      by_contra hp
      exact hen (if_neg (not_not.mpr hp))
    exact iff_of_true ⟨s, enabled_eq_ok.mpr ⟨hp, if_pos (hs.mapped hp)⟩, hs⟩ trivial
  | release i =>
    have hp : s.opened i ≠ none := by
      by_contra hp
      exact hen (if_neg (not_not.mpr hp))
    obtain ⟨addr, haddr⟩ := Option.ne_none_iff_exists'.mp hp
    refine iff_of_true ⟨_, enabled_eq_ok.mpr ⟨hp, if_pos (hs.mapped hp)⟩, ?_⟩ trivial
    rw [releaseFile_eq]
    exact mapSound_unmap hs haddr

/-- CORRECT (mapping): for both devices, in every order of opens, accesses and releases that the kernel
    can ask for, the device is mapped and reserved for the one open file, or for none, all along and
    without misuse, exactly if each file is opened while none is open and is mapped, and the region is
    free then. Otherwise the file that was open first is left with an address that the second one's
    release unmaps. -/
theorem mapSound_iff_alone (dev : MappedDevice) {region : Option (Holder ι)}
    (hregion : ∀ i, region ≠ some (.file i)) {ls : List (MapLabel ι)}
    (h : run (mapStep dev) (MappedFiles.init region) ls ≠ .error .disabled) :
    (Always (mapStep dev) MapSound (MappedFiles.init region) ls ↔
      Meets (mapStep dev) Alone (MappedFiles.init region) ls) ∧
    ∀ (s : MappedFiles ι) (i j : ι) (addr : UInt32), MapSound s → s.opened i ≠ none →
      s.opened j = none → addr ≠ 0 → addr ∉ s.live →
      run (mapStep dev) s [.open j addr, .release j, .access i] = .error (.fault .unmapped) := by
  have hinit : MapSound (MappedFiles.init region : MappedFiles ι) :=
    ⟨fun hi => (by cases hi), fun _ => ⟨rfl, hregion⟩⟩
  refine ⟨?_, ?_⟩
  · refine always_iff_meets_self (fun f => f ≠ .disabled) (fun hs hf => mapStep_iff hs ?_) hinit ?_
    · exact fun hdis => hf _ hdis rfl
    · rintro f hf rfl
      exact h hf
  · intro s i j addr hs hi hj hne hnew
    have hij : i ≠ j := by
      rintro rfl
      exact hi hj
    have hlive : (s.map j addr).live = addr :: s.live := if_neg hne
    have hopen : mapStep dev s (.open j addr) = .ok (s.map j addr) := by
      rw [← openFile_eq dev]
      exact enabled_eq_ok.mpr ⟨⟨hj, fun _ => hnew⟩, rfl⟩
    have hmem : (s.map j addr).devVirtaddr ∈ (s.map j addr).live := by
      rw [hlive]
      exact List.mem_cons_self
    have hrelease : mapStep dev (s.map j addr) (.release j) = .ok ((s.map j addr).unmap j) := by
      rw [← releaseFile_eq dev]
      refine enabled_eq_ok.mpr ⟨?_, if_pos hmem⟩
      rw [map_opened_self]
      exact Option.some_ne_none _
    have hstale : ((s.map j addr).unmap j).devVirtaddr ∉ ((s.map j addr).unmap j).live := by
      change addr ∉ (s.map j addr).live.erase addr
      rw [hlive, List.erase_cons_head]
      exact hnew
    have hstill : ((s.map j addr).unmap j).opened i ≠ none := by
      rw [unmap_opened_ne _ hij, map_opened_ne s hij]
      exact hi
    have haccess : mapStep dev ((s.map j addr).unmap j) (.access i) = .error (.fault .unmapped) :=
      (if_pos hstill).trans (if_neg hstale)
    exact bind_eq_error.mpr (Or.inr ⟨_, hopen, bind_eq_error.mpr (Or.inr ⟨_, hrelease,
      bind_eq_error.mpr (Or.inl haccess)⟩)⟩)

/-- Two files, one after the other. -/
def twoFiles : List (MapLabel (Fin 2)) :=
  [.open 0 0xF0000000, .access 0, .release 0, .open 1 0xF0001000, .release 1]

theorem mapSound_iff_alone_two : Always (mapStep .bram) MapSound (MappedFiles.init none) twoFiles := by
  obtain ⟨t, ht⟩ : ∃ t, run (mapStep .bram) (MappedFiles.init none) twoFiles = .ok t := ⟨_, rfl⟩
  refine (mapSound_iff_alone .bram (fun _ h => (by cases h)) ?_).1.mpr (by decide)
  rw [ht]
  rintro ⟨⟩

end AcqBoard.Driver
