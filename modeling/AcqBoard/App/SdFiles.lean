import AcqBoard.App.Acquisition

/-! What becomes of the data files of finished acquisitions in SD mode.

    `DeliverData_s` leaves the handle of a finished acquisition open until the next start interrupt,
    and `AcqStop` decides from the handle alone whether to remove the file. A history variable says
    which acquisition the open handle belongs to: `FilesKept` is the law that no file of a finished
    acquisition is lost, and it holds in a history exactly if every `AcqStop` in it that finds a file
    open interrupts an acquisition that is still incomplete.

                        in the file                  held by stdio
        finished        the first bytes              the rest
        closed          all bytes                    -

    The `fflush` behind the last block is commented out, so of a file that is still open this counts
    what stdio holds. Already in the file are the bytes (`FilesWritten`) if stdio also hands on all it
    holds at the last `fwrite` of each acquisition. -/

namespace AcqBoard.App
open Schemes

/-- An acquisition whose last block was delivered: the data file, the configuration block that was
    current at its start interrupt, its sample bytes, and the sample length it was finished at. -/
structure Finished where
  name : List UInt8
  config : List UInt8
  samples : List UInt8
  sampleLength : UInt64

/-- The board, and what happened to it so far: the seconds of the start interrupts, the configuration
    block and the sample bytes of the acquisition since the last one, and the finished acquisitions. -/
structure History where
  board : Board
  seconds : List UInt32
  config : List UInt8
  samples : List UInt8
  finished : List Finished

/-- The history of a program that was just started. -/
def History.boot (b : Board) : History := ⟨b, [], [], [], []⟩

/-- The history after a data interrupt that left the board `c` and emitted `io`. -/
def History.delivered (h : History) (c : Board) (io : List Io) : History :=
  { h with
    board := c
    samples := h.samples ++ io.flatMap Io.bytes
    finished := if h.board.ucIsReady && !c.ucIsReady then
        ⟨c.sdFileName, h.config, h.samples ++ io.flatMap Io.bytes, c.ulSampleLength⟩ :: h.finished
      else h.finished }

/-- One event with its history. -/
def historyStep (h : History) : Event → Except Fault History
  | .startIrq uiSeconds fopenOk => do
    let c ← step h.board (.startIrq uiSeconds fopenOk)
    pure { h with
      board := c, seconds := uiSeconds :: h.seconds, config := h.board.puiConfigBuf, samples := [] }
  | .dataIrq m => do
    let r ← deliverDataS h.board true m
    pure (h.delivered r.1 r.2)
  | e => do
    let c ← step h.board e
    pure { h with board := c }

/-- A run in SD mode: every configuration selects SD, and no two start interrupts fall in the same
    second. -/
def SdRun (h : History) : Event → Prop
  | .acqStart p _ _ => p.savePosition = 0
  | .startIrq uiSeconds _ => uiSeconds ∉ h.seconds
  | _ => True

instance (h : History) : (e : Event) → Decidable (SdRun h e)
  | .acqStart .. => inferInstanceAs (Decidable (_ = _))
  | .startIrq .. => inferInstanceAs (Decidable (_ ∉ _))
  | .acqStop => isTrue trivial
  | .dataIrq _ => isTrue trivial

/-- The file of a finished acquisition is in the file system, what stdio still holds included: the
    configuration block, then all its sample bytes. Their number is the sample length; the counters are
    64-bit, so this is said of files below `2^64` bytes. -/
def Kept (b : Board) (d : Finished) : Prop :=
  b.contents d.name = some (d.config ++ d.samples) ∧
    (d.samples.length < 2 ^ 64 → d.samples.length = d.sampleLength.toNat)

/-- The law: the files of all finished acquisitions are kept. -/
def FilesKept (h : History) : Prop := ∀ d ∈ h.finished, Kept h.board d

/-- The law with the buffer of stdio left out: their bytes are in the files. -/
def FilesWritten (h : History) : Prop :=
  FilesKept h ∧ ∀ d ∈ h.finished, h.board.files.disk d.name = some (d.config ++ d.samples)

instance (b : Board) (d : Finished) : Decidable (Kept b d) :=
  inferInstanceAs (Decidable (_ ∧ (_ → _)))

instance (h : History) : Decidable (FilesKept h) :=
  inferInstanceAs (Decidable (∀ d ∈ h.finished, _))

/-- `AcqStop` is safe if the data file it finds open belongs to an acquisition that is not finished. -/
def StopSafe (h : History) : Event → Prop
  | .acqStop => h.board.pSdHPFd ≠ none → h.board.ucIsReady = true
  | _ => True

instance (h : History) : (e : Event) → Decidable (StopSafe h e)
  | .acqStop => inferInstanceAs (Decidable (_ → _))
  | .acqStart .. => isTrue trivial
  | .startIrq .. => isTrue trivial
  | .dataIrq _ => isTrue trivial

/-- stdio hands on all it holds at the last `fwrite` of an acquisition. -/
def Drained (h : History) : Event → Prop
  | .dataIrq _ => h.board.ucIsReady = true → h.board.remaining ≤ bramSize →
      h.board.files.held.length + h.board.blockLen.toNat ≤
        h.board.files.drain (h.board.files.held.length + h.board.blockLen.toNat)
  | _ => True

instance (h : History) : (e : Event) → Decidable (Drained h e)
  | .dataIrq _ => inferInstanceAs (Decidable (_ → _ → _))
  | .acqStart .. => isTrue trivial
  | .acqStop => isTrue trivial
  | .startIrq .. => isTrue trivial

/-- A name tells the second it was made in, whatever the directory. -/
theorem sdName_inj {dir dir' : DataDir} {s s' : UInt32} (h : sdName dir s = sdName dir' s') :
    s = s' := by
  have hsep (x : ℤ) : byte '/' ∉ decimal x ++ ascii "_tx.dat" := by
    rw [List.mem_append, not_or]
    exact ⟨not_mem_decimal (by decide) (by decide), by decide⟩
  have hslash : ascii "/" = [byte '/'] := rfl
  simp only [sdName, hslash, List.append_assoc, List.singleton_append] at h
  rw [← List.append_assoc, ← List.append_assoc (ascii "/mnt/")] at h
  have hnum := List.append_cancel_right (eq_of_append_sep h (hsep _) (hsep _))
  have hint := Int32.toInt_inj.mp (decimal_inj hnum)
  rw [← UInt32.toUInt32_toInt32 s, hint, UInt32.toUInt32_toInt32]

/-- A file name made at one of the start interrupts so far. -/
def Named (h : History) (name : List UInt8) : Prop := ∃ dir, ∃ s ∈ h.seconds, name = sdName dir s

/-- The file of an acquisition in progress: it is open, it holds what was emitted, the bytes are
    counted, and no finished acquisition has its name. -/
structure InProgress (h : History) : Prop where
  opened : h.board.pSdHPFd = some h.board.sdFileName
  named : Named h h.board.sdFileName
  file : h.board.files.opened h.board.sdFileName = some (h.config ++ h.samples)
  counted : UInt64.ofNat h.samples.length = h.board.ulTotalLen
  fresh : ∀ d ∈ h.finished, d.name ≠ h.board.sdFileName

/-- What holds in SD mode as long as every `AcqStop` was safe: a file that is open outside an
    acquisition belongs to a finished one. -/
structure SdInv (h : History) : Prop where
  sd : h.board.uiSavePC = 0
  named : ∀ d ∈ h.finished, Named h d.name
  kept : FilesKept h
  current : h.board.ucIsReady = true → InProgress h
  left : h.board.ucIsReady = false → h.board.pSdHPFd ≠ none →
    h.board.pSdHPFd = some h.board.sdFileName ∧ ∃ d ∈ h.finished, d.name = h.board.sdFileName

theorem sdInv_boot (csr : Csr.Regs) (ram : ℕ → UInt32) (files : Files) :
    SdInv (History.boot (Board.boot csr ram files)) where
  sd := rfl
  named _ hd := by cases hd
  kept _ hd := by cases hd
  current hr := by cases hr
  left _ hne := absurd rfl hne

/-! ### One lemma for each event -/

theorem sdInv_acqStart {h : History} {c : Board} {p : Profile} {uiSeconds : UInt32}
    {bitBuff : ℕ → UInt8} (hinv : SdInv h) (hsd : p.savePosition = 0)
    (hc : acqStart h.board p uiSeconds bitBuff = .ok c) : SdInv { h with board := c } := by
  obtain ⟨csr, prbs, ram, rfl⟩ := acqStart_ok hc
  refine ⟨toUInt32_eq_zero.mpr hsd, hinv.named, hinv.kept, ?_, hinv.left⟩
  intro hr
  have hcur := hinv.current hr
  exact ⟨hcur.opened, hcur.named, hcur.file, hcur.counted, hcur.fresh⟩

theorem InProgress.contents_self {h : History} (hcur : InProgress h) :
    h.board.contents h.board.sdFileName = some (h.config ++ h.samples) :=
  (Board.contents_open hcur.opened).trans hcur.file

/-- The file in progress is none of a finished acquisition. -/
theorem InProgress.contents {h : History} (hcur : InProgress h) {d : Finished} (hd : d ∈ h.finished) :
    h.board.contents d.name = h.board.files.disk d.name := by
  refine Board.contents_closed ?_
  rw [hcur.opened]
  exact fun heq => hcur.fresh d hd (Option.some.inj heq).symm

/-- `AcqStop` keeps the files of finished acquisitions exactly when it is safe. -/
theorem filesKept_acqStop {h : History} (hinv : SdInv h) :
    FilesKept { h with board := acqStop h.board } ↔ StopSafe h .acqStop := by
  by_cases hfd : h.board.pSdHPFd = none
  · rw [acqStop_other (fun _ => hfd)]
    exact iff_of_true hinv.kept (fun hne => absurd hfd hne)
  · obtain ⟨name, hname⟩ := Option.ne_none_iff_exists'.mp hfd
    rw [acqStop_sd hinv.sd hname]
    have hclosed : ∀ other, (Board.contents { h.board with
        ucIsReady := false, uiFlag := 0, files := (h.board.files.remove h.board.sdFileName).close name,
        pSdHPFd := none, csr := (acqStop h.board).csr } other) =
        ((h.board.files.remove h.board.sdFileName).close name).disk other :=
      fun other => Board.contents_closed (fun heq => by cases heq)
    cases hr : h.board.ucIsReady with
    | true =>
      have hcur := hinv.current hr
      obtain rfl := Option.some.inj (hname.symm.trans hcur.opened)
      refine iff_of_true (fun d hd => ⟨?_, (hinv.kept d hd).2⟩) (fun _ => hr)
      have hne := hcur.fresh d hd
      rw [← (hinv.kept d hd).1, hcur.contents hd, hclosed, Files.close_ne hne, Files.remove_ne hne]
    | false =>
      obtain ⟨-, d, hd, hdn⟩ := hinv.left hr hfd
      refine iff_of_false ?_ (fun hs => by simpa [hr] using hs hfd)
      intro hk
      have hfile := (hk d hd).1
      rw [hclosed, hdn, Files.close_remove] at hfile
      cases hfile

theorem sdInv_acqStop {h : History} (hinv : SdInv h) (hs : StopSafe h .acqStop) :
    SdInv { h with board := acqStop h.board } := by
  have hkept := (filesKept_acqStop hinv).mpr hs
  by_cases hfd : h.board.pSdHPFd = none
  · rw [acqStop_other (fun _ => hfd)] at hkept ⊢
    exact ⟨hinv.sd, hinv.named, hkept, fun hr => (by cases hr), fun _ hne => absurd hfd hne⟩
  · obtain ⟨name, hname⟩ := Option.ne_none_iff_exists'.mp hfd
    rw [acqStop_sd hinv.sd hname] at hkept ⊢
    exact ⟨hinv.sd, hinv.named, hkept, fun hr => (by cases hr), fun _ hne => absurd rfl hne⟩

/-- A start interrupt in a new second opens a file that no finished acquisition has. -/
theorem sdInv_startIrq {h : History} {c : Board} {uiSeconds : UInt32} {fopenOk : Bool}
    (hinv : SdInv h) (hnew : uiSeconds ∉ h.seconds)
    (hc : mesgThread h.board uiSeconds fopenOk = .ok c) :
    SdInv { h with
      board := c, seconds := uiSeconds :: h.seconds, config := h.board.puiConfigBuf,
      samples := [] } := by
  obtain ⟨-, -, rfl⟩ := mesgFile_sd (b := mesgFlags h.board) hinv.sd hc
  have hfresh : ∀ d ∈ h.finished, d.name ≠ sdName h.board.sdDataDir uiSeconds := by
    intro d hd heq
    obtain ⟨dir, s, hs, hname⟩ := hinv.named d hd
    exact hnew (sdName_inj (hname.symm.trans heq) ▸ hs)
  refine ⟨hinv.sd, ?_, ?_, fun _ => ⟨rfl, ?_, ?_, rfl, hfresh⟩, fun hr => (by cases hr)⟩
  · intro d hd
    obtain ⟨dir, s, hs, hname⟩ := hinv.named d hd
    exact ⟨dir, s, List.mem_cons_of_mem _ hs, hname⟩
  · intro d hd
    refine ⟨?_, (hinv.kept d hd).2⟩
    -- the file that was open so far has got the rest, the new one is none of the finished
    have hne := hfresh d hd
    rw [← (hinv.kept d hd).1, Board.contents_closed fun heq => hne (Option.some.inj heq).symm]
    exact (Files.append_ne hne _).trans ((Files.create_ne hne).trans
      (Board.disk_fclose (mesgFlags h.board) _))
  · exact ⟨h.board.sdDataDir, uiSeconds, List.mem_cons_self, rfl⟩
  · simp [mesgFlags]

/-- The counted bytes after a block: the block is a full one, or it ends the sample length. -/
theorem ofNat_length_append {b : Board} {samples block : List UInt8}
    (hcount : UInt64.ofNat samples.length = b.ulTotalLen) (hlen : block.length = b.blockLen.toNat) :
    UInt64.ofNat (samples ++ block).length =
      if b.remaining ≤ bramSize then b.ulSampleLength else b.ulTotalLen + bramSize := by
  rw [List.length_append, UInt64.ofNat_add, hcount, hlen, UInt64.ofNat_toNat, Board.blockLen]
  split
  · rw [Board.remaining, UInt64.add_comm, UInt64.sub_add_cancel]
  · rfl

/-- A data interrupt appends its block to the file in progress and to no other; with the last block
    the file becomes that of a finished acquisition. -/
theorem sdInv_dataIrq {h : History} {c : Board} {m : Bram} {io : List Io} (hinv : SdInv h)
    (hc : deliverDataS h.board true m = .ok (c, io)) : SdInv (h.delivered c io) := by
  cases hr : h.board.ucIsReady with
  | false =>
    rw [deliverDataS_idle (by rw [hr]; rfl), Except.ok.injEq, Prod.mk.injEq] at hc
    obtain ⟨rfl, rfl⟩ := hc
    have hsame : h.delivered h.board [] = h := by simp [History.delivered]
    rw [hsame]
    exact hinv
  | true =>
    obtain ⟨rfl, hio, -⟩ := deliverDataS_ok hr hc
    have hcur := hinv.current hr
    have hfiles : (h.board.afterBlock m).files =
        h.board.files.append h.board.sdFileName (h.board.blockBytes m) := by
      simp only [Board.afterBlock, hinv.sd, if_true, hcur.opened, Option.elim_some]
    have hself : (h.board.afterBlock m).files.opened h.board.sdFileName =
        some (h.config ++ (h.samples ++ h.board.blockBytes m)) := by
      rw [hfiles, Files.opened_append, hcur.file, Option.map_some, List.append_assoc]
    have hopen : (h.board.afterBlock m).pSdHPFd = some h.board.sdFileName := hcur.opened
    have hother : ∀ d ∈ h.finished, Kept (h.board.afterBlock m) d := by
      intro d hd
      have hne := hcur.fresh d hd
      refine ⟨?_, (hinv.kept d hd).2⟩
      rw [← (hinv.kept d hd).1, hcur.contents hd, Board.contents_closed, hfiles,
        Files.append_ne hne]
      rw [hopen]
      exact fun heq => hne (Option.some.inj heq).symm
    have hlen : (h.board.blockBytes m).length = h.board.blockLen.toNat := length_window _ _ _
    have hbytes := ofNat_length_append hcur.counted hlen
    by_cases hlast : h.board.remaining ≤ bramSize
    · have hready : (h.board.afterBlock m).ucIsReady = false :=
        decide_eq_false (UInt64.not_lt.mpr hlast)
      rw [if_pos hlast] at hbytes
      simp only [History.delivered, hr, hready, hio, Bool.not_false, Bool.and_self, if_true]
      refine ⟨hinv.sd, List.forall_mem_cons.mpr ⟨hcur.named, hinv.named⟩,
        List.forall_mem_cons.mpr ⟨⟨(Board.contents_open hopen).trans hself, fun hlt => ?_⟩, hother⟩,
        fun hf => absurd hf (by simp [hready]), fun _ _ => ⟨hopen, _, List.mem_cons_self, rfl⟩⟩
      rw [← UInt64.toNat_ofNat_of_lt' hlt, hbytes]
      rfl
    · have hready : (h.board.afterBlock m).ucIsReady = true :=
        decide_eq_true (UInt64.not_le.mp hlast)
      rw [if_neg hlast] at hbytes
      simp only [History.delivered, hr, hready, hio, Bool.not_true, Bool.and_false]
      refine ⟨hinv.sd, hinv.named, hother, fun _ => ⟨hcur.opened, hcur.named, hself, ?_, hcur.fresh⟩,
        fun hf => absurd hf (by simp [hready])⟩
      rw [hbytes, Board.afterBlock, if_neg hlast]

/-- What a step of the history is for each event. -/
def Recorded (h t : History) : Event → Prop
  | .acqStart p uiSeconds bitBuff =>
    ∃ c, acqStart h.board p uiSeconds bitBuff = .ok c ∧ t = { h with board := c }
  | .acqStop => t = { h with board := acqStop h.board }
  | .startIrq uiSeconds fopenOk => ∃ c, mesgThread h.board uiSeconds fopenOk = .ok c ∧
      t = { h with
        board := c, seconds := uiSeconds :: h.seconds, config := h.board.puiConfigBuf,
        samples := [] }
  | .dataIrq m => ∃ c io, deliverDataS h.board true m = .ok (c, io) ∧ t = h.delivered c io

theorem historyStep_ok {h t : History} {e : Event} (hstep : historyStep h e = .ok t) :
    Recorded h t e := by
  cases e with
  | acqStart p uiSeconds bitBuff =>
    obtain ⟨c, hc, ht⟩ := bind_eq_ok.mp hstep
    exact ⟨c, hc, (pure_eq_ok.mp ht).symm⟩
  | acqStop => exact (Except.ok.inj hstep).symm
  | startIrq uiSeconds fopenOk =>
    obtain ⟨c, hc, ht⟩ := bind_eq_ok.mp hstep
    exact ⟨c, hc, (pure_eq_ok.mp ht).symm⟩
  | dataIrq m =>
    obtain ⟨⟨c, io⟩, hc, ht⟩ := bind_eq_ok.mp hstep
    exact ⟨c, io, hc, (pure_eq_ok.mp ht).symm⟩

theorem sdInv_step {h t : History} {e : Event} (hinv : SdInv h) (hside : SdRun h e)
    (hs : StopSafe h e) (hstep : historyStep h e = .ok t) : SdInv t := by
  cases e with
  | acqStart p uiSeconds bitBuff =>
    obtain ⟨c, hc, rfl⟩ := historyStep_ok hstep
    exact sdInv_acqStart hinv hside hc
  | acqStop =>
    obtain rfl : t = _ := historyStep_ok hstep
    exact sdInv_acqStop hinv hs
  | startIrq uiSeconds fopenOk =>
    obtain ⟨c, hc, rfl⟩ := historyStep_ok hstep
    exact sdInv_startIrq hinv hside hc
  | dataIrq m =>
    obtain ⟨c, io, hc, rfl⟩ := historyStep_ok hstep
    exact sdInv_dataIrq hinv hc

/-! ### The buffer of stdio -/

/-- Of a finished file that is still open stdio holds nothing back. -/
structure WrittenInv (h : History) : Prop where
  files : SdInv h
  handed : h.board.ucIsReady = false → h.board.pSdHPFd ≠ none → h.board.files.held = []

theorem WrittenInv.written {h : History} (hinv : WrittenInv h) : FilesWritten h := by
  refine ⟨hinv.files.kept, fun d hd => ?_⟩
  have hkept := (hinv.files.kept d hd).1
  by_cases hopen : h.board.pSdHPFd = some d.name
  · rw [Board.contents_open hopen] at hkept
    refine (Files.opened_eq_disk hkept).mpr (hinv.handed ?_ (by simp [hopen]))
    cases hr : h.board.ucIsReady with
    | false => rfl
    | true =>
      have hcur := hinv.files.current hr
      exact absurd (Option.some.inj (hopen.symm.trans hcur.opened)) (hcur.fresh d hd)
  · rwa [Board.contents_closed hopen] at hkept

/-- Behind the last block stdio holds nothing back exactly if it was drained. -/
theorem held_afterBlock {h : History} {m : Bram} (hinv : SdInv h) (hr : h.board.ucIsReady = true)
    (hlast : h.board.remaining ≤ bramSize) :
    (h.board.afterBlock m).files.held = [] ↔ Drained h (.dataIrq m) := by
  have hlen : (h.board.blockBytes m).length = h.board.blockLen.toNat := length_window _ _ _
  have hheld : (h.board.afterBlock m).files.held = (h.board.files.held ++ h.board.blockBytes m).drop
      (h.board.files.drain (h.board.files.held ++ h.board.blockBytes m).length) := by
    simp only [Board.afterBlock, hinv.sd, if_true, (hinv.current hr).opened, Option.elim_some,
      Files.append]
  rw [hheld, List.drop_eq_nil_iff, List.length_append, hlen]
  exact ⟨fun hle _ _ => hle, fun hd => hd hr hlast⟩

theorem writtenInv_step {h t : History} {e : Event} (hinv : WrittenInv h) (hside : SdRun h e)
    (hok : StopSafe h e ∧ Drained h e) (hstep : historyStep h e = .ok t) : WrittenInv t := by
  refine ⟨sdInv_step hinv.files hside hok.1 hstep, ?_⟩
  cases e with
  | acqStart p uiSeconds bitBuff =>
    obtain ⟨c, hc, rfl⟩ := historyStep_ok hstep
    obtain ⟨csr, prbs, ram, rfl⟩ := acqStart_ok hc
    exact hinv.handed
  | acqStop =>
    obtain rfl : t = _ := historyStep_ok hstep
    intro _ hopen
    refine absurd ?_ hopen
    by_cases hfd : h.board.pSdHPFd = none
    · dsimp only
      rw [acqStop_other (fun _ => hfd)]
      exact hfd
    · obtain ⟨name, hname⟩ := Option.ne_none_iff_exists'.mp hfd
      dsimp only
      rw [acqStop_sd hinv.files.sd hname]
  | startIrq uiSeconds fopenOk =>
    obtain ⟨c, hc, rfl⟩ := historyStep_ok hstep
    intro hr
    rw [(mesgThread_ok hc).1] at hr
    cases hr
  | dataIrq m =>
    obtain ⟨c, io, hc, rfl⟩ := historyStep_ok hstep
    cases hr : h.board.ucIsReady with
    | false =>
      rw [deliverDataS_idle (by rw [hr]; rfl), Except.ok.injEq, Prod.mk.injEq] at hc
      obtain ⟨rfl, rfl⟩ := hc
      exact hinv.handed
    | true =>
      obtain ⟨rfl, -, -⟩ := deliverDataS_ok hr hc
      intro hdone _
      have hlast : h.board.remaining ≤ bramSize := UInt64.not_lt.mp (of_decide_eq_false hdone)
      exact (held_afterBlock hinv.files hr hlast).mpr hok.2

/-- A last block of which stdio holds something back is not in the file yet. -/
theorem drained_of_written {h t : History} {e : Event} (hinv : WrittenInv h)
    (hstep : historyStep h e = .ok t) (hside : SdRun h e) (ht : FilesWritten t) : Drained h e := by
  cases e with
  | acqStart | acqStop | startIrq => trivial
  | dataIrq m =>
    intro hr hlast
    obtain ⟨c, io, hc, rfl⟩ := historyStep_ok hstep
    have hfiles := sdInv_dataIrq hinv.files hc
    obtain ⟨rfl, -, -⟩ := deliverDataS_ok hr hc
    have hdone : (h.board.afterBlock m).ucIsReady = false := decide_eq_false (UInt64.not_lt.mpr hlast)
    have hopen : (h.board.afterBlock m).pSdHPFd = some h.board.sdFileName :=
      (hinv.files.current hr).opened
    obtain ⟨-, d, hd, hname⟩ := hfiles.left hdone (by
      rw [History.delivered]
      exact fun hnone => by simp [hopen] at hnone)
    have hkept : (h.board.afterBlock m).contents d.name = _ := (ht.1 d hd).1
    have hdisk := ht.2 d hd
    rw [Board.contents_open (hopen.trans (congrArg some hname.symm))] at hkept
    exact (held_afterBlock hinv.files hr hlast).mp ((Files.opened_eq_disk hkept).mp hdisk) hr hlast

/-- CORRECT: in a history in SD mode that runs through, the file of every finished acquisition is in
    the file system and complete in every state after it was finished, exactly if every `AcqStop`
    that finds a data file open interrupts an acquisition in progress. That counts what stdio holds of
    the file that is open; the bytes are in the file themselves exactly if stdio is also drained at
    the last block of every acquisition. -/
theorem filesKept_iff_stopSafe (csr : Csr.Regs) (ram : ℕ → UInt32) (files : Files)
    {es : List Event} {t : History}
    (h : run historyStep (History.boot (Board.boot csr ram files)) es = .ok t)
    (hside : Meets historyStep SdRun (History.boot (Board.boot csr ram files)) es) :
    (Always historyStep FilesKept (History.boot (Board.boot csr ram files)) es ↔
      Meets historyStep StopSafe (History.boot (Board.boot csr ram files)) es) ∧
    (Always historyStep FilesWritten (History.boot (Board.boot csr ram files)) es ↔
      Meets historyStep (fun h e => StopSafe h e ∧ Drained h e)
        (History.boot (Board.boot csr ram files)) es) := by
  have hboot := sdInv_boot csr ram files
  have hstop : ∀ {s e u}, SdInv s → SdRun s e → historyStep s e = .ok u →
      (FilesKept u ↔ StopSafe s e) := by
    intro s e u hinv hside hstep
    cases e with
    | acqStop =>
      obtain rfl : u = _ := historyStep_ok hstep
      exact filesKept_acqStop hinv
    | acqStart | startIrq | dataIrq =>
      exact iff_of_true (sdInv_step hinv hside trivial hstep).kept trivial
  constructor
  · exact always_iff_meets_of_ok SdInv SdRun SdInv.kept sdInv_step hstop hboot hside h
  · refine always_iff_meets_of_ok WrittenInv SdRun WrittenInv.written writtenInv_step ?_
      ⟨hboot, fun _ hne => absurd rfl hne⟩ hside h
    intro s e u hinv hside hstep
    constructor
    · intro hu
      exact ⟨(hstop hinv.files hside hstep).mp hu.1, drained_of_written hinv hstep hside hu⟩
    · intro hok
      exact (writtenInv_step hinv hside hok hstep).written

/-- An acquisition of 4 bytes, finished by its first block and then stopped: its file is removed. -/
theorem filesKept_fails_on_stop : ¬ ∀ (es : List Event) (t : History),
    run historyStep (History.boot benchBoard) es = .ok t →
    Meets historyStep SdRun (History.boot benchBoard) es → FilesKept t := by
  intro h
  have hkept := h [.acqStart { shortProfile with savePosition := 0 } 5 (fun _ => 0),
    .startIrq 7 true, .dataIrq zeroBram, .acqStop] _ rfl (by decide)
  exact absurd hkept (by decide)

/-- A finished acquisition, the next one started in another second and then stopped: its file is kept,
    but its 352 bytes are behind the last block not in it yet. -/
theorem filesKept_iff_stopSafe_next :
    Always historyStep FilesKept (History.boot benchBoard)
      [.acqStart { shortProfile with savePosition := 0 } 5 (fun _ => 0),
        .startIrq 7 true, .dataIrq zeroBram, .startIrq 8 true, .acqStop] ∧
    ¬ Always historyStep FilesWritten (History.boot benchBoard)
      [.acqStart { shortProfile with savePosition := 0 } 5 (fun _ => 0),
        .startIrq 7 true, .dataIrq zeroBram, .startIrq 8 true, .acqStop] := by
  have hlaws := @filesKept_iff_stopSafe (fun _ => 0) (fun _ => 0) Files.empty
    [.acqStart { shortProfile with savePosition := 0 } 5 (fun _ => 0),
      .startIrq 7 true, .dataIrq zeroBram, .startIrq 8 true, .acqStop] _ rfl (by decide)
  exact ⟨hlaws.1.mpr (by decide), hlaws.2.not.mpr (by decide +kernel)⟩

end AcqBoard.App
