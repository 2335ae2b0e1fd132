import AcqBoard.App.SdFiles
import AcqBoard.App.Settings
import AcqBoard.Schemes.Codec

/-! What a data file tells about itself.

    A data file begins with the configuration block, and the samples follow. Whoever reads it needs the
    block to know what the samples are and how many there should be. The block is that of the start
    interrupt, the sample length that of the last configuration: they belong together exactly if no
    `AcqStart` changes the sample length while an acquisition is in progress. -/

namespace AcqBoard.App
open Schemes

/-! ### The members of the block -/

/-- A word in memory. -/
def wordCodec : Codec UInt32 where
  size := 4
  encode := le32
  decode bs := match bs with
    | [a, b, c, d] => some (UInt32.ofNat
        (a.toNat + 256 * (b.toNat + 256 * (c.toNat + 256 * d.toNat))))
    | _ => none
  length_encode _ := rfl
  decode_encode x := by
    have hlt := x.toNat_lt
    have h₀ : x.toUInt8.toNat = x.toNat % 256 := UInt32.toNat_toUInt8 x
    have h₁ : (x >>> 8).toUInt8.toNat = x.toNat / 256 % 256 := by
      rw [UInt32.toNat_toUInt8, UInt32.toNat_shiftRight, Nat.shiftRight_eq_div_pow]
      rfl
    have h₂ : (x >>> 16).toUInt8.toNat = x.toNat / 65536 % 256 := by
      rw [UInt32.toNat_toUInt8, UInt32.toNat_shiftRight, Nat.shiftRight_eq_div_pow]
      rfl
    have h₃ : (x >>> 24).toUInt8.toNat = x.toNat / 16777216 % 256 := by
      rw [UInt32.toNat_toUInt8, UInt32.toNat_shiftRight, Nat.shiftRight_eq_div_pow]
      rfl
    have hsum : x.toNat % 256 + 256 * (x.toNat / 256 % 256 + 256 * (x.toNat / 65536 % 256 +
        256 * (x.toNat / 16777216 % 256))) = x.toNat := by omega
    rw [le32]
    dsimp only
    rw [h₀, h₁, h₂, h₃, hsum, UInt32.ofNat_toNat]

/-- An `int32_t` in memory. -/
def intCodec : Codec Int32 := wordCodec.map Int32.toUInt32 UInt32.toInt32 Int32.toInt32_toUInt32

theorem DataDir.length_buffer (d : DataDir) : d.buffer.length = 64 := by
  have hfits := d.fits
  rw [DataDir.buffer, List.length_append, List.length_replicate]
  omega

theorem DataDir.ofBuffer_buffer (d : DataDir) : DataDir.ofBuffer d.buffer = .ok d := by
  have hstr : Ini.strOf d.buffer = d.bytes := by
    rw [DataDir.buffer, Ini.strOf_append d.noNul, Ini.strOf_replicate, List.append_nil]
  have hfits : (Ini.strOf d.buffer).length < 64 := hstr ▸ d.fits
  rw [DataDir.ofBuffer, dif_pos hfits]
  cases d
  simp only [hstr]

/-- The 64 bytes of a directory. -/
def dirCodec : Codec DataDir where
  size := 64
  encode := DataDir.buffer
  decode bs := (DataDir.ofBuffer bs).toOption
  length_encode := DataDir.length_buffer
  decode_encode d := by rw [d.ofBuffer_buffer]; rfl

/-! ### The block -/

/-- The settings in a configuration block: a profile that has its directory. -/
structure Told where
  profile : Profile
  dir : DataDir
  own : profile.dataDirectory = some dir

/-- A profile with the directory in force. -/
def Told.of (p : Profile) (dir : DataDir) : Told := ⟨{ p with dataDirectory := some dir }, dir, rfl⟩

/-- The words of the block that are never written. -/
def rawCodec : Codec (Int32 × Int32 × DataDir × Int32 × Int32 × Int32 × Int32 × Int32 × Int32 × Int32 ×
    Int32 × Int32 × Unit) :=
  intCodec.pair <| intCodec.pair <| dirCodec.pair <| intCodec.pair <| intCodec.pair <| intCodec.pair <|
    intCodec.pair <| intCodec.pair <| intCodec.pair <| intCodec.pair <| intCodec.pair <|
      intCodec.pair (.blank 240)

/-- The configuration block, member by member. -/
def blockCodec : Codec Told :=
  rawCodec.map
    (fun t => (t.profile.workMode, t.profile.syncMode, t.dir, t.profile.fullScalRange,
      t.profile.inputSource, t.profile.lpfFilter, t.profile.adcSamplingRates, t.profile.impulseWidth,
      t.profile.sequenceLength, t.profile.generationPolymerization, t.profile.initialValue,
      t.profile.savePosition, ()))
    (fun (workMode, syncMode, dir, fullScalRange, inputSource, lpfFilter, adcSamplingRates, impulseWidth,
        sequenceLength, generationPolymerization, initialValue, savePosition, _) =>
      ⟨{ workMode, syncMode, fullScalRange, lpfFilter, inputSource, impulseWidth, adcSamplingRates,
         sequenceLength, generationPolymerization, initialValue, savePosition,
         dataDirectory := some dir }, dir, rfl⟩)
    (fun t => by
      obtain ⟨p, dir, hown⟩ := t
      cases p
      dsimp only at hown
      subst hown
      rfl)

/-- The block that `Configuration` fills. -/
theorem configBlock_eq (p : Profile) (dir : DataDir) :
    configBlock p dir = blockCodec.encode (Told.of p dir) := by
  simp only [configBlock, List.append_assoc]
  rfl

theorem size_blockCodec : blockCodec.size = 348 := rfl

theorem configBlock_inj {p q : Profile} {dir dir' : DataDir}
    (h : configBlock p dir = configBlock q dir') : Told.of p dir = Told.of q dir' := by
  rw [configBlock_eq, configBlock_eq] at h
  exact blockCodec.encode_inj h

/-- What a reader makes of a data file: the settings and the samples. -/
def readData (file : List UInt8) : Option (Told × List UInt8) :=
  (blockCodec.decode (file.take 348)).map (·, file.drop 348)

theorem readData_configBlock (p : Profile) (dir : DataDir) (samples : List UInt8) :
    readData (configBlock p dir ++ samples) = some (Told.of p dir, samples) := by
  have hlen : (configBlock p dir).length = 348 := by
    rw [configBlock_eq, blockCodec.length_encode, size_blockCodec]
  rw [readData, List.take_left' hlen, List.drop_left' hlen, configBlock_eq, blockCodec.decode_encode]
  rfl

/-! ### Whole histories -/

/-- A configuration block is that of a sample length. -/
def Describes (config : List UInt8) (len : UInt64) : Prop :=
  ∃ p dir, config = configBlock p dir ∧ p.sampleLength = len

/-- A reader of the file, once it is closed, gets the samples, and settings with the sample length. -/
def Tells (b : Board) (name samples : List UInt8) (len : UInt64) : Prop :=
  ∃ t, (b.contents name).bind readData = some (t, samples) ∧ t.profile.sampleLength = len

/-- The law: the files of all finished acquisitions tell their sample length, which is how many samples
    there are, and the file in progress tells the sample length that the program works with. -/
structure SelfTold (h : History) : Prop where
  finished : ∀ d ∈ h.finished, Tells h.board d.name d.samples d.sampleLength ∧
    (d.samples.length < 2 ^ 64 → d.samples.length = d.sampleLength.toNat)
  current : h.board.ucIsReady = true →
    Tells h.board h.board.sdFileName h.samples h.board.ulSampleLength

/-- `AcqStart` keeps the sample length of an acquisition in progress. -/
def LengthKept (h : History) : Event → Prop
  | .acqStart p _ _ => h.board.ucIsReady = true → p.sampleLength = h.board.ulSampleLength
  | _ => True

instance (h : History) : (e : Event) → Decidable (LengthKept h e)
  | .acqStart .. => inferInstanceAs (Decidable (_ → _))
  | .acqStop => isTrue trivial
  | .startIrq .. => isTrue trivial
  | .dataIrq _ => isTrue trivial

/-- An SD run whose stops are safe for the files. -/
def SafeSdRun (h : History) (e : Event) : Prop := SdRun h e ∧ StopSafe h e

instance (h : History) (e : Event) : Decidable (SafeSdRun h e) := inferInstanceAs (Decidable (_ ∧ _))

/-- The blocks belong to the sample lengths: the one to write next, the one in the file in progress and
    those of the finished acquisitions. -/
structure BlocksOk (h : History) : Prop where
  files : SdInv h
  next : Describes h.board.puiConfigBuf h.board.ulSampleLength
  current : h.board.ucIsReady = true → Describes h.config h.board.ulSampleLength
  finished : ∀ d ∈ h.finished, Describes d.config d.sampleLength

section
variable {h t : History}

/-- Before the first configuration the block is that of no settings at all. -/
theorem describes_boot : Describes (List.replicate 348 0) 0 := by
  refine ⟨⟨0, 0, 0, 0, 0, 0, 0, 0, 0, 0, 0, none⟩, ⟨[], by decide, by decide⟩, ?_, by decide⟩
  have hword : le32 (0 : Int32).toUInt32 = List.replicate 4 0 := rfl
  simp only [configBlock, hword, DataDir.buffer, List.nil_append, List.length_nil,
    List.replicate_append_replicate]

theorem blocksOk_boot (csr : Csr.Regs) (ram : ℕ → UInt32) (files : Files) :
    BlocksOk (History.boot (Board.boot csr ram files)) where
  files := sdInv_boot csr ram files
  next := describes_boot
  current hr := by cases hr
  finished _ hd := by cases hd

theorem tells_iff {b : Board} {name config samples : List UInt8} {n len : UInt64}
    (hfile : b.contents name = some (config ++ samples)) (hd : Describes config n) :
    Tells b name samples len ↔ n = len := by
  obtain ⟨p, dir, rfl, hp⟩ := hd
  have hread : (b.contents name).bind readData = some (Told.of p dir, samples) := by
    rw [hfile, Option.bind_some, readData_configBlock]
  constructor
  · rintro ⟨t, ht, hlen⟩
    obtain ⟨rfl, -⟩ := Prod.mk.inj (Option.some.inj (hread.symm.trans ht))
    exact hp.symm.trans hlen
  · rintro rfl
    exact ⟨_, hread, hp⟩

theorem BlocksOk.selfTold (hb : BlocksOk h) : SelfTold h where
  finished d hd :=
    ⟨(tells_iff (hb.files.kept d hd).1 (hb.finished d hd)).mpr rfl, (hb.files.kept d hd).2⟩
  current hr := (tells_iff (hb.files.current hr).contents_self (hb.current hr)).mpr rfl

/-- Only a new configuration changes the block and the sample length, and it changes both. -/
theorem blocksOk_step {e : Event} (hb : BlocksOk h) (hside : SafeSdRun h e) (hok : LengthKept h e)
    (hstep : historyStep h e = .ok t) : BlocksOk t := by
  have hfiles := sdInv_step hb.files hside.1 hside.2 hstep
  cases e with
  | acqStart p uiSeconds bitBuff =>
    obtain ⟨c, hc, rfl⟩ := historyStep_ok hstep
    obtain ⟨csr, prbs, ram, rfl⟩ := acqStart_ok hc
    refine ⟨hfiles, ⟨p, _, rfl, rfl⟩, ?_, hb.finished⟩
    intro hr
    have hlen : p.sampleLength = h.board.ulSampleLength := hok hr
    have hcur := hb.current hr
    rw [← hlen] at hcur
    exact hcur
  | acqStop =>
    obtain rfl : t = _ := historyStep_ok hstep
    refine ⟨hfiles, ?_, ?_, hb.finished⟩
    · by_cases hno : h.board.uiSavePC = 0 → h.board.pSdHPFd = none
      · rw [acqStop_other hno]
        exact hb.next
      · push Not at hno
        obtain ⟨name, hname⟩ := Option.ne_none_iff_exists'.mp hno.2
        rw [acqStop_sd hno.1 hname]
        exact hb.next
    · intro hr
      rw [show ({ h with board := acqStop h.board } : History).board = acqStop h.board from rfl,
        (acqStop_frame h.board).1] at hr
      cases hr
  | startIrq uiSeconds fopenOk =>
    obtain ⟨c, hc, rfl⟩ := historyStep_ok hstep
    obtain ⟨-, -, rfl⟩ := mesgFile_sd (b := mesgFlags h.board) hb.files.sd hc
    exact ⟨hfiles, hb.next, fun _ => hb.next, hb.finished⟩
  | dataIrq m =>
    obtain ⟨c, io, hc, rfl⟩ := historyStep_ok hstep
    cases hr : h.board.ucIsReady with
    | false =>
      rw [deliverDataS_idle (by rw [hr]; rfl), Except.ok.injEq, Prod.mk.injEq] at hc
      obtain ⟨rfl, rfl⟩ := hc
      refine ⟨hfiles, hb.next, hb.current, ?_⟩
      simpa [History.delivered, hr] using hb.finished
    | true =>
      obtain ⟨rfl, hio, -⟩ := deliverDataS_ok hr hc
      refine ⟨hfiles, hb.next, fun _ => hb.current hr, ?_⟩
      intro d hd
      rw [History.delivered] at hd
      dsimp only at hd
      split at hd
      · rcases List.mem_cons.mp hd with rfl | hd
        · exact hb.current hr
        · exact hb.finished d hd
      · exact hb.finished d hd

/-- A configuration during an acquisition keeps the law only with the same sample length. -/
theorem lengthKept_of_selfTold {e : Event} (hb : BlocksOk h) (hstep : historyStep h e = .ok t)
    (ht : SelfTold t) : LengthKept h e := by
  cases e with
  | acqStart p uiSeconds bitBuff =>
    intro hr
    obtain ⟨c, hc, rfl⟩ := historyStep_ok hstep
    obtain ⟨csr, prbs, ram, rfl⟩ := acqStart_ok hc
    exact ((tells_iff (hb.files.current hr).contents_self (hb.current hr)).mp (ht.current hr)).symm
  | acqStop => trivial
  | startIrq uiSeconds fopenOk => trivial
  | dataIrq m => trivial

end

/-- CORRECT (data files): in a history in SD mode that runs through and whose stops are safe, the file
    of every finished acquisition tells in every later state how many samples it has and what they
    are, and the one in progress how many there will be, exactly if no `AcqStart` changes the sample
    length during an acquisition. -/
theorem selfTold_iff_lengthKept (csr : Csr.Regs) (ram : ℕ → UInt32) (files : Files)
    {es : List Event} {t : History}
    (h : run historyStep (History.boot (Board.boot csr ram files)) es = .ok t)
    (hside : Meets historyStep SafeSdRun (History.boot (Board.boot csr ram files)) es) :
    Always historyStep SelfTold (History.boot (Board.boot csr ram files)) es ↔
      Meets historyStep LengthKept (History.boot (Board.boot csr ram files)) es := by
  refine always_iff_meets_of_ok BlocksOk SafeSdRun BlocksOk.selfTold blocksOk_step ?_
    (blocksOk_boot csr ram files) hside h
  intro s e u hb hs hstep
  exact ⟨lengthKept_of_selfTold hb hstep, fun hok => (blocksOk_step hb hs hok hstep).selfTold⟩

/-- Configured anew with the same settings while the first block is out. -/
theorem selfTold_iff_lengthKept_again : Always historyStep SelfTold (History.boot benchBoard)
    [.acqStart { benchProfile with savePosition := 0 } 5 (fun _ => 0), .startIrq 7 true,
      .dataIrq zeroBram, .acqStart { benchProfile with savePosition := 0 } 8 (fun _ => 0),
      .startIrq 9 true, .acqStop] :=
  (selfTold_iff_lengthKept (fun _ => 0) (fun _ => 0) Files.empty rfl (by decide)).mpr (by decide)

end AcqBoard.App
