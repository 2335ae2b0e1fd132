import AcqBoard.App.Acquisition
import AcqBoard.App.Period
import AcqBoard.Schemes.Trace

/-! The control registers over a whole history.

    The hardware sees the registers between any two writes, not only between two commands. `AcqStart`
    rewrites the settings field by field and sets `REC_EN` last; `AcqStop` clears `REC_EN` first. So
    `REC_EN` guards the settings: while it is set they are those of the last `AcqStart`, exactly if
    no `AcqStart` is handled while it is set. The writes are those that the handlers log; what an event
    logs depends on the event alone (`stepLogged_ok`). -/

namespace AcqBoard.App
open Schemes Csr Lfsr

/-! ### The writes of a command -/

/-- An event with its calls of `RegWrite`. Interrupts write no register. -/
def stepLogged (b : Board) : Event → Except Fault (Board × List (UInt32 × UInt32))
  | .acqStart p uiSeconds bitBuff => acqStartLogged b p uiSeconds bitBuff
  | .acqStop => .ok (acqStopLogged b)
  | .startIrq uiSeconds fopenOk => (mesgThread b uiSeconds fopenOk).map fun c => (c, [])
  | .dataIrq m => (deliverDataS b true m).map fun r => (r.1, [])

theorem next_stepLogged : next stepLogged = step := by
  funext b e
  cases e with
  | acqStart p uiSeconds bitBuff => rfl
  | acqStop => rfl
  | startIrq uiSeconds fopenOk =>
    rw [next, stepLogged, step]
    cases mesgThread b uiSeconds fopenOk <;> rfl
  | dataIrq m =>
    rw [next, stepLogged, step]
    cases deliverDataS b true m <;> rfl

/-- The writes of `Configuration` before the schedule. -/
def settingWrites (p : Profile) : List (UInt32 × UInt32) :=
  [(csrInputSel, (getRealData sInputSouce p.inputSource).toUInt32),
    (csrTransEn, (getRealData sWorkMode p.workMode).toUInt32),
    (csrSyncMode, (getRealData sSyncMode p.syncMode).toUInt32),
    (csrFllScaleSet, (getRealData sFullRange p.fullScalRange).toUInt32),
    (csrFltSel, (getRealData sFilter p.lpfFilter).toUInt32),
    (csrCToIoCmd, 0xFF00 |||
      ((sSampleRateReg[p.adcSamplingRates.toUInt32.toUInt8.toNat]?).getD 0).toUInt32),
    (csrCToIoCmd, 0x0000)]

/-- The writes of `AcqStart` in front of the last one. -/
def configWrites (p : Profile) (uiSeconds : UInt32) : List (UInt32 × UInt32) :=
  settingWrites p ++ scheduleWrites p.sequenceLength p.impulseWidth uiSeconds

def startWrites (p : Profile) (uiSeconds : UInt32) : List (UInt32 × UInt32) :=
  configWrites p uiSeconds ++ [(csrRecEn, 1)]

def stopWrites : List (UInt32 × UInt32) :=
  (csrRecEn, 0) :: [(csrTAcq, 0), (csrTDelta, 0), (csrTStart, 0)]

/-- What an event logs. -/
def Event.writes : Event → List (UInt32 × UInt32)
  | .acqStart p uiSeconds _ => startWrites p uiSeconds
  | .acqStop => stopWrites
  | .startIrq .. => []
  | .dataIrq _ => []

/-- The labels that commands write. -/
def commandLabels : List UInt32 :=
  [csrInputSel, csrTransEn, csrSyncMode, csrFllScaleSet, csrFltSel, csrCToIoCmd, csrRecEn] ++
    scheduleLabels

theorem fields_command : Fields {l | l ∈ commandLabels} :=
  Fields.of_list (by decide) (by decide)

theorem configWrites_labels (p : Profile) (uiSeconds : UInt32) :
    ∀ w ∈ configWrites p uiSeconds, w.1 ∈ commandLabels ∧ w.1 ≠ csrRecEn := by
  have h : ((configWrites p uiSeconds).map Prod.fst).all
      (fun l => l ∈ commandLabels ∧ l ≠ csrRecEn) = true := by
    change [csrInputSel, csrTransEn, csrSyncMode, csrFllScaleSet, csrFltSel, csrCToIoCmd,
      csrCToIoCmd, csrCodeLength, csrCodeClkCycles, csrTAcq, csrTDelta, csrTStart].all _ = true
    decide
  exact fun w hw => of_decide_eq_true (List.all_eq_true.mp h w.1 (List.mem_map_of_mem hw))

theorem Event.writes_labels (e : Event) : ∀ w ∈ e.writes, w.1 ∈ commandLabels := by
  intro w hw
  cases e with
  | acqStart p uiSeconds bitBuff =>
    rcases List.mem_append.mp hw with hw | hw
    · exact (configWrites_labels p uiSeconds w hw).1
    · rw [List.mem_singleton.mp hw]
      decide
  | acqStop =>
    have h : stopWrites.all (fun w => w.1 ∈ commandLabels) = true := by decide
    exact of_decide_eq_true (List.all_eq_true.mp h w hw)
  | startIrq uiSeconds fopenOk => cases hw
  | dataIrq m => cases hw

theorem regWrites_append (r : Regs) (ws ws' : List (UInt32 × UInt32)) :
    regWrites r (ws ++ ws') = regWrites (regWrites r ws) ws' := List.foldl_append

theorem acqStartLogged_ok {b c : Board} {p : Profile} {uiSeconds : UInt32} {bitBuff : ℕ → UInt8}
    {calls : List (UInt32 × UInt32)} (h : acqStartLogged b p uiSeconds bitBuff = .ok (c, calls)) :
    calls = startWrites p uiSeconds ∧ c.csr = regWrites b.csr calls := by
  obtain ⟨⟨d, calls'⟩, hd, h⟩ := bind_eq_ok.mp h
  obtain ⟨rfl, rfl⟩ := Prod.mk.inj (pure_eq_ok.mp h)
  suffices hconf : calls' = configWrites p uiSeconds ∧ d.csr = regWrites b.csr calls' by
    obtain ⟨hcalls, hcsr⟩ := hconf
    rw [RegLog.regWrite, regWrites_concat, ← hcsr, startWrites, hcalls]
    exact ⟨rfl, rfl⟩
  unfold configurationLogged at hd
  obtain ⟨_, _, hd⟩ := bind_eq_ok.mp hd
  obtain ⟨r, hr, hd⟩ := bind_eq_ok.mp hd
  obtain ⟨_, _, hd⟩ := bind_eq_ok.mp hd
  obtain ⟨⟨prbs, ram⟩, _, hd⟩ := bind_eq_ok.mp hd
  dsimp only at hd
  split at hd
  · cases hd
  · obtain ⟨rfl, rfl⟩ := Prod.mk.inj (pure_eq_ok.mp hd)
    obtain ⟨reg, hreg, hr⟩ := bind_eq_ok.mp hr
    obtain rfl := pure_eq_ok.mp hr
    have hget := (arrayGet_eq_ok.mp hreg).2
    rw [Int.toNat_natCast] at hget
    rw [configWrites, settingWrites, hget]
    simp only [RegLog.regWrite]
    exact ⟨rfl, rfl⟩

theorem acqStopLogged_ok (b : Board) : (acqStopLogged b).2 = stopWrites ∧
    (acqStop b).csr = regWrites b.csr stopWrites := by
  refine ⟨rfl, ?_⟩
  unfold acqStop acqStopLogged
  dsimp only
  split
  · split
    · rw [Board.csr_fclose]
      rfl
    · rfl
  · rfl

theorem mesgThread_csr {b c : Board} {uiSeconds : UInt32} {fopenOk : Bool}
    (h : mesgThread b uiSeconds fopenOk = .ok c) : c.csr = b.csr := by
  by_cases hpc : (mesgFlags b).uiSavePC = 0
  · obtain ⟨-, -, rfl⟩ := mesgFile_sd hpc h
    rfl
  · rw [mesgThread, mesgFile_pc hpc] at h
    rw [← Except.ok.inj h]
    rfl

theorem deliverDataS_csr {b : Board} {m : Bram} {r : Board × List Io}
    (h : deliverDataS b true m = .ok r) : r.1.csr = b.csr := by
  cases hr : b.ucIsReady with
  | false =>
    rw [deliverDataS_idle (by rw [hr]; rfl)] at h
    rw [← Except.ok.inj h]
  | true =>
    rw [(deliverDataS_ok hr h).1]
    rfl

/-- STEP: an event logs its writes, in its order, and they make the registers. -/
theorem stepLogged_ok {b c : Board} {e : Event} {calls : List (UInt32 × UInt32)}
    (h : stepLogged b e = .ok (c, calls)) : calls = e.writes ∧ c.csr = regWrites b.csr calls := by
  cases e with
  | acqStart p uiSeconds bitBuff => exact acqStartLogged_ok h
  | acqStop =>
    obtain ⟨rfl, rfl⟩ := Prod.mk.inj (Except.ok.inj h)
    exact acqStopLogged_ok b
  | startIrq uiSeconds fopenOk =>
    obtain ⟨d, hd, heq⟩ := map_eq_ok.mp h
    obtain ⟨rfl, rfl⟩ := Prod.mk.inj heq
    exact ⟨rfl, mesgThread_csr hd⟩
  | dataIrq m =>
    obtain ⟨r, hr, heq⟩ := map_eq_ok.mp h
    obtain ⟨rfl, rfl⟩ := Prod.mk.inj heq
    exact ⟨rfl, deliverDataS_csr hr⟩

theorem step_csr {b c : Board} {e : Event} (h : step b e = .ok c) :
    c.csr = regWrites b.csr e.writes := by
  rw [← next_stepLogged] at h
  obtain ⟨calls, h⟩ := next_eq_ok.mp h
  obtain ⟨rfl, hcsr⟩ := stepLogged_ok h
  exact hcsr

/-- RUN: the log of a history that runs through. -/
theorem trace_stepLogged {b c : Board} {es : List Event} {logs : List (List (UInt32 × UInt32))}
    (h : trace stepLogged b es = .ok (c, logs)) :
    run step b es = .ok c ∧ logs.flatten = es.flatMap Event.writes := by
  induction es generalizing b logs with
  | nil =>
    obtain ⟨rfl, rfl⟩ := Prod.mk.inj (Except.ok.inj h)
    exact ⟨rfl, rfl⟩
  | cons e es ih =>
    obtain ⟨d, calls, rest, hd, htail, rfl⟩ := trace_cons_ok.mp h
    obtain ⟨hrun, hflat⟩ := ih htail
    have hstep : step b e = .ok d := by
      rw [← next_stepLogged]
      exact next_eq_ok.mpr ⟨calls, hd⟩
    refine ⟨run_cons_ok.mpr ⟨d, hstep, hrun⟩, ?_⟩
    rw [List.flatten_cons, List.flatMap_cons, hflat, (stepLogged_ok hd).1]

/-- RUN: the registers after a history are its writes on the first ones. -/
theorem run_csr {b c : Board} {es : List Event} (h : run step b es = .ok c) :
    c.csr = regWrites b.csr (es.flatMap Event.writes) := by
  induction es generalizing b with
  | nil =>
    obtain rfl : b = c := by simpa using h
    rfl
  | cons e es ih =>
    obtain ⟨d, hd, h⟩ := run_cons_ok.mp h
    rw [List.flatMap_cons, regWrites_append, ← step_csr hd]
    exact ih h

/-! ### The guard -/

/-- The recorder is enabled. -/
def recEn (r : Regs) : Bool := regRead r csrRecEn = 1

theorem recEn_regWrites (r : Regs) {ws : List (UInt32 × UInt32)}
    (hws : ∀ w ∈ ws, w.1 ∈ commandLabels) :
    recEn (regWrites r ws) = match (valuesOf csrRecEn ws).getLast? with
      | some v => decide (v.toNat % 2 = 1)
      | none => recEn r := by
  have hread := regRead_regWrites fields_command r (l := csrRecEn) (by decide) hws
  have hone : ∀ x : UInt32, (decide (x = 1)) = decide (x.toNat = 1) :=
    fun x => decide_eq_decide.mpr UInt32.toNat_inj.symm
  unfold recEn
  rw [hone, hread]
  cases (valuesOf csrRecEn ws).getLast? with
  | none => exact (hone _).symm
  | some v => rfl

theorem valuesOf_eq_nil {l : UInt32} {ws : List (UInt32 × UInt32)} (h : ∀ w ∈ ws, w.1 ≠ l) :
    valuesOf l ws = [] := by
  rw [valuesOf, List.map_eq_nil_iff, List.filter_eq_nil_iff]
  intro w hw
  simpa using h w hw

/-- Until its last write, `AcqStart` leaves the recorder as it is. -/
theorem recEn_config {r : Regs} {p : Profile} {uiSeconds : UInt32} {ws : List (UInt32 × UInt32)}
    (h : ws <+: configWrites p uiSeconds) : recEn (regWrites r ws) = recEn r := by
  have hlabels : ∀ w ∈ ws, w.1 ∈ commandLabels ∧ w.1 ≠ csrRecEn :=
    fun w hw => configWrites_labels p uiSeconds w (h.subset hw)
  rw [recEn_regWrites r fun w hw => (hlabels w hw).1, valuesOf_eq_nil fun w hw => (hlabels w hw).2]
  rfl

theorem recEn_started (r : Regs) (p : Profile) (uiSeconds : UInt32) :
    recEn (regWrites r (startWrites p uiSeconds)) = true := by
  have hlabels : ∀ w ∈ startWrites p uiSeconds, w.1 ∈ commandLabels :=
    Event.writes_labels (.acqStart p uiSeconds fun _ => 0)
  have hlast : valuesOf csrRecEn (startWrites p uiSeconds) =
      valuesOf csrRecEn (configWrites p uiSeconds) ++ [1] := valuesOf_concat_self _ (csrRecEn, 1)
  rw [recEn_regWrites r hlabels, hlast, List.getLast?_concat]
  rfl

/-- From its first write on, `AcqStop` leaves the recorder disabled. -/
theorem recEn_stop {r : Regs} {w : UInt32 × UInt32} {ws : List (UInt32 × UInt32)}
    (h : w :: ws <+: stopWrites) : recEn (regWrites r (w :: ws)) = false := by
  obtain ⟨rfl, hws⟩ := List.cons_prefix_cons.mp h
  have hrest : [(csrTAcq, (0 : UInt32)), (csrTDelta, 0), (csrTStart, 0)].all
      (fun w => w.1 ≠ csrRecEn) = true := by
    decide
  have hnil : valuesOf csrRecEn ws = [] := valuesOf_eq_nil fun w hw =>
    of_decide_eq_true (List.all_eq_true.mp hrest w (hws.subset hw))
  have hone : valuesOf csrRecEn ((csrRecEn, 0) :: ws) = 0 :: valuesOf csrRecEn ws := rfl
  rw [recEn_regWrites r fun w hw => Event.writes_labels .acqStop w (h.subset hw), hone, hnil]
  rfl

/-- `AcqStart` is handled with the recorder disabled. -/
def RecorderOff (b : Board) : Event → Prop
  | .acqStart .. => recEn b.csr = false
  | _ => True

instance (b : Board) : (e : Event) → Decidable (RecorderOff b e)
  | .acqStart .. => inferInstanceAs (Decidable (_ = _))
  | .acqStop => isTrue trivial
  | .startIrq .. => isTrue trivial
  | .dataIrq _ => isTrue trivial

/-- While the recorder is enabled, no field but `REC_EN` is written. -/
def Quiet (r : Regs) (ws : List (UInt32 × UInt32)) : Prop :=
  ∀ pre w, pre ++ [w] <+: ws → recEn (regWrites r pre) = true → w.1 = csrRecEn

/-- Where a history is cut: in its first part, or behind it. -/
theorem cut_append {α : Type*} {pre l m : List α} (h : pre <+: l ++ m) :
    pre <+: l ∨ ∃ t, t <+: m ∧ pre = l ++ t := by
  rcases List.prefix_or_prefix_of_prefix h (List.prefix_append l m) with hle | ⟨t, rfl⟩
  · exact Or.inl hle
  · exact Or.inr ⟨t, (List.prefix_append_right_inj l).mp h, rfl⟩

theorem quiet_append {r : Regs} {ws ws' : List (UInt32 × UInt32)} :
    Quiet r (ws ++ ws') ↔ Quiet r ws ∧ Quiet (regWrites r ws) ws' := by
  constructor
  · intro h
    refine ⟨fun pre w hpre => h pre w (hpre.trans (List.prefix_append ws ws')), ?_⟩
    intro pre w hpre hrec
    rw [← regWrites_append] at hrec
    refine h (ws ++ pre) w ?_ hrec
    rw [List.append_assoc]
    exact (List.prefix_append_right_inj ws).mpr hpre
  · rintro ⟨h, h'⟩ pre w hpre hrec
    rcases cut_append hpre with hle | ⟨t, ht, heq⟩
    · exact h pre w hle hrec
    · rcases List.eq_nil_or_concat t with rfl | ⟨t', w', rfl⟩
      · exact h pre w (by rw [heq, List.append_nil]) hrec
      · rw [List.concat_eq_append] at heq ht
        rw [← List.append_assoc] at heq
        obtain ⟨rfl, hw⟩ := List.append_inj' heq rfl
        obtain rfl : w = w' := by simpa using hw
        rw [regWrites_append] at hrec
        exact h' t' w ht hrec

theorem quiet_event {b : Board} (e : Event) : Quiet b.csr e.writes ↔ RecorderOff b e := by
  cases e with
  | acqStart p uiSeconds bitBuff =>
    constructor
    · intro h
      by_contra hon
      have hfirst := h [] (csrInputSel, (getRealData sInputSouce p.inputSource).toUInt32)
        (List.prefix_append _ _) (Bool.not_eq_false _ ▸ hon)
      have hne : csrInputSel ≠ csrRecEn := by decide
      exact hne hfirst
    · intro hoff pre w hpre hrec
      rcases List.prefix_concat_iff.mp hpre with heq | hle
      · obtain ⟨-, hw⟩ := List.append_inj' heq rfl
        obtain rfl : w = (csrRecEn, 1) := by simpa using hw
        rfl
      · have hpre' : pre <+: configWrites p uiSeconds := (List.prefix_append pre [w]).trans hle
        rw [recEn_config hpre', show recEn b.csr = false from hoff] at hrec
        cases hrec
  | acqStop =>
    refine iff_of_true ?_ trivial
    intro pre w hpre hrec
    cases pre with
    | nil =>
      obtain ⟨rfl, -⟩ := List.cons_prefix_cons.mp hpre
      rfl
    | cons a pre =>
      rw [recEn_stop ((List.prefix_append (a :: pre) [w]).trans hpre)] at hrec
      cases hrec
  | startIrq uiSeconds fopenOk =>
    exact iff_of_true (fun pre w hpre => by simp [Event.writes] at hpre) trivial
  | dataIrq m => exact iff_of_true (fun pre w hpre => by simp [Event.writes] at hpre) trivial

/-- Two acquisitions with a stop between them. -/
def twoStarts : List Event :=
  [.acqStart benchProfile 5 (fun _ => 0), .startIrq 7 true, .acqStop,
    .acqStart shortProfile 8 (fun _ => 0)]

/-- The law for the writes of a list of events. -/
theorem quiet_events {b c : Board} {es : List Event} (h : run step b es = .ok c) :
    Quiet b.csr (es.flatMap Event.writes) ↔ Meets step RecorderOff b es := by
  induction es generalizing b with
  | nil => exact iff_of_true (fun pre w hpre => by simp at hpre) trivial
  | cons e es ih =>
    obtain ⟨d, hd, hrun⟩ := run_cons_ok.mp h
    rw [List.flatMap_cons, quiet_append, quiet_event, ← step_csr hd, ih hrun]
    refine and_congr_right fun _ => ⟨fun hm t ht => ?_, fun hm => hm d hd⟩
    obtain rfl : d = t := by simpa [hd] using ht
    exact hm

/-- CORRECT (quiet): in a history that runs through, no register but `REC_EN` is written while the
    recorder is enabled, exactly if every `AcqStart` in it is handled with the recorder disabled. -/
theorem quiet_iff_recorderOff {b c : Board} {es : List Event}
    {logs : List (List (UInt32 × UInt32))} (h : trace stepLogged b es = .ok (c, logs)) :
    Quiet b.csr logs.flatten ↔ Meets step RecorderOff b es := by
  obtain ⟨hrun, hflat⟩ := trace_stepLogged h
  rw [hflat]
  exact quiet_events hrun

theorem quiet_iff_recorderOff_two : ∃ c logs,
    trace stepLogged benchBoard twoStarts = .ok (c, logs) ∧ Quiet benchBoard.csr logs.flatten := by
  obtain ⟨c, logs, h⟩ : ∃ c logs, trace stepLogged benchBoard twoStarts = .ok (c, logs) :=
    ⟨_, _, rfl⟩
  exact ⟨c, logs, h, (quiet_iff_recorderOff h).mpr (by decide)⟩

/-! ### What the hardware sees -/

/-- Each field that is written holds the last value written to it, cut to its width. -/
def Shows (r : Regs) (ws : List (UInt32 × UInt32)) : Prop :=
  ∀ l v, (valuesOf l ws).getLast? = some v → (regRead r l).toNat = v.toNat % 2 ^ width l

theorem shows_regWrites {r : Regs} {ws : List (UInt32 × UInt32)}
    (hws : ∀ w ∈ ws, w.1 ∈ commandLabels) : Shows (regWrites r ws) ws := by
  intro l v hlast
  obtain ⟨w, hw, rfl⟩ := List.mem_map.mp (List.mem_of_getLast? hlast)
  obtain ⟨hin, hl⟩ := List.mem_filter.mp hw
  have hlabel : l ∈ commandLabels := of_decide_eq_true hl ▸ hws w hin
  rw [regRead_regWrites fields_command r hlabel hws, hlast]

/-- A moment between two register writes of a history, right behind a whole `AcqStart`. -/
def StartedAt (es : List Event) (ws : List (UInt32 × UInt32)) (p : Profile) (uiSeconds : UInt32) :
    Prop :=
  ∃ pre post bitBuff, es = pre ++ .acqStart p uiSeconds bitBuff :: post ∧
    ws = pre.flatMap Event.writes ++ startWrites p uiSeconds

theorem StartedAt.cons {es : List Event} {ws : List (UInt32 × UInt32)} {p : Profile}
    {uiSeconds : UInt32} (h : StartedAt es ws p uiSeconds) (e : Event) :
    StartedAt (e :: es) (e.writes ++ ws) p uiSeconds := by
  obtain ⟨pre, post, bitBuff, rfl, rfl⟩ := h
  exact ⟨e :: pre, post, bitBuff, rfl, (List.append_assoc _ _ _).symm⟩

theorem recEn_cut {b c : Board} {es : List Event} (h : run step b es = .ok c)
    (hm : Meets step RecorderOff b es) {ws : List (UInt32 × UInt32)}
    (hws : ws <+: es.flatMap Event.writes) (hrec : recEn (regWrites b.csr ws) = true) :
    ws = [] ∧ recEn b.csr = true ∨ ∃ p uiSeconds, StartedAt es ws p uiSeconds := by
  induction es generalizing b ws with
  | nil =>
    obtain rfl := List.prefix_nil.mp hws
    exact Or.inl ⟨rfl, hrec⟩
  | cons e es ih =>
    obtain ⟨d, hd, hrun⟩ := run_cons_ok.mp h
    have htail : ∀ t, t <+: es.flatMap Event.writes → recEn (regWrites b.csr (e.writes ++ t)) = true →
        t = [] ∧ recEn d.csr = true ∨ ∃ p uiSeconds, StartedAt (e :: es) (e.writes ++ t) p uiSeconds := by
      intro t ht hrec
      rw [regWrites_append, ← step_csr hd] at hrec
      rcases ih hrun (hm.2 d hd) ht hrec with hl | ⟨p, uiSeconds, hr⟩
      · exact Or.inl hl
      · exact Or.inr ⟨p, uiSeconds, hr.cons e⟩
    rw [List.flatMap_cons] at hws
    cases e with
    | acqStart p uiSeconds bitBuff =>
      have hwhole : StartedAt (.acqStart p uiSeconds bitBuff :: es) (startWrites p uiSeconds) p
          uiSeconds := ⟨[], es, bitBuff, rfl, rfl⟩
      rcases cut_append hws with hle | ⟨t, ht, rfl⟩
      · rcases List.prefix_concat_iff.mp hle with rfl | hle
        · exact Or.inr ⟨p, uiSeconds, hwhole⟩
        · rw [recEn_config hle, show recEn b.csr = false from hm.1] at hrec
          cases hrec
      · rcases htail t ht hrec with ⟨rfl, -⟩ | hr
        · exact Or.inr ⟨p, uiSeconds, (List.append_nil _).symm ▸ hwhole⟩
        · exact Or.inr hr
    | acqStop =>
      rcases cut_append hws with hle | ⟨t, ht, rfl⟩
      · cases ws with
        | nil => exact Or.inl ⟨rfl, hrec⟩
        | cons w ws =>
          rw [recEn_stop hle] at hrec
          cases hrec
      · rcases htail t ht hrec with ⟨-, hon⟩ | hr
        · rw [step_csr hd, show Event.acqStop.writes = stopWrites from rfl, stopWrites,
            recEn_stop List.prefix_rfl] at hon
          cases hon
        · exact Or.inr hr
    | startIrq uiSeconds fopenOk =>
      rcases htail ws hws hrec with ⟨rfl, hon⟩ | hr
      · have hcsr : d.csr = b.csr := step_csr hd
        exact Or.inl ⟨rfl, hcsr ▸ hon⟩
      · exact Or.inr hr
    | dataIrq m =>
      rcases htail ws hws hrec with ⟨rfl, hon⟩ | hr
      · have hcsr : d.csr = b.csr := step_csr hd
        exact Or.inl ⟨rfl, hcsr ▸ hon⟩
      · exact Or.inr hr

/-- CORRECT (guard): let a history begin with the recorder disabled and handle every `AcqStart` with
    the recorder disabled. Between any two of its register writes the recorder is enabled exactly
    right behind the last write of an `AcqStart`, and then every field holds what that `AcqStart`
    wrote; bits outside the fields of the commands never change. -/
theorem recEn_iff_started {b c : Board} {es : List Event} {logs : List (List (UInt32 × UInt32))}
    (h : trace stepLogged b es = .ok (c, logs)) (hoff : recEn b.csr = false)
    (hm : Meets step RecorderOff b es) {ws : List (UInt32 × UInt32)} (hws : ws <+: logs.flatten) :
    (recEn (regWrites b.csr ws) = true ↔ ∃ p uiSeconds, StartedAt es ws p uiSeconds) ∧
    (∀ p uiSeconds, StartedAt es ws p uiSeconds →
      Shows (regWrites b.csr ws) (startWrites p uiSeconds)) ∧
    ∀ (k : Fin 14) (i : ℕ), i < 32 → (∀ l ∈ commandLabels, ¬ Covers l k i) →
      bit (regWrites b.csr ws) k i = bit b.csr k i := by
  obtain ⟨hrun, hflat⟩ := trace_stepLogged h
  rw [hflat] at hws
  refine ⟨⟨fun hrec => ?_, ?_⟩, ?_, ?_⟩
  · rcases recEn_cut hrun hm hws hrec with ⟨-, hon⟩ | hr
    · rw [hoff] at hon
      cases hon
    · exact hr
  · rintro ⟨p, uiSeconds, pre, post, bitBuff, -, rfl⟩
    rw [regWrites_append]
    exact recEn_started _ p uiSeconds
  · rintro p uiSeconds ⟨pre, post, bitBuff, -, rfl⟩
    rw [regWrites_append]
    exact shows_regWrites (Event.writes_labels (.acqStart p uiSeconds bitBuff))
  · intro k i hi hno
    have hlabels : ∀ w ∈ ws, w.1 ∈ commandLabels := by
      intro w hw
      obtain ⟨e, -, hin⟩ := List.mem_flatMap.mp (hws.subset hw)
      exact e.writes_labels w hin
    exact bit_regWrites_frame b.csr (fun w hw => fields_command.label _ (hlabels w hw)) hi
      fun w hw => hno _ (hlabels w hw)

/-- Behind the first of two starts the fields hold its settings. -/
theorem recEn_iff_started_two : ∃ c calls logs,
    trace stepLogged benchBoard twoStarts = .ok (c, calls :: logs) ∧
      recEn (regWrites benchBoard.csr calls) = true ∧
      Shows (regWrites benchBoard.csr calls) (startWrites benchProfile 5) := by
  obtain ⟨c, logs, h⟩ : ∃ c logs, trace stepLogged benchBoard twoStarts =
      .ok (c, startWrites benchProfile 5 :: logs) := ⟨_, _, rfl⟩
  have hstarted : StartedAt twoStarts (startWrites benchProfile 5) benchProfile 5 :=
    ⟨[], _, _, rfl, rfl⟩
  obtain ⟨hiff, hshows, -⟩ := recEn_iff_started h (by decide) (by decide)
    (List.prefix_append (startWrites benchProfile 5) _)
  exact ⟨c, _, logs, h, hiff.mpr ⟨_, _, hstarted⟩, hshows _ _ hstarted⟩

end AcqBoard.App
