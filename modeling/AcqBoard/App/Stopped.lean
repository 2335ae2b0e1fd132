import AcqBoard.App.Interleave

/-! What can happen between the return of `AcqStop` and the next `AcqStart`.

    `AcqStop` clears the ready flag and the start bit of the hardware, but not the flag of the start
    interrupt's driver, and `MesgThread` sets the ready flag for every interrupt it reads. So the
    acquisition stays stopped if `AcqStop` runs while no start interrupt is on its way: the driver's
    flag is clear and `MesgThread` waits for it. Where one is on its way the acquisition comes back. -/

namespace AcqBoard.App
open Schemes Csr

/-- The program, and after an `AcqStop` what it did to the outside since. -/
structure Watched where
  sys : Sys
  since : Option (List Effect)

def sinceAfter (since : Option (List Effect)) (out : List Effect) : Label → Option (List Effect)
  | .app (some .acqStop) => some []
  | .app (some (.acqStart ..)) => none
  | _ => since.map (· ++ out)

def watchStep (w : Watched) (l : Label) : Except (Stuck Fault) Watched := do
  let r ← sysStep w.sys l
  pure ⟨r.1, sinceAfter w.since r.2 l⟩

/-- After `AcqStop` the hardware raises no start interrupt while its start bit is 0. -/
def HardwareOk (w : Watched) : Label → Prop
  | .startIrq => w.since ≠ none → tStart w.sys.board.csr = true
  | _ => True

instance (w : Watched) : (l : Label) → Decidable (HardwareOk w l)
  | .startIrq => inferInstanceAs (Decidable (_ → _))
  | .dataIrq | .app _ | .check | .dataSeen | .dataClear | .deliver _ | .mesgSeen | .mesgClear
  | .mesgFlags | .mesgFile .. => isTrue trivial

/-- The law: since `AcqStop` the acquisition is not ready, no byte left and no file was opened. -/
def StopQuiet (w : Watched) : Prop :=
  ∀ out, w.since = some out → w.sys.board.ucIsReady = false ∧ out = []

/-- `AcqStop` runs while no start interrupt is on its way: the flag of its driver is clear, and
    `MesgThread` waits for it or has only the data file left, which it does not open in PC mode. -/
def StopIdle (w : Watched) : Label → Prop
  | .app (some .acqStop) => w.sys.startHappend = false ∧
      (w.sys.mesg = .waiting ∨ w.sys.mesg = .opening ∧ w.sys.board.uiSavePC ≠ 0)
  | _ => True

instance (w : Watched) : (l : Label) → Decidable (StopIdle w l)
  | .app (some .acqStop) => inferInstanceAs (Decidable (_ ∧ _))
  | .app (some (.acqStart ..)) | .app none | .startIrq | .dataIrq | .check | .dataSeen | .dataClear
  | .deliver _ | .mesgSeen | .mesgClear | .mesgFlags | .mesgFile .. => isTrue trivial

/-- The states of a stopped acquisition that no start interrupt is on its way to. -/
structure AtRest (s : Sys) : Prop where
  notReady : s.board.ucIsReady = false
  startBit : tStart s.board.csr = false
  noIrq : s.startHappend = false
  mesg : s.mesg = .waiting ∨ s.mesg = .opening ∧ s.board.uiSavePC ≠ 0

/-- The rest is one of the board, the driver's flag and `MesgThread`. -/
theorem AtRest.of_eq {s t : Sys} (hs : AtRest s) (hboard : t.board = s.board)
    (hirq : t.startHappend = s.startHappend) (hmesg : t.mesg = s.mesg) : AtRest t := by
  obtain ⟨hready, hbit, hno, hpc⟩ := hs
  rw [← hboard] at hready hbit hpc
  exact ⟨hready, hbit, hirq.trans hno, by rw [hmesg]; exact hpc⟩

/-- No step but a command or a start interrupt leaves this rest or does anything outside. -/
theorem atRest_step {s t : Sys} {l : Label} {out : List Effect} (hs : AtRest s)
    (hcmd : ∀ c, l ≠ .app (some c)) (hirq : l ≠ .startIrq)
    (h : sysStep s l = .ok (t, out)) : AtRest t ∧ out = [] := by
  have hm := sysStep_ok h
  cases l with
  | startIrq => exact absurd rfl hirq
  | dataIrq =>
    obtain ⟨rfl, rfl⟩ := hm
    exact ⟨hs.of_eq rfl rfl rfl, rfl⟩
  | app cmd =>
    cases cmd with
    | some c => exact absurd rfl (hcmd c)
    | none =>
      obtain ⟨-, rfl, b, hb, rfl⟩ := hm
      obtain rfl := Except.ok.inj hb
      exact ⟨hs.of_eq rfl rfl rfl, rfl⟩
  | check | dataClear =>
    obtain ⟨-, rfl, rfl⟩ := hm
    exact ⟨hs.of_eq rfl rfl rfl, rfl⟩
  | dataSeen =>
    obtain ⟨-, -, rfl, rfl⟩ := hm
    exact ⟨hs.of_eq rfl rfl rfl, rfl⟩
  | deliver m =>
    obtain ⟨-, b, io, hb, rfl, rfl⟩ := hm
    rw [deliverDataS_idle (by rw [hs.notReady]; rfl), Except.ok.injEq, Prod.mk.injEq] at hb
    obtain ⟨rfl, rfl⟩ := hb
    exact ⟨hs.of_eq rfl rfl rfl, rfl⟩
  | mesgSeen =>
    have hset : s.startHappend = true := hm.2.1
    simp [hs.noIrq] at hset
  | mesgClear =>
    have hpc : s.mesg = .seen := hm.1
    rcases hs.mesg with h | ⟨h, -⟩ <;> simp [hpc] at h
  | mesgFlags =>
    have hpc : s.mesg = .got := hm.1
    rcases hs.mesg with h | ⟨h, -⟩ <;> simp [hpc] at h
  | mesgFile uiSeconds fopenOk =>
    obtain ⟨hpc, rfl, b, hb, rfl⟩ := hm
    rcases hs.mesg with h | ⟨-, hsave⟩
    · simp [hpc] at h
    · rw [mesgFile_pc hsave] at hb
      obtain rfl := Except.ok.inj hb
      exact ⟨⟨hs.notReady, hs.startBit, hs.noIrq, Or.inl rfl⟩, by rw [opensOf, if_neg hsave]⟩

/-- While an `AcqStop` is the last command, the program is at rest and did nothing since. -/
def StopInv (w : Watched) : Prop := ∀ out, w.since = some out → AtRest w.sys ∧ out = []

theorem stopInv_step {w v : Watched} {l : Label} (hw : StopInv w)
    (hside : HardwareOk w l ∧ StopIdle w l) (h : watchStep w l = .ok v) : StopInv v := by
  obtain ⟨⟨t, out⟩, hstep, h⟩ := bind_eq_ok.mp h
  obtain rfl := pure_eq_ok.mp h
  by_cases hcmd : ∃ c, l = .app (some c)
  · obtain ⟨c, rfl⟩ := hcmd
    cases c with
    | acqStart p uiSeconds bitBuff => intro out' hout; simp [sinceAfter] at hout
    | acqStop =>
      intro out' hout
      obtain rfl : [] = out' := by simpa [sinceAfter] using hout
      obtain ⟨-, -, b, hb, rfl⟩ := sysStep_ok hstep
      obtain rfl := Except.ok.inj hb
      obtain ⟨-, hirq, hmesg⟩ := hside
      exact ⟨⟨(acqStop_frame _).1, tStart_acqStop _, hirq,
        hmesg.imp_right fun hm => ⟨hm.1, by rw [(acqStop_frame _).2.2.2]; exact hm.2⟩⟩, rfl⟩
  · have hsince : sinceAfter w.since out l = w.since.map (· ++ out) := by
      unfold sinceAfter
      split
      · exact absurd ⟨_, rfl⟩ hcmd
      · exact absurd ⟨_, rfl⟩ hcmd
      · rfl
    intro out' hout
    obtain ⟨out₀, h₀, rfl⟩ := Option.map_eq_some_iff.mp (hsince ▸ hout)
    obtain ⟨hrest, rfl⟩ := hw out₀ h₀
    have hirq : l ≠ .startIrq := by
      rintro rfl
      have hbit := hside.1 (by simp [h₀])
      simp [hrest.startBit] at hbit
    obtain ⟨ht, rfl⟩ := atRest_step hrest (fun c hc => hcmd ⟨c, hc⟩) hirq hstep
    exact ⟨ht, rfl⟩

/-- CORRECT: in every interleaving in which each `AcqStop` runs while no start interrupt is on its
    way, the acquisition is not ready from the return of `AcqStop` until the next `AcqStart`, no byte
    leaves and no data file is opened. -/
theorem stopQuiet_of_stopIdle (csr : Csr.Regs) (ram : ℕ → UInt32) (files : Files)
    {ls : List Label} {w : Watched}
    (hside : Meets watchStep (fun w l => HardwareOk w l ∧ StopIdle w l)
      ⟨Sys.boot (Board.boot csr ram files), none⟩ ls)
    (h : run watchStep ⟨Sys.boot (Board.boot csr ram files), none⟩ ls = .ok w) : StopQuiet w := by
  intro out hout
  have hinv : StopInv w := run_inv stopInv_step (fun _ h => by simp at h) hside h
  exact ⟨(hinv out hout).1.notReady, (hinv out hout).2⟩

/-- A start interrupt that is raised before `AcqStop` and read after it. -/
theorem stopQuiet_fails_on_pending : ¬ ∀ (ls : List Label) (w : Watched),
    Meets watchStep HardwareOk ⟨Sys.boot benchBoard, none⟩ ls →
    run watchStep ⟨Sys.boot benchBoard, none⟩ ls = .ok w → StopQuiet w := by
  intro h
  have hquiet := h [.app (some (.acqStart benchProfile 5 fun _ => 0)), .check, .startIrq,
    .app (some .acqStop), .mesgSeen, .mesgClear, .mesgFlags] _
    (by decide) rfl
  exact absurd (hquiet [] rfl).1 (by decide)

/-- An acquisition that was started and is then stopped while `MesgThread` waits. -/
def stoppedRun : List Label :=
  [.app (some (.acqStart benchProfile 5 fun _ => 0)), .check, .startIrq, .mesgSeen, .mesgClear,
    .mesgFlags, .mesgFile 7 true, .app (some .acqStop), .dataIrq, .check, .app none]

theorem stopQuiet_of_stopIdle_waiting : ∃ w,
    run watchStep ⟨Sys.boot benchBoard, none⟩ stoppedRun = .ok w ∧ w.since = some [] ∧
      StopQuiet w := by
  have hside : Meets watchStep (fun w l => HardwareOk w l ∧ StopIdle w l)
    ⟨Sys.boot benchBoard, none⟩ stoppedRun := by decide
  exact ⟨_, rfl, rfl, stopQuiet_of_stopIdle (fun _ => 0) (fun _ => 0) Files.empty hside rfl⟩

/-- The condition is needed: where a start interrupt is on its way, `MesgThread` makes the stopped
    acquisition ready again, with no further interrupt. -/
theorem ready_of_pending {w : Watched} (hmain : w.sys.main = .app)
    (hpend : w.sys.mesg = .waiting ∧ w.sys.startHappend = true ∨ w.sys.mesg = .seen ∨
      w.sys.mesg = .got) :
    ∃ ls v, run watchStep w (.app (some .acqStop) :: ls) = .ok v ∧ v.since = some [] ∧
      v.sys.board.ucIsReady = true := by
  rcases w with ⟨⟨b, d, i, pc, mpc⟩, since⟩
  dsimp only at hmain hpend
  subst hmain
  rcases hpend with ⟨rfl, rfl⟩ | rfl | rfl
  · exact ⟨[.mesgSeen, .mesgClear, .mesgFlags], _, rfl, rfl, rfl⟩
  · exact ⟨[.mesgClear, .mesgFlags], _, rfl, rfl, rfl⟩
  · exact ⟨[.mesgFlags], _, rfl, rfl, rfl⟩

end AcqBoard.App
