import AcqBoard.App.Interleave
import AcqBoard.Schemes.Reduction

/-! When whole operations are as good as atomic events.

    `MesgThread` sets the flags of a new acquisition and opens its data file afterwards, while the main
    loop goes on with the same variables. The start interrupt takes effect with the file when it saves
    to SD, and with the flags when it saves to the PC. So an interleaving is a history of atomic events
    as long as between the two, in SD mode, no block is delivered and no `AcqStop` is handled, and in
    either mode no `AcqStart` turns the save position over. That a block and the flags are steps of
    their own is taken from `App.Interleave` here; `App.Statements` takes them apart. -/

namespace AcqBoard.App
open Schemes

/-- One event with what it does to the outside. -/
def eventStep (b : Board) : Event → Except Fault (Board × List Effect)
  | .acqStart p uiSeconds bitBuff => do
    let c ← acqStart b p uiSeconds bitBuff
    pure (c, [])
  | .acqStop => .ok (acqStop b, [])
  | .startIrq uiSeconds fopenOk => do
    let c ← mesgThread b uiSeconds fopenOk
    pure (c, opensOf b uiSeconds)
  | .dataIrq m => do
    let r ← deliverDataS b true m
    pure (r.1, r.2.map .io)

/-- Without the output it is the event of the atomic histories. -/
theorem next_eventStep : next eventStep = step := by
  funext b e
  cases e with
  | acqStart p uiSeconds bitBuff =>
    rw [next, eventStep, step]
    cases acqStart b p uiSeconds bitBuff <;> rfl
  | acqStop => rfl
  | startIrq uiSeconds fopenOk =>
    rw [next, eventStep, step]
    cases mesgThread b uiSeconds fopenOk <;> rfl
  | dataIrq m =>
    rw [next, eventStep, step]
    cases deliverDataS b true m <;> rfl

/-- The event that takes effect in a step. In PC mode the second and the file of a start interrupt do
    not matter. -/
def takesEffect (s : Sys) : Label → Option Event
  | .app (some (.acqStart p uiSeconds bitBuff)) => some (.acqStart p uiSeconds bitBuff)
  | .app (some .acqStop) => some .acqStop
  | .deliver m => some (.dataIrq m)
  | .mesgFlags => if s.board.uiSavePC = 0 then none else some (.startIrq 0 true)
  | .mesgFile uiSeconds fopenOk =>
    if s.board.uiSavePC = 0 then some (.startIrq uiSeconds fopenOk) else none
  | _ => none

/-- The main loop leaves a `MesgThread` between the flags and the data file alone. -/
def LeftAlone (s : Sys) : Label → Prop
  | .app (some (.acqStart p _ _)) => s.mesg = .opening → (p.savePosition = 0 ↔ s.board.uiSavePC = 0)
  | .app (some .acqStop) => s.mesg = .opening → s.board.uiSavePC ≠ 0
  | .deliver _ => s.mesg = .opening → s.board.uiSavePC ≠ 0
  | _ => True

instance (s : Sys) : (l : Label) → Decidable (LeftAlone s l)
  | .app (some (.acqStart ..)) => inferInstanceAs (Decidable (_ → (_ ↔ _)))
  | .app (some .acqStop) => inferInstanceAs (Decidable (_ → _))
  | .deliver _ => inferInstanceAs (Decidable (_ → _))
  | .app none | .dataIrq | .startIrq | .check | .dataSeen | .dataClear | .mesgSeen | .mesgClear
  | .mesgFlags | .mesgFile .. => isTrue trivial

/-- `MesgThread` is between the flags and the data file. -/
def Opening (s : Sys) : Prop := s.mesg = .opening ∧ s.board.uiSavePC = 0

instance (s : Sys) : Decidable (Opening s) := inferInstanceAs (Decidable (_ ∧ _))

/-- The board of the atomic history: where a start interrupt has not taken effect yet, the flags are
    ahead of it. -/
def Follows (s : Sys) (b : Board) : Prop := s.board = if Opening s then mesgFlags b else b

theorem follows_of_not {s : Sys} {b : Board} (h : ¬ Opening s) : Follows s b ↔ s.board = b := by
  rw [Follows, if_neg h]

theorem follows_of_opening {s : Sys} {b : Board} (h : Opening s) :
    Follows s b ↔ s.board = mesgFlags b := by
  rw [Follows, if_pos h]

/-! ### `AcqStart` and the flags -/

/-- `AcqStart` neither reads nor writes the ready flag and the total length, and resets the block
    counter itself. -/
theorem acqStart_mesgFlags (b : Board) (p : Profile) (uiSeconds : UInt32) (bitBuff : ℕ → UInt8) :
    acqStart (mesgFlags b) p uiSeconds bitBuff = (acqStart b p uiSeconds bitBuff).map mesgFlags := by
  unfold acqStart acqStartLogged configurationLogged
  simp only [mesgFlags, map_bind, bind_assoc]
  refine bind_congr fun _ => bind_congr fun _ => bind_congr fun _ => bind_congr fun _ => ?_
  split
  · rfl
  · rfl

/-! ### Step by step -/

variable {s t : Sys} {b : Board} {l : Label} {out : List Effect}

/-- A step that leaves the board and `MesgThread` alone. -/
theorem Follows.of_eq (h : Follows s b) (hboard : t.board = s.board)
    (hmesg : t.mesg = .opening ↔ s.mesg = .opening) : Follows t b := by
  have hopening : Opening t ↔ Opening s := by rw [Opening, Opening, hmesg, hboard]
  rw [Follows, hboard, h]
  simp only [hopening]

theorem uiSavePC_deliverDataS {b c : Board} {m : Bram} {io : List Io}
    (h : deliverDataS b true m = .ok (c, io)) : c.uiSavePC = b.uiSavePC := by
  cases hr : b.ucIsReady with
  | false =>
    rw [deliverDataS_idle (by rw [hr]; rfl), Except.ok.injEq, Prod.mk.injEq] at h
    rw [← h.1]
  | true => rw [(deliverDataS_ok hr h).1, Board.afterBlock]

theorem follows_acqStart {p : Profile} {uiSeconds : UInt32} {bitBuff : ℕ → UInt8}
    (h : Follows s b) (hl : LeftAlone s (.app (some (.acqStart p uiSeconds bitBuff))))
    (hstep : sysStep s (.app (some (.acqStart p uiSeconds bitBuff))) = .ok (t, out)) :
    ∃ c, eventStep b (.acqStart p uiSeconds bitBuff) = .ok (c, out) ∧ Follows t c := by
  obtain ⟨-, rfl, d, hd, rfl⟩ := sysStep_ok hstep
  change acqStart s.board p uiSeconds bitBuff = .ok d at hd
  have hpc : ∀ {a c}, acqStart a p uiSeconds bitBuff = .ok c → (c.uiSavePC = 0 ↔ p.savePosition = 0) := by
    intro a c hc
    obtain ⟨csr, prbs, ram, rfl⟩ := acqStart_ok hc
    exact toUInt32_eq_zero
  by_cases ho : Opening s
  · rw [(follows_of_opening ho).mp h, acqStart_mesgFlags] at hd
    obtain ⟨c, hc, rfl⟩ := map_eq_ok.mp hd
    refine ⟨c, bind_eq_ok.mpr ⟨c, hc, rfl⟩, (follows_of_opening ?_).mpr rfl⟩
    exact ⟨ho.1, (hpc hc).mpr ((hl ho.1).mpr ho.2)⟩
  · rw [(follows_of_not ho).mp h] at hd
    refine ⟨d, bind_eq_ok.mpr ⟨d, hd, rfl⟩, (follows_of_not ?_).mpr rfl⟩
    rintro ⟨hm, h0⟩
    exact ho ⟨hm, (hl hm).mp ((hpc hd).mp h0)⟩

/-- What no start interrupt waits behind takes effect at once. -/
theorem not_opening (hl : s.mesg = .opening → s.board.uiSavePC ≠ 0) : ¬ Opening s :=
  fun ho => hl ho.1 ho.2

theorem follows_acqStop (h : Follows s b) (hl : LeftAlone s (.app (some .acqStop)))
    (hstep : sysStep s (.app (some .acqStop)) = .ok (t, out)) :
    ∃ c, eventStep b .acqStop = .ok (c, out) ∧ Follows t c := by
  obtain ⟨-, rfl, d, hd, rfl⟩ := sysStep_ok hstep
  obtain rfl : acqStop s.board = d := Except.ok.inj hd
  have hb := (follows_of_not (not_opening hl)).mp h
  refine ⟨acqStop b, rfl, (follows_of_not ?_).mpr (by rw [hb])⟩
  refine not_opening fun hm => ?_
  rw [(acqStop_frame s.board).2.2.2]
  exact hl hm

theorem follows_deliver {m : Bram} (h : Follows s b) (hl : LeftAlone s (.deliver m))
    (hstep : sysStep s (.deliver m) = .ok (t, out)) :
    ∃ c, eventStep b (.dataIrq m) = .ok (c, out) ∧ Follows t c := by
  obtain ⟨-, d, io, hd, rfl, rfl⟩ := sysStep_ok hstep
  have hb := (follows_of_not (not_opening hl)).mp h
  refine ⟨d, bind_eq_ok.mpr ⟨(d, io), hb ▸ hd, rfl⟩, (follows_of_not ?_).mpr rfl⟩
  refine not_opening fun hm => ?_
  rw [uiSavePC_deliverDataS hd]
  exact hl hm

/-- Before its flags `MesgThread` has done nothing. -/
theorem follows_got (h : Follows s b) (hpc : s.mesg = .got) : s.board = b :=
  (follows_of_not fun ho => MesgPc.noConfusion (hpc.symm.trans ho.1)).mp h

/-- In PC mode a start interrupt takes effect with its flags. -/
theorem follows_mesgFlags (h : Follows s b) (hpc : s.board.uiSavePC ≠ 0)
    (hstep : sysStep s .mesgFlags = .ok (t, out)) :
    ∃ c, eventStep b (.startIrq 0 true) = .ok (c, out) ∧ Follows t c := by
  obtain ⟨hgot, rfl, rfl⟩ := sysStep_ok hstep
  obtain rfl := follows_got h hgot
  refine ⟨mesgFlags s.board, bind_eq_ok.mpr ⟨_, mesgFile_pc hpc, ?_⟩, (follows_of_not ?_).mpr rfl⟩
  · rw [opensOf, if_neg hpc]
    rfl
  · exact fun ho => hpc ho.2

/-- In SD mode it takes effect with its file. -/
theorem follows_mesgFile {uiSeconds : UInt32} {fopenOk : Bool} (h : Follows s b)
    (hpc : s.board.uiSavePC = 0) (hstep : sysStep s (.mesgFile uiSeconds fopenOk) = .ok (t, out)) :
    ∃ c, eventStep b (.startIrq uiSeconds fopenOk) = .ok (c, out) ∧ Follows t c := by
  obtain ⟨hopening, rfl, c, hc, rfl⟩ := sysStep_ok hstep
  have hb := (follows_of_opening ⟨hopening, hpc⟩).mp h
  rw [hb] at hc
  refine ⟨c, bind_eq_ok.mpr ⟨c, hc, ?_⟩, (follows_of_not ?_).mpr rfl⟩
  · rw [hb]
    rfl
  · exact fun ho => by cases ho.1

theorem follows_silent (h : Follows s b) (he : takesEffect s l = none)
    (hstep : sysStep s l = .ok (t, out)) : out = [] ∧ Follows t b := by
  have hm := sysStep_ok hstep
  cases l with
  | dataIrq | startIrq =>
    obtain ⟨rfl, rfl⟩ := hm
    exact ⟨rfl, h.of_eq rfl Iff.rfl⟩
  | app cmd =>
    cases cmd with
    | some c => cases c <;> cases he
    | none =>
      obtain ⟨-, rfl, d, hd, rfl⟩ := hm
      obtain rfl : s.board = d := Except.ok.inj hd
      exact ⟨rfl, h.of_eq rfl Iff.rfl⟩
  | check | dataClear =>
    obtain ⟨-, rfl, rfl⟩ := hm
    exact ⟨rfl, h.of_eq rfl Iff.rfl⟩
  | dataSeen =>
    obtain ⟨-, -, rfl, rfl⟩ := hm
    exact ⟨rfl, h.of_eq rfl Iff.rfl⟩
  | deliver m => cases he
  | mesgSeen =>
    obtain ⟨hpc, -, rfl, rfl⟩ := hm
    exact ⟨rfl, h.of_eq rfl (by simp [hpc])⟩
  | mesgClear =>
    obtain ⟨hpc, rfl, rfl⟩ := hm
    exact ⟨rfl, h.of_eq rfl (by simp [hpc])⟩
  | mesgFlags =>
    obtain ⟨hgot, rfl, rfl⟩ := hm
    obtain rfl := follows_got h hgot
    by_cases hpc : s.board.uiSavePC = 0
    · have ho : Opening { s with board := mesgFlags s.board, mesg := .opening } := ⟨rfl, hpc⟩
      exact ⟨rfl, (follows_of_opening ho).mpr rfl⟩
    · rw [takesEffect, if_neg hpc] at he
      cases he
  | mesgFile uiSeconds fopenOk =>
    obtain ⟨-, rfl, c, hc, rfl⟩ := hm
    by_cases hpc : s.board.uiSavePC = 0
    · rw [takesEffect, if_pos hpc] at he
      cases he
    · rw [mesgFile_pc hpc] at hc
      obtain rfl := Except.ok.inj hc
      have ho : ¬ Opening { s with mesg := .waiting } := fun ho => hpc ho.2
      refine ⟨by rw [opensOf, if_neg hpc], (follows_of_not ho).mpr ?_⟩
      exact (follows_of_not fun ho => hpc ho.2).mp h

/-- Which code of a step can fault. -/
theorem sysStep_fault {f : Fault} (h : sysStep s l = .error (.fault f)) :
    (∃ cmd, l = .app cmd ∧ runCommand s.board cmd = .error f) ∨
    (∃ m, l = .deliver m ∧ deliverDataS s.board true m = .error f) ∨
    (∃ uiSeconds fopenOk, l = .mesgFile uiSeconds fopenOk ∧ s.mesg = .opening ∧
      mesgFile s.board uiSeconds fopenOk = .error f) := by
  cases l with
  | dataIrq | startIrq => cases h
  | app cmd =>
    obtain ⟨-, h⟩ := enabled_eq_fault.mp h
    rcases bind_eq_error.mp h with h | ⟨c, -, h⟩
    · exact Or.inl ⟨cmd, rfl, orFault_eq_fault.mp h⟩
    · cases h
  | check | dataSeen | dataClear | mesgSeen | mesgClear | mesgFlags =>
    cases (enabled_eq_fault.mp h).2
  | deliver m =>
    obtain ⟨-, h⟩ := enabled_eq_fault.mp h
    rcases bind_eq_error.mp h with h | ⟨c, -, h⟩
    · exact Or.inr (Or.inl ⟨m, rfl, orFault_eq_fault.mp h⟩)
    · cases h
  | mesgFile uiSeconds fopenOk =>
    obtain ⟨hpc, h⟩ := enabled_eq_fault.mp h
    rcases bind_eq_error.mp h with h | ⟨c, -, h⟩
    · exact Or.inr (Or.inr ⟨uiSeconds, fopenOk, rfl, hpc, orFault_eq_fault.mp h⟩)
    · cases h

theorem follows_fault {f : Fault} (h : Follows s b) (hl : LeftAlone s l)
    (hstep : sysStep s l = .error (.fault f)) :
    ∃ e, takesEffect s l = some e ∧ eventStep b e = .error f := by
  rcases sysStep_fault hstep with ⟨cmd, rfl, hf⟩ | ⟨m, rfl, hf⟩ | ⟨uiSeconds, fopenOk, rfl, hpc, hf⟩
  · cases cmd with
    | none => cases hf
    | some c =>
      cases c with
      | acqStop => cases hf
      | acqStart p uiSeconds bitBuff =>
        refine ⟨_, rfl, bind_eq_error.mpr (Or.inl ?_)⟩
        change acqStart s.board p uiSeconds bitBuff = .error f at hf
        by_cases ho : Opening s
        · rw [(follows_of_opening ho).mp h, acqStart_mesgFlags] at hf
          exact map_eq_error.mp hf
        · rwa [(follows_of_not ho).mp h] at hf
  · refine ⟨_, rfl, bind_eq_error.mpr (Or.inl ?_)⟩
    rwa [(follows_of_not (not_opening hl)).mp h] at hf
  · by_cases hsd : s.board.uiSavePC = 0
    · refine ⟨.startIrq uiSeconds fopenOk, if_pos hsd, bind_eq_error.mpr (Or.inl ?_)⟩
      rwa [(follows_of_opening ⟨hpc, hsd⟩).mp h] at hf
    · rw [mesgFile_pc hsd] at hf
      cases hf

theorem follows_matched {e : Event} (h : Follows s b) (hl : LeftAlone s l)
    (he : takesEffect s l = some e) (hstep : sysStep s l = .ok (t, out)) :
    ∃ c, eventStep b e = .ok (c, out) ∧ Follows t c := by
  cases l with
  | dataIrq | startIrq | check | dataSeen | dataClear | mesgSeen | mesgClear => cases he
  | app cmd =>
    cases cmd with
    | none => cases he
    | some c =>
      cases c with
      | acqStart p uiSeconds bitBuff =>
        obtain rfl := Option.some.inj he
        exact follows_acqStart h hl hstep
      | acqStop =>
        obtain rfl := Option.some.inj he
        exact follows_acqStop h hl hstep
  | deliver m =>
    obtain rfl := Option.some.inj he
    exact follows_deliver h hl hstep
  | mesgFlags =>
    by_cases hpc : s.board.uiSavePC = 0
    · rw [takesEffect, if_pos hpc] at he
      cases he
    · rw [takesEffect, if_neg hpc] at he
      obtain rfl := Option.some.inj he
      exact follows_mesgFlags h hpc hstep
  | mesgFile uiSeconds fopenOk =>
    by_cases hpc : s.board.uiSavePC = 0
    · rw [takesEffect, if_pos hpc] at he
      obtain rfl := Option.some.inj he
      exact follows_mesgFile h hpc hstep
    · rw [takesEffect, if_neg hpc] at he
      cases he

/-- STEP (whole operations): an interleaving of whole operations in which the main loop leaves
    `MesgThread` alone between the flags and the data file is a history of atomic events. -/
theorem reduces_sysStep : Reduces sysStep eventStep id takesEffect
    (fun s b held => Follows s b ∧ held = []) LeftAlone where
  silent := by
    rintro s t l b held out ⟨h, rfl⟩ - he hstep
    obtain ⟨rfl, h'⟩ := follows_silent h he hstep
    exact ⟨h', rfl⟩
  matched := by
    rintro s t l b e held out ⟨h, rfl⟩ hl he hstep
    obtain ⟨c, hc, h'⟩ := follows_matched h hl he hstep
    exact ⟨c, out, [], hc, by rw [List.nil_append, List.append_nil], h', rfl⟩
  fault := by
    rintro s l b held f ⟨h, -⟩ hl hstep
    exact follows_fault h hl hstep

theorem follows_boot (board : Board) : Follows (Sys.boot board) board :=
  (follows_of_not fun ho => by cases ho.1).mpr rfl

end AcqBoard.App
