import AcqBoard.App.SdFiles
import AcqBoard.Schemes.Interleave

/-! The program and its two interrupt drivers, step by step.

                     data interrupt                 start interrupt
                           |                               |
      data_irq driver:  irqHappend = 1      counter_irq driver:  irqHappend = 1
                           |                               |
      main:   App -> GetReadyFlag -> read     MesgThread:  read -> flags -> data file
               ^           |          |
               |           |   wait; clear; DeliverData_s
               +-----------+----------+

    Each driver keeps one flag. Its `read` waits until the flag is set and clears it in a second step,
    and a handler can run in between. A command handler, the body of `DeliverData_s` after its read,
    and each of the two halves of a `MesgThread` iteration are one step each. -/

namespace AcqBoard.App
open Schemes Csr

/-- A command that `App` found a handler for. -/
inductive Command where
  | acqStart (p : Profile) (uiSeconds : UInt32) (bitBuff : ℕ → UInt8)
  | acqStop

/-- Where the main loop stands: before `App`, before `GetReadyFlag`, or in the `data_irq_read` of
    `DeliverData_s` (waiting for the flag, with the flag seen, returned). -/
inductive MainPc where
  | app | check | waiting | seen | got
  deriving DecidableEq

/-- Where `MesgThread` stands: in `counter_irq_read` (waiting for the flag, with the flag seen,
    returned), or before the data file. -/
inductive MesgPc where
  | waiting | seen | got | opening
  deriving DecidableEq

/-- The program with its two drivers. -/
structure Sys where
  board : Board
  dataHappend : Bool   -- `irqHappend` of `data_irq`
  startHappend : Bool  -- `irqHappend` of `counter_irq`
  main : MainPc
  mesg : MesgPc

inductive Label where
  | dataIrq
  | startIrq
  | app (cmd : Option Command)
  | check
  | dataSeen
  | dataClear
  | deliver (m : Bram)
  | mesgSeen
  | mesgClear
  | mesgFlags
  | mesgFile (uiSeconds : UInt32) (fopenOk : Bool)

/-- What the program does to the outside. -/
inductive Effect where
  | io (x : Io)
  | fopen (name : List UInt8)

/-- Both drivers open, nothing raised yet. -/
def Sys.boot (b : Board) : Sys := ⟨b, false, false, .app, .waiting⟩

/-- The handler of a command; without one `App` changes nothing here. -/
def runCommand (b : Board) : Option Command → Except Fault Board
  | some (.acqStart p uiSeconds bitBuff) => acqStart b p uiSeconds bitBuff
  | some .acqStop => .ok (acqStop b)
  | none => .ok b

/-- The file that `MesgThread` opens in a state, if any. -/
def opensOf (b : Board) (uiSeconds : UInt32) : List Effect :=
  if b.uiSavePC = 0 then [.fopen (sdName b.sdDataDir uiSeconds)] else []

def sysStep (s : Sys) : Label → Except (Stuck Fault) (Sys × List Effect)
  | .dataIrq => .ok ({ s with dataHappend := true }, [])
  | .startIrq => .ok ({ s with startHappend := true }, [])
  | .app cmd => enabled (s.main = .app) do
    let b ← orFault (runCommand s.board cmd)
    pure ({ s with board := b, main := .check }, [])
  | .check => enabled (s.main = .check) <|
    pure ({ s with main := if s.board.ucIsReady then .waiting else .app }, [])
  | .dataSeen => enabled (s.main = .waiting ∧ s.dataHappend = true) <|
    pure ({ s with main := .seen }, [])
  | .dataClear => enabled (s.main = .seen) <|
    pure ({ s with dataHappend := false, main := .got }, [])
  | .deliver m => enabled (s.main = .got) do
    let r ← orFault (deliverDataS s.board true m)
    pure ({ s with board := r.1, main := .app }, r.2.map .io)
  | .mesgSeen => enabled (s.mesg = .waiting ∧ s.startHappend = true) <|
    pure ({ s with mesg := .seen }, [])
  | .mesgClear => enabled (s.mesg = .seen) <|
    pure ({ s with startHappend := false, mesg := .got }, [])
  | .mesgFlags => enabled (s.mesg = .got) <|
    pure ({ s with board := mesgFlags s.board, mesg := .opening }, [])
  | .mesgFile uiSeconds fopenOk => enabled (s.mesg = .opening) do
    let b ← orFault (mesgFile s.board uiSeconds fopenOk)
    pure ({ s with board := b, mesg := .waiting }, opensOf s.board uiSeconds)

/-- What a step is for each label. -/
def Moved (s t : Sys) (out : List Effect) : Label → Prop
  | .dataIrq => t = { s with dataHappend := true } ∧ out = []
  | .startIrq => t = { s with startHappend := true } ∧ out = []
  | .app cmd => s.main = .app ∧ out = [] ∧
      ∃ b, runCommand s.board cmd = .ok b ∧ t = { s with board := b, main := .check }
  | .check => s.main = .check ∧ out = [] ∧
      t = { s with main := if s.board.ucIsReady then .waiting else .app }
  | .dataSeen => s.main = .waiting ∧ s.dataHappend = true ∧ out = [] ∧ t = { s with main := .seen }
  | .dataClear => s.main = .seen ∧ out = [] ∧ t = { s with dataHappend := false, main := .got }
  | .deliver m => s.main = .got ∧ ∃ b io, deliverDataS s.board true m = .ok (b, io) ∧
      out = io.map .io ∧ t = { s with board := b, main := .app }
  | .mesgSeen => s.mesg = .waiting ∧ s.startHappend = true ∧ out = [] ∧ t = { s with mesg := .seen }
  | .mesgClear => s.mesg = .seen ∧ out = [] ∧ t = { s with startHappend := false, mesg := .got }
  | .mesgFlags => s.mesg = .got ∧ out = [] ∧
      t = { s with board := mesgFlags s.board, mesg := .opening }
  | .mesgFile uiSeconds fopenOk => s.mesg = .opening ∧ out = opensOf s.board uiSeconds ∧
      ∃ b, mesgFile s.board uiSeconds fopenOk = .ok b ∧ t = { s with board := b, mesg := .waiting }

theorem sysStep_ok {s t : Sys} {l : Label} {out : List Effect}
    (h : sysStep s l = .ok (t, out)) : Moved s t out l := by
  cases l with
  | dataIrq | startIrq =>
    obtain ⟨rfl, rfl⟩ := Prod.mk.inj (Except.ok.inj h)
    exact ⟨rfl, rfl⟩
  | app cmd =>
    obtain ⟨hpc, h⟩ := enabled_eq_ok.mp h
    obtain ⟨b, hb, h⟩ := bind_eq_ok.mp h
    obtain ⟨rfl, rfl⟩ := Prod.mk.inj (pure_eq_ok.mp h)
    exact ⟨hpc, rfl, b, orFault_eq_ok.mp hb, rfl⟩
  | check | dataClear | mesgClear | mesgFlags =>
    obtain ⟨hpc, h⟩ := enabled_eq_ok.mp h
    obtain ⟨rfl, rfl⟩ := Prod.mk.inj (pure_eq_ok.mp h)
    exact ⟨hpc, rfl, rfl⟩
  | dataSeen | mesgSeen =>
    obtain ⟨⟨hpc, hirq⟩, h⟩ := enabled_eq_ok.mp h
    obtain ⟨rfl, rfl⟩ := Prod.mk.inj (pure_eq_ok.mp h)
    exact ⟨hpc, hirq, rfl, rfl⟩
  | deliver m =>
    obtain ⟨hpc, h⟩ := enabled_eq_ok.mp h
    obtain ⟨⟨b, io⟩, hb, h⟩ := bind_eq_ok.mp h
    obtain ⟨rfl, rfl⟩ := Prod.mk.inj (pure_eq_ok.mp h)
    exact ⟨hpc, b, io, orFault_eq_ok.mp hb, rfl, rfl⟩
  | mesgFile uiSeconds fopenOk =>
    obtain ⟨hpc, h⟩ := enabled_eq_ok.mp h
    obtain ⟨b, hb, h⟩ := bind_eq_ok.mp h
    obtain ⟨rfl, rfl⟩ := Prod.mk.inj (pure_eq_ok.mp h)
    exact ⟨hpc, rfl, b, orFault_eq_ok.mp hb, rfl⟩

end AcqBoard.App
