import AcqBoard.App.Interleave
import Mathlib.Data.List.Nodup
import Mathlib.Data.List.Pairwise

/-! Which data interrupt triggers which block.

    The `data_irq` driver keeps one flag, not a count. A history numbers the data interrupts as they
    are raised and follows each number: the set flag stands for the numbers raised since it was last
    cleared, a `read` that returns takes them all, and the block delivered then is triggered by them.

    In every interleaving the numbers go through in order and none is dropped, in groups of at least
    one (`Coalesced`). The law of one block for each number is about an acquisition, from its start
    interrupt until it is ready no more:

        start interrupt          ready      last block
              |--------------------|------------|            numbers: start + 1, start + 2, …
          Coming                     ready

    The k-th block behind the start interrupt is triggered by the k-th number, and no number raised
    during the acquisition shares its group, exactly in the interleavings that are `Paced`. What is
    raised between two acquisitions may share the flag, as long as no block is delivered on it. -/

namespace AcqBoard.App
open Schemes

/-- The step that counts as the start interrupt: its handler, one of the two steps of its `read`, or
    the reset of the counters in `MesgThread`. -/
inductive StartPoint where
  | raised | seen | cleared | counted
  deriving DecidableEq

def StartPoint.isStep : StartPoint → Label → Bool
  | .raised, .startIrq => true
  | .seen, .mesgSeen => true
  | .cleared, .mesgClear => true
  | .counted, .mesgFlags => true
  | _, _ => false

/-- The start interrupt is on the way, by the flag of its driver and where `MesgThread` stands: behind
    the step that counts as it, before the counters are reset. -/
def StartPoint.Coming : StartPoint → Bool → MesgPc → Prop
  | .raised, irqHappend, pc => irqHappend = true ∨ pc = .seen ∨ pc = .got
  | .seen, _, pc => pc = .seen ∨ pc = .got
  | .cleared, _, pc => pc = .got
  | .counted, _, _ => False

instance : (p : StartPoint) → (irqHappend : Bool) → (pc : MesgPc) → Decidable (p.Coming irqHappend pc)
  | .raised, _, _ => inferInstanceAs (Decidable (_ ∨ _ ∨ _))
  | .seen, _, _ => inferInstanceAs (Decidable (_ ∨ _))
  | .cleared, _, _ => inferInstanceAs (Decidable (_ = _))
  | .counted, _, _ => isFalse id

/-- An acquisition is in progress, or its start interrupt is on the way. -/
def Acquiring (p : StartPoint) (s : Sys) : Prop :=
  s.board.ucIsReady = true ∨ p.Coming s.startHappend s.mesg

instance (p : StartPoint) (s : Sys) : Decidable (Acquiring p s) :=
  inferInstanceAs (Decidable (_ ∨ _))

/-- The program and the numbers of its data interrupts. -/
structure Trace where
  sys : Sys
  raised : ℕ              -- data interrupts raised so far
  start : ℕ               -- and before the last start interrupt
  during : List ℕ         -- those raised during the acquisition since
  pending : List ℕ        -- those the set flag stands for
  taken : List ℕ          -- those the last returned read stands for
  blocks : List (List ℕ)  -- those that triggered each block since the last start interrupt

def Trace.boot (b : Board) : Trace := ⟨Sys.boot b, 0, 0, [], [], [], []⟩

/-- The history after a step that leads to the state `s`. -/
def Trace.record (p : StartPoint) (t : Trace) (s : Sys) : Label → Trace
  | .dataIrq => { t with
      sys := s
      raised := t.raised + 1
      during := if Acquiring p t.sys then t.during ++ [t.raised + 1] else t.during
      pending := t.pending ++ [t.raised + 1] }
  | .dataClear => { t with sys := s, taken := t.pending, pending := [] }
  | .deliver _ => { t with
      sys := s
      taken := []
      blocks := if t.sys.board.ucIsReady then t.blocks ++ [t.taken] else t.blocks }
  | l => if p.isStep l then { t with sys := s, start := t.raised, during := [], blocks := [] }
      else { t with sys := s }

def traceStep (p : StartPoint) (t : Trace) (l : Label) : Except (Stuck Fault) Trace := do
  let r ← sysStep t.sys l
  pure (t.record p r.1 l)

/-- The groups that data interrupts have fallen into: those of the blocks since the last start
    interrupt, that of a read that has returned, that of the set flag. -/
def Trace.groups (t : Trace) : List (List ℕ) :=
  t.blocks ++ (if t.sys.main = .got then [t.taken] else []) ++
    (if t.sys.dataHappend then [t.pending] else [])

/-- The law: the k-th block since the start interrupt is triggered by the k-th data interrupt raised
    since and by no older one, and each data interrupt raised during the acquisition is in a group of
    its own: it is not merged with another one, and not lost. -/
structure OneEach (t : Trace) : Prop where
  kth : ∀ k irqs, t.blocks[k]? = some irqs → irqs = [t.start + k + 1]
  alone : ∀ i ∈ t.during, [i] ∈ t.groups

/-- What holds of every interleaving: the data interrupts from some number on are in the groups, in
    order and each once, and no group is empty. -/
def Coalesced (t : Trace) : Prop :=
  (∃ m ≤ t.start, t.groups.flatten = List.range' (m + 1) (t.raised - m)) ∧ ∀ g ∈ t.groups, g ≠ []

/-- A data interrupt finds the flag clear, or it is raised outside an acquisition and the set flag
    stands for none raised during one; a block is delivered on a flag set after the start interrupt. -/
def Paced (p : StartPoint) (t : Trace) : Label → Prop
  | .dataIrq => t.sys.dataHappend = true → ¬ Acquiring p t.sys ∧ ∀ i ∈ t.pending, i ∉ t.during
  | .deliver _ => ∀ i ∈ t.taken, t.start < i
  | _ => True

/-- The same of the data interrupts; and a start interrupt occurs when the flag is clear and no read
    has returned whose block is still to be delivered. -/
def NoneLeft (p : StartPoint) (t : Trace) : Label → Prop
  | .dataIrq => t.sys.dataHappend = true → ¬ Acquiring p t.sys ∧ ∀ i ∈ t.pending, i ∉ t.during
  | l => p.isStep l = true → t.sys.dataHappend = false ∧ t.sys.main ≠ .got

/-- A read of the data interrupt is only entered when ready, and only its second step clears the
    flag. -/
structure Reading (s : Sys) : Prop where
  ready : s.main = .waiting ∨ s.main = .seen ∨ s.main = .got → s.board.ucIsReady = true
  flag : s.main = .seen → s.dataHappend = true

instance (p : StartPoint) (t : Trace) : (l : Label) → Decidable (Paced p t l)
  | .dataIrq => inferInstanceAs (Decidable (_ → _ ∧ _))
  | .deliver _ => inferInstanceAs (Decidable (∀ i ∈ t.taken, _))
  | .startIrq | .app _ | .check | .dataSeen | .dataClear | .mesgSeen | .mesgClear | .mesgFlags
  | .mesgFile .. => isTrue trivial

instance (p : StartPoint) (t : Trace) : (l : Label) → Decidable (NoneLeft p t l)
  | .dataIrq => inferInstanceAs (Decidable (_ → _ ∧ _))
  | .startIrq | .app _ | .check | .dataSeen | .dataClear | .deliver _ | .mesgSeen | .mesgClear
  | .mesgFlags | .mesgFile .. => inferInstanceAs (Decidable (_ → _))

/-- How the numbers and the program go together. -/
structure TraceInv (p : StartPoint) (t : Trace) : Prop where
  reading : Reading t.sys
  idle : t.sys.dataHappend = false → t.pending = []
  le : t.start ≤ t.raised
  span : t.during <+: List.range' (t.start + 1) (t.raised - t.start)
  whole : Acquiring p t.sys → t.during = List.range' (t.start + 1) (t.raised - t.start)
  coalesced : Coalesced t

/-! ### The program -/

theorem ready_mesgFile {b c : Board} {uiSeconds : UInt32} {fopenOk : Bool}
    (h : mesgFile b uiSeconds fopenOk = .ok c) : c.ucIsReady = b.ucIsReady := by
  by_cases hpc : b.uiSavePC = 0
  · obtain ⟨-, -, rfl⟩ := mesgFile_sd hpc h
    rfl
  · rw [mesgFile_pc hpc] at h
    rw [← Except.ok.inj h]

theorem reading_step {s t : Sys} {l : Label} {out : List Effect} (hs : Reading s)
    (h : sysStep s l = .ok (t, out)) : Reading t := by
  have hm := sysStep_ok h
  cases l with
  | dataIrq =>
    obtain ⟨rfl, -⟩ := hm
    exact ⟨hs.ready, fun _ => rfl⟩
  | startIrq =>
    obtain ⟨rfl, -⟩ := hm
    exact ⟨hs.ready, hs.flag⟩
  | app cmd =>
    obtain ⟨-, -, b, -, rfl⟩ := hm
    exact ⟨fun hpc => by simp at hpc, fun hpc => by simp at hpc⟩
  | check =>
    obtain ⟨-, -, rfl⟩ := hm
    cases hr : s.board.ucIsReady with
    | true => exact ⟨fun _ => hr, fun hpc => by simp at hpc⟩
    | false => exact ⟨fun hpc => by simp at hpc, fun hpc => by simp at hpc⟩
  | dataSeen =>
    obtain ⟨hpc, hflag, -, rfl⟩ := hm
    exact ⟨fun _ => hs.ready (Or.inl hpc), fun _ => hflag⟩
  | dataClear =>
    obtain ⟨hpc, -, rfl⟩ := hm
    exact ⟨fun _ => hs.ready (Or.inr (Or.inl hpc)), fun hpc => by simp at hpc⟩
  | deliver m =>
    obtain ⟨-, b, io, -, -, rfl⟩ := hm
    exact ⟨fun hpc => by simp at hpc, fun hpc => by simp at hpc⟩
  | mesgSeen =>
    obtain ⟨-, -, -, rfl⟩ := hm
    exact ⟨hs.ready, hs.flag⟩
  | mesgClear =>
    obtain ⟨-, -, rfl⟩ := hm
    exact ⟨hs.ready, hs.flag⟩
  | mesgFlags =>
    obtain ⟨-, -, rfl⟩ := hm
    exact ⟨fun _ => rfl, hs.flag⟩
  | mesgFile uiSeconds fopenOk =>
    obtain ⟨-, -, b, hb, rfl⟩ := hm
    exact ⟨fun hpc => (ready_mesgFile hb).trans (hs.ready hpc), hs.flag⟩

theorem ready_runCommand {b c : Board} {cmd : Option Command} (h : runCommand b cmd = .ok c)
    (hr : c.ucIsReady = true) : b.ucIsReady = true := by
  cases cmd with
  | none => exact Except.ok.inj h ▸ hr
  | some cmd =>
    cases cmd with
    | acqStart p uiSeconds bitBuff =>
      obtain ⟨csr, prbs, ram, rfl⟩ := acqStart_ok h
      exact hr
    | acqStop =>
      obtain rfl := Except.ok.inj h
      rw [(acqStop_frame b).1] at hr
      cases hr

theorem ready_deliverDataS {b c : Board} {m : Bram} {io : List Io}
    (h : deliverDataS b true m = .ok (c, io)) (hr : c.ucIsReady = true) : b.ucIsReady = true := by
  by_contra hno
  rw [deliverDataS_idle (by simp [hno])] at h
  obtain ⟨rfl, -⟩ := Prod.mk.inj (Except.ok.inj h)
  exact hno hr

/-- An acquisition begins with its start interrupt: no other step makes one. -/
theorem acquiring_step {p : StartPoint} {s t : Sys} {l : Label} {out : List Effect}
    (hp : p.isStep l = false) (h : sysStep s l = .ok (t, out)) (ht : Acquiring p t) :
    Acquiring p s := by
  have hm := sysStep_ok h
  cases l with
  | dataIrq =>
    obtain ⟨rfl, -⟩ := hm
    exact ht
  | startIrq =>
    obtain ⟨rfl, -⟩ := hm
    cases p with
    | raised => cases hp
    | seen | cleared | counted => exact ht
  | app cmd =>
    obtain ⟨-, -, b, hb, rfl⟩ := hm
    exact ht.imp_left (ready_runCommand hb)
  | check | dataClear =>
    obtain ⟨-, -, rfl⟩ := hm
    exact ht
  | dataSeen =>
    obtain ⟨-, -, -, rfl⟩ := hm
    exact ht
  | deliver m =>
    obtain ⟨-, b, io, hb, -, rfl⟩ := hm
    exact ht.imp_left (ready_deliverDataS hb)
  | mesgSeen =>
    obtain ⟨-, hirq, -, rfl⟩ := hm
    refine ht.imp_right fun hc => ?_
    cases p with
    | raised => exact Or.inl hirq
    | seen => cases hp
    | cleared => cases hc
    | counted => exact hc
  | mesgClear =>
    obtain ⟨hpc, -, rfl⟩ := hm
    refine ht.imp_right fun hc => ?_
    cases p with
    | raised => exact Or.inr (Or.inl hpc)
    | seen => exact Or.inl hpc
    | cleared => cases hp
    | counted => exact hc
  | mesgFlags =>
    obtain ⟨hpc, -, rfl⟩ := hm
    cases p with
    | raised => exact Or.inr (Or.inr (Or.inr hpc))
    | seen => exact Or.inr (Or.inr hpc)
    | cleared => exact Or.inr hpc
    | counted => cases hp
  | mesgFile uiSeconds fopenOk =>
    obtain ⟨-, -, b, hb, rfl⟩ := hm
    refine ht.imp (fun hr => (ready_mesgFile hb).symm.trans hr) fun hc => ?_
    cases p with
    | raised => exact Or.inl (hc.resolve_right (by simp))
    | seen => simp [StartPoint.Coming] at hc
    | cleared => cases hc
    | counted => exact hc

/-- The steps that move data interrupts on. -/
def Label.isData : Label → Bool
  | .dataIrq | .dataClear | .deliver _ => true
  | _ => false

/-- Every other step leaves the flag, and whether a read has returned, as they are. -/
theorem flag_frame {s t : Sys} {l : Label} {out : List Effect} (hl : l.isData = false)
    (h : sysStep s l = .ok (t, out)) :
    t.dataHappend = s.dataHappend ∧ (t.main = .got ↔ s.main = .got) := by
  have hm := sysStep_ok h
  cases l with
  | dataIrq | dataClear | deliver m => simp [Label.isData] at hl
  | startIrq =>
    obtain ⟨rfl, -⟩ := hm
    exact ⟨rfl, Iff.rfl⟩
  | app cmd =>
    obtain ⟨hpc, -, b, -, rfl⟩ := hm
    exact ⟨rfl, by simp [hpc]⟩
  | check =>
    obtain ⟨hpc, -, rfl⟩ := hm
    refine ⟨rfl, ?_⟩
    cases s.board.ucIsReady <;> simp [hpc]
  | dataSeen =>
    obtain ⟨hpc, -, -, rfl⟩ := hm
    exact ⟨rfl, by simp [hpc]⟩
  | mesgSeen =>
    obtain ⟨-, -, -, rfl⟩ := hm
    exact ⟨rfl, Iff.rfl⟩
  | mesgClear | mesgFlags =>
    obtain ⟨-, -, rfl⟩ := hm
    exact ⟨rfl, Iff.rfl⟩
  | mesgFile uiSeconds fopenOk =>
    obtain ⟨-, -, b, -, rfl⟩ := hm
    exact ⟨rfl, Iff.rfl⟩

/-! ### The groups -/

theorem isData_of_isStep {p : StartPoint} {l : Label} (h : p.isStep l = true) :
    l.isData = false := by
  cases l <;> cases p <;> simp_all [StartPoint.isStep, Label.isData]

theorem record_start {p : StartPoint} {l : Label} (hp : p.isStep l = true) (t : Trace) (s : Sys) :
    t.record p s l = { t with sys := s, start := t.raised, during := [], blocks := [] } := by
  have hl := isData_of_isStep hp
  cases l <;> simp_all [Trace.record, Label.isData]

theorem record_other {p : StartPoint} {l : Label} (hl : l.isData = false)
    (hp : p.isStep l = false) (t : Trace) (s : Sys) : t.record p s l = { t with sys := s } := by
  cases l <;> simp_all [Trace.record, Label.isData]

/-- A data interrupt that finds the flag clear makes a group of its own. -/
theorem groups_dataIrq_clear {p : StartPoint} {t : Trace} {s : Sys} {out : List Effect}
    (ht : TraceInv p t) (hflag : t.sys.dataHappend = false)
    (h : sysStep t.sys .dataIrq = .ok (s, out)) :
    (t.record p s .dataIrq).groups = t.groups ++ [[t.raised + 1]] := by
  obtain ⟨rfl, -⟩ := sysStep_ok h
  simp [Trace.record, Trace.groups, hflag, ht.idle hflag]

/-- One that finds it set joins the last group. -/
theorem groups_dataIrq_set {p : StartPoint} {t : Trace} {s : Sys} {out : List Effect}
    (hflag : t.sys.dataHappend = true) (h : sysStep t.sys .dataIrq = .ok (s, out)) :
    ∃ pre, t.groups = pre ++ [t.pending] ∧
      (t.record p s .dataIrq).groups = pre ++ [t.pending ++ [t.raised + 1]] := by
  obtain ⟨rfl, -⟩ := sysStep_ok h
  by_cases hgot : t.sys.main = .got
  · exact ⟨t.blocks ++ [t.taken], by simp [Trace.groups, hflag, hgot],
      by simp [Trace.record, Trace.groups, hgot]⟩
  · exact ⟨t.blocks, by simp [Trace.groups, hflag, hgot],
      by simp [Trace.record, Trace.groups, hgot]⟩

/-- The start interrupt drops the groups of the blocks delivered before. -/
theorem groups_start {p : StartPoint} {t : Trace} {s : Sys} {l : Label} {out : List Effect}
    (hp : p.isStep l = true) (h : sysStep t.sys l = .ok (s, out)) :
    t.groups = t.blocks ++ (t.record p s l).groups := by
  obtain ⟨hflag, hgot⟩ := flag_frame (isData_of_isStep hp) h
  simp [record_start hp, Trace.groups, hflag, hgot]

/-- Every other step keeps the groups: a read and a block only move them on. -/
theorem groups_other {p : StartPoint} {t : Trace} {s : Sys} {l : Label} {out : List Effect}
    (ht : TraceInv p t) (hl : l ≠ .dataIrq) (hp : p.isStep l = false)
    (h : sysStep t.sys l = .ok (s, out)) :
    (t.record p s l).groups = t.groups ∧ (t.record p s l).start = t.start ∧
      (t.record p s l).raised = t.raised := by
  by_cases hdata : l.isData = false
  · obtain ⟨hflag, hgot⟩ := flag_frame hdata h
    simp [record_other hdata hp, Trace.groups, hflag, hgot]
  · cases l with
    | dataIrq => exact absurd rfl hl
    | dataClear =>
      obtain ⟨hpc, -, rfl⟩ := sysStep_ok h
      simp [Trace.record, Trace.groups, hpc, ht.reading.flag hpc]
    | deliver m =>
      obtain ⟨hpc, b, io, -, -, rfl⟩ := sysStep_ok h
      simp [Trace.record, Trace.groups, hpc, ht.reading.ready (Or.inr (Or.inr hpc))]
    | _ => simp [Label.isData] at hdata

/-! ### One step -/

theorem idle_step {p : StartPoint} {t : Trace} {s : Sys} {l : Label} {out : List Effect}
    (ht : TraceInv p t) (h : sysStep t.sys l = .ok (s, out)) :
    (t.record p s l).sys.dataHappend = false → (t.record p s l).pending = [] := by
  intro hflag
  by_cases hdata : l.isData = false
  · have hf := (flag_frame hdata h).1
    cases hp : p.isStep l with
    | true =>
      rw [record_start hp] at hflag ⊢
      exact ht.idle (hf.symm.trans hflag)
    | false =>
      rw [record_other hdata hp] at hflag ⊢
      exact ht.idle (hf.symm.trans hflag)
  · cases l with
    | dataIrq =>
      obtain ⟨rfl, -⟩ := sysStep_ok h
      simp [Trace.record] at hflag
    | dataClear => rfl
    | deliver m =>
      obtain ⟨-, b, io, -, -, rfl⟩ := sysStep_ok h
      exact ht.idle hflag
    | _ => simp [Label.isData] at hdata

theorem le_step {p : StartPoint} {t : Trace} {l : Label} (ht : TraceInv p t) (s : Sys) :
    (t.record p s l).start ≤ (t.record p s l).raised := by
  have hle := ht.le
  cases hp : p.isStep l with
  | true => exact (record_start hp t s) ▸ Nat.le_refl t.raised
  | false =>
    cases l <;> simp only [Trace.record, hp, if_false, Bool.false_eq_true] <;> omega

/-- What is left of a range behind its first numbers is a range. -/
theorem range'_of_append {m n : ℕ} {l₁ l₂ : List ℕ} (h : l₁ ++ l₂ = List.range' (m + 1) n) :
    l₁.length ≤ n ∧ l₂ = List.range' (m + l₁.length + 1) (n - l₁.length) := by
  have hlen : l₁.length ≤ n := by
    have := congrArg List.length h
    simp at this
    omega
  refine ⟨hlen, ?_⟩
  have hdrop := congrArg (List.drop l₁.length) h
  rw [List.drop_left, List.drop_range'] at hdrop
  rw [hdrop]
  congr 1
  omega

/-- The entries of a range. -/
theorem range'_entry {m n j i : ℕ} (h : (List.range' (m + 1) n)[j]? = some i) : i = m + j + 1 := by
  obtain ⟨hj, rfl⟩ := List.getElem?_eq_some_iff.mp h
  rw [List.getElem_range']
  omega

/-- Every step keeps the data interrupts in order, each once. -/
theorem coalesced_step {p : StartPoint} {t : Trace} {s : Sys} {l : Label} {out : List Effect}
    (ht : TraceInv p t) (h : sysStep t.sys l = .ok (s, out)) : Coalesced (t.record p s l) := by
  obtain ⟨⟨m, hm, hflat⟩, hne⟩ := ht.coalesced
  have hle := ht.le
  have hnext : List.range' (m + 1) (t.raised - m) ++ [t.raised + 1] =
      List.range' (m + 1) (t.raised + 1 - m) := by
    have hsub : t.raised + 1 - m = t.raised - m + 1 := by omega
    have hlast : m + 1 + (t.raised - m) = t.raised + 1 := by omega
    rw [hsub, List.range'_1_concat, hlast]
  by_cases hirq : l = .dataIrq
  · subst hirq
    cases hflag : t.sys.dataHappend with
    | false =>
      have hg := groups_dataIrq_clear (p := p) ht hflag h
      refine ⟨⟨m, hm, ?_⟩, ?_⟩
      · rw [hg, List.flatten_append, hflat]
        exact hnext
      · rw [hg]
        exact List.forall_mem_append.mpr ⟨hne, by simp⟩
    | true =>
      obtain ⟨pre, hpre, hg⟩ := groups_dataIrq_set (p := p) hflag h
      refine ⟨⟨m, hm, ?_⟩, ?_⟩
      · rw [hpre] at hflat
        rw [hg]
        refine Eq.trans ?_ hnext
        rw [← hflat]
        simp
      · rw [hpre] at hne
        rw [hg]
        exact List.forall_mem_append.mpr ⟨(List.forall_mem_append.mp hne).1, by simp⟩
  · cases hp : p.isStep l with
    | false =>
      obtain ⟨hg, hstart, hraised⟩ := groups_other ht hirq hp h
      rw [Coalesced, hg, hstart, hraised]
      exact ht.coalesced
    | true =>
      have hg := groups_start hp h
      rw [hg, List.flatten_append] at hflat
      obtain ⟨hlen, hrest⟩ := range'_of_append hflat
      rw [hg] at hne
      refine ⟨⟨m + t.blocks.flatten.length, ?_, ?_⟩, (List.forall_mem_append.mp hne).2⟩
      · rw [record_start hp]
        dsimp only
        omega
      · rw [hrest, record_start hp]
        congr 1
        dsimp only
        omega

theorem sys_record {p : StartPoint} (t : Trace) (s : Sys) (l : Label) : (t.record p s l).sys = s := by
  cases hp : p.isStep l with
  | true => rw [record_start hp]
  | false => cases l <;> simp only [Trace.record, hp, if_false, Bool.false_eq_true]

/-- What is raised during the acquisition follows without a gap. -/
theorem span_step {p : StartPoint} {t : Trace} {s : Sys} {l : Label} {out : List Effect}
    (ht : TraceInv p t) (h : sysStep t.sys l = .ok (s, out)) :
    (t.record p s l).during <+:
        List.range' ((t.record p s l).start + 1) ((t.record p s l).raised - (t.record p s l).start) ∧
      (Acquiring p s → (t.record p s l).during =
        List.range' ((t.record p s l).start + 1)
          ((t.record p s l).raised - (t.record p s l).start)) := by
  have hle := ht.le
  by_cases hirq : l = .dataIrq
  · subst hirq
    have hsub : t.raised + 1 - t.start = t.raised - t.start + 1 := by omega
    have hlast : t.start + 1 + (t.raised - t.start) = t.raised + 1 := by omega
    have hback : Acquiring p s → Acquiring p t.sys := acquiring_step (by cases p <;> rfl) h
    simp only [Trace.record]
    rw [hsub, List.range'_1_concat, hlast]
    by_cases hacq : Acquiring p t.sys
    · rw [if_pos hacq, ht.whole hacq]
      exact ⟨List.prefix_rfl, fun _ => rfl⟩
    · rw [if_neg hacq]
      exact ⟨ht.span.trans (List.prefix_append _ _), fun hs => absurd (hback hs) hacq⟩
  · cases hp : p.isStep l with
    | true =>
      rw [record_start hp]
      simp
    | false =>
      have hback : Acquiring p s → Acquiring p t.sys := acquiring_step hp h
      have hrecord : (t.record p s l).during = t.during ∧ (t.record p s l).start = t.start ∧
          (t.record p s l).raised = t.raised := by
        cases l <;> simp_all [Trace.record]
      obtain ⟨hduring, hstart, hraised⟩ := hrecord
      rw [hduring, hstart, hraised]
      exact ⟨ht.span, fun hs => ht.whole (hback hs)⟩

theorem traceInv_step {p : StartPoint} {t u : Trace} {l : Label} (ht : TraceInv p t)
    (h : traceStep p t l = .ok u) : TraceInv p u := by
  obtain ⟨⟨s, out⟩, hs, h⟩ := bind_eq_ok.mp h
  obtain rfl := pure_eq_ok.mp h
  obtain ⟨hspan, hwhole⟩ := span_step (p := p) ht hs
  refine ⟨?_, idle_step ht hs, le_step ht s, hspan, ?_, coalesced_step ht hs⟩
  · rw [sys_record]
    exact reading_step ht.reading hs
  · rw [sys_record]
    exact hwhole

/-! ### The law, step by step -/

section
variable {p : StartPoint} {t : Trace} {s : Sys} {out : List Effect}

theorem TraceInv.nodup (ht : TraceInv p t) : t.groups.flatten.Nodup := by
  obtain ⟨⟨m, -, hflat⟩, -⟩ := ht.coalesced
  rw [hflat]
  exact List.nodup_range'

/-- A number is in one group only. -/
theorem TraceInv.group_unique (ht : TraceInv p t) {g g' : List ℕ} {i : ℕ} (hg : g ∈ t.groups)
    (hg' : g' ∈ t.groups) (hi : i ∈ g) (hi' : i ∈ g') : g = g' := by
  obtain ⟨-, hpair⟩ := List.nodup_flatten.mp ht.nodup
  have : Std.Symm (List.Disjoint (α := ℕ)) := ⟨fun _ _ h _ hi hi' => h hi' hi⟩
  by_contra hne
  exact hpair.forall hg hg' hne hi hi'

/-- A data interrupt that finds the flag clear begins a group of its own. -/
theorem oneEach_dataIrq_clear (ht : TraceInv p t) (hone : OneEach t) (hflag : t.sys.dataHappend = false)
    (h : sysStep t.sys .dataIrq = .ok (s, out)) : OneEach (t.record p s .dataIrq) := by
  refine ⟨hone.kth, ?_⟩
  intro i hi
  rw [groups_dataIrq_clear ht hflag h]
  simp only [Trace.record] at hi
  split at hi
  · rcases List.mem_append.mp hi with hi | hi
    · exact List.mem_append_left _ (hone.alone i hi)
    · rw [List.mem_singleton.mp hi]
      exact List.mem_append_right _ (List.mem_singleton_self _)
  · exact List.mem_append_left _ (hone.alone i hi)

/-- One that finds the flag set keeps the law only if both it and those that the flag stands for are
    outside an acquisition. -/
theorem oneEach_dataIrq_set (ht : TraceInv p t) (hone : OneEach t) (hflag : t.sys.dataHappend = true)
    (h : sysStep t.sys .dataIrq = .ok (s, out)) :
    OneEach (t.record p s .dataIrq) ↔
      ¬ Acquiring p t.sys ∧ ∀ i ∈ t.pending, i ∉ t.during := by
  obtain ⟨pre, hpre, hg⟩ := groups_dataIrq_set (p := p) hflag h
  obtain ⟨⟨m, -, hflat⟩, hne⟩ := ht.coalesced
  have hpending : t.pending ≠ [] := hne _ (hpre ▸ List.mem_append_right _ (List.mem_singleton_self _))
  have hlong : ∀ i, [i] ≠ t.pending ++ [t.raised + 1] := by
    intro i heq
    have hlen := congrArg List.length heq
    have hpos := List.length_pos_iff.mpr hpending
    rw [List.length_append, List.length_singleton, List.length_singleton] at hlen
    omega
  have hnodup := ht.nodup
  rw [hpre, List.flatten_append, List.flatten_singleton] at hnodup
  constructor
  · intro hone'
    have hin : ∀ i ∈ (t.record p s .dataIrq).during, i ∈ pre.flatten := by
      intro i hi
      have hmem := hone'.alone i hi
      rw [hg] at hmem
      rcases List.mem_append.mp hmem with hmem | hmem
      · exact List.mem_flatten.mpr ⟨_, hmem, List.mem_singleton_self i⟩
      · exact absurd (List.mem_singleton.mp hmem) (hlong i)
    constructor
    · -- the new number is higher than those of the groups so far
      intro hacq
      have hnew : t.raised + 1 ∈ t.groups.flatten := by
        rw [hpre, List.flatten_append]
        refine List.mem_append_left _ (hin _ ?_)
        simp only [Trace.record, if_pos hacq]
        exact List.mem_append_right _ (List.mem_singleton_self _)
      rw [hflat, List.mem_range'_1] at hnew
      omega
    · intro i hi hduring
      have hduring' : i ∈ (t.record p s .dataIrq).during := by
        simp only [Trace.record]
        split
        · exact List.mem_append_left _ hduring
        · exact hduring
      exact List.disjoint_of_nodup_append hnodup (hin i hduring') hi
  · rintro ⟨hacq, hout⟩
    refine ⟨hone.kth, ?_⟩
    intro i hi
    simp only [Trace.record, if_neg hacq] at hi
    have hmem := hone.alone i hi
    rw [hpre] at hmem
    rw [hg]
    rcases List.mem_append.mp hmem with hmem | hmem
    · exact List.mem_append_left _ hmem
    · have heq := List.mem_singleton.mp hmem
      exact absurd hi (hout i (heq ▸ List.mem_singleton_self i))

theorem oneEach_dataIrq (ht : TraceInv p t) (hone : OneEach t)
    (h : sysStep t.sys .dataIrq = .ok (s, out)) :
    OneEach (t.record p s .dataIrq) ↔ Paced p t .dataIrq := by
  cases hflag : t.sys.dataHappend with
  | false =>
    refine iff_of_true (oneEach_dataIrq_clear ht hone hflag h) fun hset => ?_
    rw [hflag] at hset
    cases hset
  | true =>
    rw [oneEach_dataIrq_set ht hone hflag h]
    exact ⟨fun hout _ => hout, fun hpaced => hpaced hflag⟩

/-- The blocks so far, by the law. -/
theorem OneEach.flatten_blocks (hone : OneEach t) :
    t.blocks.flatten = List.range' (t.start + 1) t.blocks.length := by
  have hblocks : t.blocks = (List.range' (t.start + 1) t.blocks.length).map fun i => [i] := by
    refine List.ext_getElem (by simp) fun k hk _ => ?_
    rw [hone.kth k _ (List.getElem?_eq_getElem hk), List.getElem_map, List.getElem_range']
    congr 1
    omega
  rw [hblocks, List.length_map, List.length_range', ← List.flatMap_def, List.flatMap_singleton']

theorem taken_mem_groups (hpc : t.sys.main = .got) : t.taken ∈ t.groups := by
  rw [Trace.groups, if_pos hpc]
  exact List.mem_append_left _ (List.mem_append_right _ (List.mem_singleton_self _))

/-- A read that stands for no interrupt older than the start interrupt stands for the next one
    alone. -/
theorem OneEach.taken_eq (ht : TraceInv p t) (hone : OneEach t) (hpc : t.sys.main = .got)
    (hfresh : ∀ i ∈ t.taken, t.start < i) : t.taken = [t.start + t.blocks.length + 1] := by
  have hr := ht.reading.ready (Or.inr (Or.inr hpc))
  have htaken := taken_mem_groups hpc
  obtain ⟨⟨m, hm, hflat⟩, hne⟩ := ht.coalesced
  obtain ⟨i, rest, hcons⟩ := List.exists_cons_of_ne_nil (hne _ htaken)
  have hi : i ∈ t.taken := hcons ▸ List.mem_cons_self
  have hlow := hfresh i hi
  -- it was raised during the acquisition, so it is alone
  have hduring : i ∈ t.during := by
    have hmem := List.mem_flatten.mpr ⟨_, htaken, hi⟩
    rw [hflat, List.mem_range'_1] at hmem
    rw [ht.whole (Or.inl hr), List.mem_range'_1]
    have hle := ht.le
    omega
  have halone : t.taken = [i] :=
    ht.group_unique htaken (hone.alone i hduring) hi (List.mem_singleton_self i)
  -- and it is the next one behind those of the blocks
  have hgroups : t.groups.flatten = t.blocks.flatten ++
      (i :: if t.sys.dataHappend then t.pending else []) := by
    rw [Trace.groups, if_pos hpc, halone]
    cases t.sys.dataHappend <;> simp
  rw [hgroups, hone.flatten_blocks] at hflat
  have hnext : i = m + t.blocks.length + 1 := by
    refine range'_entry (n := t.raised - m) ?_
    rw [← hflat, List.getElem?_append_right (by simp), List.length_range', Nat.sub_self]
    rfl
  have hfirst : t.blocks.length ≠ 0 → t.start + 1 = m + 0 + 1 := by
    intro h0
    refine range'_entry (m := m) (n := t.raised - m) (j := 0) ?_
    rw [← hflat, List.getElem?_append_left (by rw [List.length_range']; omega),
      List.getElem?_range' (by omega)]
  rw [halone, hnext]
  congr 1
  omega

/-- A block keeps the law exactly if the flag was set after the start interrupt. -/
theorem oneEach_deliver (ht : TraceInv p t) (hone : OneEach t) {m : Bram}
    (h : sysStep t.sys (.deliver m) = .ok (s, out)) :
    OneEach (t.record p s (.deliver m)) ↔ Paced p t (.deliver m) := by
  obtain ⟨hgroups, -, -⟩ := groups_other (p := p) ht (by simp) (by cases p <;> rfl) h
  obtain ⟨hpc, -⟩ := sysStep_ok h
  have hr := ht.reading.ready (Or.inr (Or.inr hpc))
  have hblocks : (t.record p s (.deliver m)).blocks = t.blocks ++ [t.taken] := by
    simp only [Trace.record, hr, if_true]
  constructor
  · intro hone' i hi
    have hlast := hone'.kth t.blocks.length t.taken (by rw [hblocks, List.getElem?_concat_length])
    rw [hlast, List.mem_singleton] at hi
    rw [hi]
    change t.start < t.start + t.blocks.length + 1
    omega
  · intro hfresh
    refine ⟨?_, by rw [hgroups]; exact hone.alone⟩
    intro k irqs hk
    rw [hblocks, List.getElem?_append] at hk
    split at hk
    · exact hone.kth k irqs hk
    · obtain ⟨hlt, rfl⟩ := List.getElem?_eq_some_iff.mp hk
      rw [List.length_singleton] at hlt
      have hkeq : k = t.blocks.length := by omega
      rw [List.getElem_singleton, hone.taken_eq ht hpc hfresh, hkeq]
      rfl

/-- A step keeps the law exactly when it is paced. -/
theorem oneEach_step {u : Trace} {l : Label} (ht : TraceInv p t) (hone : OneEach t)
    (h : traceStep p t l = .ok u) : OneEach u ↔ Paced p t l := by
  obtain ⟨⟨s, out⟩, hs, h⟩ := bind_eq_ok.mp h
  obtain rfl := pure_eq_ok.mp h
  by_cases hdata : l.isData = false
  · have hpaced : Paced p t l := by cases l <;> simp_all [Paced, Label.isData]
    refine iff_of_true ?_ hpaced
    cases hp : p.isStep l with
    | true =>
      rw [record_start hp]
      exact ⟨fun k irqs hk => by simp at hk, fun i hi => by simp at hi⟩
    | false =>
      have hirq : l ≠ .dataIrq := fun heq => by simp [heq, Label.isData] at hdata
      obtain ⟨hgroups, -, -⟩ := groups_other ht hirq hp hs
      refine ⟨?_, ?_⟩
      · rw [record_other hdata hp]
        exact hone.kth
      · rw [hgroups, record_other hdata hp]
        exact hone.alone
  · cases l with
    | dataIrq => exact oneEach_dataIrq ht hone hs
    | deliver m => exact oneEach_deliver ht hone hs
    | dataClear =>
      obtain ⟨hgroups, -, -⟩ := groups_other (p := p) ht (by simp) (by cases p <;> rfl) hs
      refine iff_of_true ⟨hone.kth, ?_⟩ trivial
      rw [hgroups]
      exact hone.alone
    | _ => simp [Label.isData] at hdata

end

/-! ### When no flag is left over -/

/-- What the flag or a returned read stands for was raised behind the start interrupt. -/
structure Fresh (t : Trace) : Prop where
  taken : t.sys.main = .got → ∀ i ∈ t.taken, t.start < i
  pending : t.sys.dataHappend = true → ∀ i ∈ t.pending, t.start < i

theorem fresh_step {p : StartPoint} {t u : Trace} {l : Label} (ht : TraceInv p t) (hf : Fresh t)
    (hok : NoneLeft p t l) (h : traceStep p t l = .ok u) : Fresh u := by
  obtain ⟨⟨s, out⟩, hs, h⟩ := bind_eq_ok.mp h
  obtain rfl := pure_eq_ok.mp h
  by_cases hdata : l.isData = false
  · obtain ⟨hflag, hgot⟩ := flag_frame hdata hs
    cases hp : p.isStep l with
    | true =>
      have hclear : t.sys.dataHappend = false ∧ t.sys.main ≠ .got := by
        cases l <;> simp_all [NoneLeft, Label.isData]
      rw [record_start hp]
      refine ⟨fun hm => absurd (hgot.mp hm) hclear.2, fun hset => ?_⟩
      rw [show s.dataHappend = false from hflag.trans hclear.1] at hset
      cases hset
    | false =>
      rw [record_other hdata hp]
      exact ⟨fun hm => hf.taken (hgot.mp hm), fun hset => hf.pending (hflag.symm.trans hset)⟩
  · cases l with
    | dataIrq =>
      obtain ⟨rfl, -⟩ := sysStep_ok hs
      refine ⟨hf.taken, fun _ => ?_⟩
      have hle := ht.le
      have hold : ∀ i ∈ t.pending, t.start < i := by
        cases hflag : t.sys.dataHappend with
        | false => simp [ht.idle hflag]
        | true => exact hf.pending hflag
      refine List.forall_mem_append.mpr ⟨hold, ?_⟩
      rw [List.forall_mem_singleton]
      change t.start < t.raised + 1
      omega
    | dataClear =>
      obtain ⟨hpc, -, rfl⟩ := sysStep_ok hs
      exact ⟨fun _ => hf.pending (ht.reading.flag hpc), fun hset => by cases hset⟩
    | deliver m =>
      obtain ⟨-, b, io, -, -, rfl⟩ := sysStep_ok hs
      exact ⟨fun hm => MainPc.noConfusion hm, hf.pending⟩
    | _ => simp [Label.isData] at hdata

theorem deliver_got {p : StartPoint} {t u : Trace} {m : Bram}
    (h : traceStep p t (.deliver m) = .ok u) : t.sys.main = .got := by
  obtain ⟨⟨s, out⟩, hs, -⟩ := bind_eq_ok.mp h
  exact (sysStep_ok hs).1

/-! ### The run -/

theorem traceInv_boot (p : StartPoint) (b : Board) :
    TraceInv p (Trace.boot b) where
  reading := ⟨fun h => by simp [Trace.boot, Sys.boot] at h, fun h => by cases h⟩
  idle _ := rfl
  le := Nat.le_refl 0
  span := List.prefix_rfl
  whole _ := rfl
  coalesced := ⟨⟨0, Nat.le_refl 0, rfl⟩, fun _ hg => by cases hg⟩

theorem fresh_boot (b : Board) : Fresh (Trace.boot b) where
  taken hm := MainPc.noConfusion hm
  pending hset := Bool.noConfusion hset

theorem oneEach_boot (b : Board) : OneEach (Trace.boot b) where
  kth _ _ hk := by cases hk
  alone _ hi := by cases hi

/-- CORRECT: in every interleaving the data interrupts go through in order, each once, in groups of
    at least one: every block is triggered by the interrupts raised since the flag was last cleared.
    The k-th block after a start interrupt is triggered by exactly the k-th data interrupt, and none
    raised during the acquisition is merged or lost, in all states exactly if the interleaving is
    paced; as far as the blocks go it is, if no start interrupt finds a flag left over. -/
theorem coalesced_and_oneEach_iff_paced (csr : Csr.Regs) (ram : ℕ → UInt32) (files : Files)
    {p : StartPoint} {ls : List Label} {u : Trace}
    (h : run (traceStep p) (Trace.boot (Board.boot csr ram files)) ls = .ok u) :
    Coalesced u ∧
    (Always (traceStep p) OneEach (Trace.boot (Board.boot csr ram files)) ls ↔
      Meets (traceStep p) (Paced p) (Trace.boot (Board.boot csr ram files)) ls) ∧
    (Meets (traceStep p) (NoneLeft p) (Trace.boot (Board.boot csr ram files)) ls →
      Meets (traceStep p) (Paced p) (Trace.boot (Board.boot csr ram files)) ls) := by
  have hboot := traceInv_boot p (Board.boot csr ram files)
  refine ⟨(run_keeps traceInv_step hboot h).coalesced, ?_, ?_⟩
  · refine always_iff_meets_of_ok (fun t => TraceInv p t ∧ OneEach t) (fun _ _ => True) And.right ?_ ?_
      ⟨hboot, oneEach_boot _⟩ (meets_true ls _) h
    · rintro s l t ⟨hinv, hone⟩ - hok ht
      exact ⟨traceInv_step hinv ht, (oneEach_step hinv hone ht).mpr hok⟩
    · rintro s l t ⟨hinv, hone⟩ - ht
      exact oneEach_step hinv hone ht
  · refine meets_imp (P := fun t => TraceInv p t ∧ Fresh t) ?_ ?_ ⟨hboot, fresh_boot _⟩ h
    · rintro s l t ⟨hinv, hfresh⟩ hok ht
      exact ⟨traceInv_step hinv ht, fresh_step hinv hfresh hok ht⟩
    · rintro s l t ⟨hinv, hfresh⟩ hok ht
      cases l with
      | dataIrq => exact hok
      | deliver m => exact hfresh.taken (deliver_got ht)
      | _ => trivial

/-- A data interrupt raised before the start interrupt triggers the first block after it. -/
theorem oneEach_fails_on_leftover : ¬ ∀ (ls : List Label) (u : Trace),
    run (traceStep .raised) (Trace.boot benchBoard) ls = .ok u → OneEach u := by
  intro h
  have hone := h [.app (some (.acqStart benchProfile 5 fun _ => 0)), .dataIrq, .check, .startIrq,
    .mesgSeen, .mesgClear, .mesgFlags, .mesgFile 7 true, .app none, .check, .dataSeen, .dataClear,
    .deliver zeroBram] _ rfl
  exact absurd (hone.kth 0 _ rfl) (by decide)

/-- Two blocks, each data interrupt raised after the flag of the one before was cleared: the second
    one before the first block is delivered. Two more find the acquisition stopped. -/
def twoBlocks : List Label :=
  [.app (some (.acqStart benchProfile 5 fun _ => 0)), .check, .startIrq, .mesgSeen, .mesgClear,
    .mesgFlags, .mesgFile 7 true, .app none, .check, .dataIrq, .dataSeen, .dataClear, .dataIrq,
    .deliver zeroBram, .app none, .check, .dataSeen, .dataClear, .deliver zeroBram,
    .app (some .acqStop), .dataIrq, .dataIrq]

theorem coalesced_and_oneEach_iff_paced_two : ∃ u,
    run (traceStep .counted) (Trace.boot benchBoard) twoBlocks = .ok u ∧ u.blocks = [[1], [2]] ∧
      Coalesced u ∧ Always (traceStep .counted) OneEach (Trace.boot benchBoard) twoBlocks := by
  have hpaced : Meets (traceStep .counted) (Paced .counted) (Trace.boot benchBoard) twoBlocks := by
    decide
  have hrun : ∃ u, run (traceStep .counted) (Trace.boot benchBoard) twoBlocks = .ok u ∧
    u.blocks = [[1], [2]] := ⟨_, rfl, rfl⟩
  obtain ⟨u, hu, hblocks⟩ := hrun
  have hlaws := coalesced_and_oneEach_iff_paced (fun _ => 0) (fun _ => 0) Files.empty hu
  exact ⟨u, hu, hblocks, hlaws.1, hlaws.2.1.mpr hpaced⟩

end AcqBoard.App
