import AcqBoard.App.Delivery
import AcqBoard.App.Limits

/-! The other way to deliver: `DeliverData`, the commented-out line of the main loop, which reads each
    block from the FIFO device instead of the mapped buffers.

    It cuts an acquisition into blocks as `DeliverData_s` does, but counts them in a static variable
    of its own, `m_ulTotalLen`. That variable is reset where an acquisition ends, in `DeliverData`
    itself, and not where one begins: after an acquisition that `AcqStop` ended, the next one starts
    with the blocks of the last. -/

namespace AcqBoard.App
open Schemes

/-! ### The two programs -/

/-- The program that delivers from the FIFO: its globals, and the static `m_ulTotalLen`. -/
structure Fifo where
  board : Board
  ulTotalLen : UInt64

/-- `DeliverData`, after the wait for `CSR_PROG_FULL`, with the block `dataBuff` in the FIFO. -/
def deliverData (f : Fifo) (dataBuff : Window) : Fifo × List Io :=
  let len := f.board.ulSampleLength - f.ulTotalLen
  if len ≤ packageSize then
    (⟨{ f.board with ucIsReady := false }, 0⟩, [.send (window dataBuff 0 len.toNat)])
  else if len ≤ bramSize then
    (⟨{ f.board with ucIsReady := false }, 0⟩,
      [.send (window dataBuff 0 packageSize.toNat),
        .send (window dataBuff packageSize.toNat (len - packageSize).toNat)])
  else
    (⟨f.board, f.ulTotalLen + bramSize⟩,
      [.send (window dataBuff 0 packageSize.toNat),
        .send (window dataBuff packageSize.toNat packageSize.toNat)])

/-- What a call is seen to do: the bytes it sends, and whether the acquisition is still ready. -/
abbrev Seen := List UInt8 × Bool

/-- The calls of `DeliverData_s` on the data interrupts `ms`. -/
def mmapCalls (b : Board) : List Bram → Except Fault (Board × List Seen)
  | [] => pure (b, [])
  | m :: ms => do
    let r ← deliverDataS b true m
    let q ← mmapCalls r.1 ms
    pure (q.1, (r.2.flatMap Io.bytes, r.1.ucIsReady) :: q.2)

/-- Block number `k + 1` of an acquisition: what the data interrupt finds in buffer A or B. -/
def blockAt (k : ℕ) (m : Bram) : Window := if (k + 1) % 2 = 1 then m.a else m.b

/-- The calls of `DeliverData` on the same blocks, from block number `k + 1` on; the main loop calls
    it only while the acquisition is ready. -/
def fifoCalls (f : Fifo) : ℕ → List Bram → Fifo × List Seen
  | _, [] => (f, [])
  | k, m :: ms =>
    let r := if f.board.ucIsReady then deliverData f (blockAt k m) else (f, [])
    let q := fifoCalls r.1 (k + 1) ms
    (q.1, (r.2.flatMap Io.bytes, r.1.board.ucIsReady) :: q.2)

/-- An acquisition: its `AcqStart`, its start interrupt, its blocks, and whether `AcqStop` ends it. -/
structure Acq where
  p : Profile
  uiSeconds : UInt32
  bitBuff : ℕ → UInt8
  irqSeconds : UInt32
  fopenOk : Bool
  blocks : List Bram
  stop : Bool

/-- What is seen of an acquisition: the bytes sent, and after each block whether it is ready. -/
structure Outcome where
  sent : List UInt8
  ready : List Bool
  deriving DecidableEq

def outcome (xs : List Seen) : Outcome := ⟨(xs.map Prod.fst).flatten, xs.map Prod.snd⟩

/-- Up to the first block: `AcqStart`, then the start interrupt. -/
def start (b : Board) (a : Acq) : Except Fault Board := do
  let b ← acqStart b a.p a.uiSeconds a.bitBuff
  mesgThread b a.irqSeconds a.fopenOk

/-- Both programs, and what each was seen to do in every acquisition so far. -/
structure Paths where
  mmap : Board
  fifo : Fifo
  mmapOut : List Outcome
  fifoOut : List Outcome

/-- One acquisition in both programs. `m_ulTotalLen` is untouched outside of `DeliverData`. -/
def acquire (s : Paths) (a : Acq) : Except Fault Paths := do
  let b ← start s.mmap a
  let r ← mmapCalls b a.blocks
  let c ← start s.fifo.board a
  let q := fifoCalls ⟨c, s.fifo.ulTotalLen⟩ 0 a.blocks
  pure {
    mmap := if a.stop then acqStop r.1 else r.1
    fifo := ⟨if a.stop then acqStop q.1.board else q.1.board, q.1.ulTotalLen⟩
    mmapOut := s.mmapOut ++ [outcome r.2]
    fifoOut := s.fifoOut ++ [outcome q.2] }

/-! ### What both do with a sample length -/

/-- What is seen of the blocks `ms` of a sample length of `S` bytes, from block number `k + 1` on. -/
def delivered (S : ℕ) : ℕ → List Bram → List Seen
  | _, [] => []
  | k, m :: ms => (blockOf S (k + 1) m, decide (k + 1 < callsOf S)) :: delivered S (k + 1) ms

/-- The calls of `DeliverData_s` deliver the sample length. -/
theorem mmapCalls_eq {b : Board} (hpc : b.uiSavePC ≠ 0) {pre : List Bram} {s : Calls}
    (h : Progress b pre s) (ms : List Bram) :
    ∃ c, mmapCalls s.board ms = .ok (c, delivered b.ulSampleLength.toNat pre.length ms) := by
  induction ms generalizing pre s with
  | nil => exact ⟨s.board, rfl⟩
  | cons m ms ih =>
    obtain ⟨d, hd, hp⟩ := progress_step (fun h0 => absurd h0 hpc) h m
    obtain ⟨c, hc⟩ := ih hp
    obtain ⟨⟨e, io⟩, he, hd⟩ := bind_eq_ok.mp hd
    obtain rfl := pure_eq_ok.mp hd
    have hlen : (pre ++ [m]).length = pre.length + 1 := by simp
    have hout := hp.emitted.bytes (pre.length + 1) m (by omega) (by simp)
    rw [Nat.add_sub_cancel, List.getElem?_append_right (by rw [h.emitted.count]),
      h.emitted.count, Nat.sub_self] at hout
    have hbytes : io.flatMap Io.bytes = blockOf b.ulSampleLength.toNat (pre.length + 1) m := by
      simpa using hout
    have hready : e.ucIsReady = decide (pre.length + 1 < callsOf b.ulSampleLength.toNat) := by
      rw [Bool.eq_iff_iff, decide_eq_true_iff, ← hlen]
      exact hp.ready
    refine ⟨c, ?_⟩
    rw [mmapCalls, he]
    change (mmapCalls e ms >>= _) = _
    rw [hc, hlen]
    simp only [delivered, ← hbytes, ← hready]
    rfl

/-- The unsigned difference that the branches of `DeliverData` test. -/
def Fifo.remaining (f : Fifo) : UInt64 := f.board.ulSampleLength - f.ulTotalLen

/-- The three branches of `DeliverData` are one. -/
theorem deliverData_eq (f : Fifo) (w : Window) :
    deliverData f w =
      (if f.remaining ≤ bramSize then ⟨{ f.board with ucIsReady := false }, 0⟩
        else ⟨f.board, f.ulTotalLen + bramSize⟩,
      (sendsOf (if f.remaining ≤ bramSize then f.remaining else bramSize)).map fun s =>
        .send (window w s.1.toNat s.2.toNat)) := by
  have hrem : f.board.ulSampleLength - f.ulTotalLen = f.remaining := rfl
  have hzero : (0 : UInt64).toNat = 0 := rfl
  unfold deliverData
  simp only [hrem]
  by_cases h₁ : f.remaining ≤ packageSize
  · have h₂ : f.remaining ≤ bramSize := UInt64.le_trans h₁ (by decide)
    simp only [h₁, h₂, if_true, sendsOf, List.map_cons, List.map_nil, hzero]
  · by_cases h₂ : f.remaining ≤ bramSize
    · simp only [h₁, h₂, if_true, if_false, sendsOf, List.map_cons, List.map_nil, hzero]
    · have hp : ¬ bramSize ≤ packageSize := by decide
      have hhalf : bramSize - packageSize = packageSize := by decide
      simp only [h₁, h₂, hp, hhalf, if_false, sendsOf, List.map_cons, List.map_nil, hzero]

/-- The bytes that a counter which starts at `c` leaves of a sample length `L`, in 64 bits. -/
def rest (L c : UInt64) : ℕ := (L - c).toNat

/-- `m_ulTotalLen` after `k` blocks of a sample length `L`, when it was `c` before. -/
def counted (L c : UInt64) (k : ℕ) : UInt64 :=
  if k < callsOf (rest L c) then c + UInt64.ofNat (65536 * k) else 0

/-- The state of the FIFO program after `k` blocks. -/
structure Counting (L c : UInt64) (k : ℕ) (f : Fifo) : Prop where
  sample : f.board.ulSampleLength = L
  ready : f.board.ucIsReady = decide (k < callsOf (rest L c))
  total : f.ulTotalLen = counted L c k

/-- The difference does not wrap any further than it had at the start. -/
theorem remaining_of_counting {L c : UInt64} {k : ℕ} {f : Fifo} (h : Counting L c k f)
    (hk : k < callsOf (rest L c)) : f.remaining.toNat = rest L c - 65536 * k := by
  have hle := callsOf_mul_le (rest L c)
  have hlt : rest L c < 2 ^ 64 := (L - c).toNat_lt
  have hnat : (UInt64.ofNat (65536 * k)).toNat = 65536 * k := by
    rw [UInt64.toNat_ofNat', Nat.mod_eq_of_lt (by omega)]
  have hsub : L - (c + UInt64.ofNat (65536 * k)) = L - c - UInt64.ofNat (65536 * k) := by
    rw [UInt64.sub_eq_iff_eq_add, UInt64.add_comm c, ← UInt64.add_assoc, UInt64.sub_add_cancel,
      UInt64.sub_add_cancel]
  rw [Fifo.remaining, h.sample, h.total, counted, if_pos hk, hsub, UInt64.toNat_sub_of_le, hnat]
  · rfl
  · rw [UInt64.le_iff_toNat_le, hnat]
    change _ ≤ rest L c
    omega

theorem counted_succ {L c : UInt64} {k : ℕ} (h : k + 1 < callsOf (rest L c)) :
    counted L c k + bramSize = counted L c (k + 1) := by
  rw [counted, counted, if_pos (by omega), if_pos h, Nat.mul_add, UInt64.ofNat_add,
    ← UInt64.add_assoc]
  rfl

/-- A full block is counted. -/
theorem counting_full {L c : UInt64} {k : ℕ} {f : Fifo} (h : Counting L c k f)
    (hmore : k + 1 < callsOf (rest L c)) :
    Counting L c (k + 1) ⟨f.board, f.ulTotalLen + bramSize⟩ := by
  have hk : k < callsOf (rest L c) := by omega
  have hnext : f.ulTotalLen + bramSize = counted L c (k + 1) := by
    rw [h.total, counted_succ hmore]
  exact ⟨h.sample, by rw [h.ready, decide_eq_true hk, decide_eq_true hmore], hnext⟩

/-- The last block ends the acquisition, and the counter starts over. -/
theorem counting_last {L c : UInt64} {k : ℕ} {f : Fifo} (h : Counting L c k f)
    (hdone : ¬ k + 1 < callsOf (rest L c)) :
    Counting L c (k + 1) ⟨{ f.board with ucIsReady := false }, 0⟩ := by
  have hnext : 0 = counted L c (k + 1) := by rw [counted, if_neg hdone]
  exact ⟨h.sample, (decide_eq_false hdone).symm, hnext⟩

/-- One call of `DeliverData` from the main loop delivers a block of the rest. -/
theorem counting_step {L c : UInt64} {k : ℕ} {f : Fifo} (h : Counting L c k f) (m : Bram) :
    let r := if f.board.ucIsReady then deliverData f (blockAt k m) else (f, [])
    Counting L c (k + 1) r.1 ∧ r.2.flatMap Io.bytes = blockOf (rest L c) (k + 1) m := by
  have hsize : bramSize.toNat = 65536 := rfl
  dsimp only
  rw [h.ready]
  by_cases hk : k < callsOf (rest L c)
  · have hrem := remaining_of_counting h hk
    have hlast : f.remaining ≤ bramSize ↔ ¬ k + 1 < callsOf (rest L c) := by
      rw [lt_callsOf_iff, UInt64.le_iff_toNat_le, hrem, hsize]
      omega
    rw [decide_eq_true hk, if_pos rfl, deliverData_eq]
    refine ⟨?_, ?_⟩
    · split
      · rename_i hle
        exact counting_last h (hlast.mp hle)
      · rename_i hle
        refine counting_full h ?_
        by_contra hge
        exact hle (hlast.mpr hge)
    · rw [sendsOf_bytes, blockOf, Nat.add_sub_cancel]
      change window (blockAt k m) 0 _ = window (blockAt k m) 0 _
      congr 1
      split
      · rename_i hle
        rw [UInt64.le_iff_toNat_le, hrem, hsize] at hle
        omega
      · rename_i hle
        rw [UInt64.le_iff_toNat_le, hrem, hsize] at hle
        omega
  · have hdone : ¬ k + 1 < callsOf (rest L c) := by omega
    rw [decide_eq_false hk, if_neg (by simp)]
    refine ⟨⟨h.sample, ?_, ?_⟩, ?_⟩
    · rw [h.ready, decide_eq_false hk, decide_eq_false hdone]
    · rw [h.total, counted, counted, if_neg hk, if_neg hdone]
    · rw [blockOf_done (le_of_callsOf_le (Nat.not_lt.mp hk))]
      rfl

/-- The calls of `DeliverData` deliver the rest, as if it were the sample length. -/
theorem fifoCalls_eq {L c : UInt64} {k : ℕ} {f : Fifo} (h : Counting L c k f) (ms : List Bram) :
    Counting L c (k + ms.length) (fifoCalls f k ms).1 ∧
      (fifoCalls f k ms).2 = delivered (rest L c) k ms := by
  induction ms generalizing f k with
  | nil => exact ⟨h, rfl⟩
  | cons m ms ih =>
    obtain ⟨hnext, hbytes⟩ := counting_step h m
    obtain ⟨hlast, hrest⟩ := ih hnext
    refine ⟨?_, ?_⟩
    · rw [List.length_cons, Nat.add_comm ms.length, ← Nat.add_assoc]
      exact hlast
    · rw [fifoCalls, delivered, ← hrest, ← hbytes, ← hnext.ready]

/-! ### When two sample lengths look the same -/

theorem total_delivered (S k : ℕ) (ms : List Bram) :
    (outcome (delivered S k ms)).sent.length = min (S - 65536 * k) (65536 * ms.length) := by
  induction ms generalizing k with
  | nil => simp [delivered, outcome]
  | cons m ms ih =>
    have hcons : (outcome (delivered S k (m :: ms))).sent =
        blockOf S (k + 1) m ++ (outcome (delivered S (k + 1) ms)).sent := rfl
    rw [hcons, List.length_append, length_blockOf, ih, List.length_cons]
    omega

/-- An acquisition ends within its blocks exactly if they are enough. -/
theorem ready_delivered (S k : ℕ) (ms : List Bram) :
    false ∈ (outcome (delivered S k ms)).ready ↔ callsOf S ≤ k + ms.length ∧ ms ≠ [] := by
  induction ms generalizing k with
  | nil => simp [delivered, outcome]
  | cons m ms ih =>
    have hcons : (outcome (delivered S k (m :: ms))).ready =
        decide (k + 1 < callsOf S) :: (outcome (delivered S (k + 1) ms)).ready := rfl
    rw [hcons, List.mem_cons, ih, List.length_cons, eq_comm, decide_eq_false_iff_not]
    constructor
    · rintro (h | ⟨h, -⟩)
      · exact ⟨by omega, List.cons_ne_nil m ms⟩
      · exact ⟨by omega, List.cons_ne_nil m ms⟩
    · rintro ⟨h, -⟩
      cases ms with
      | nil =>
        rw [List.length_nil] at h
        exact Or.inl (by omega)
      | cons m' ms => exact Or.inr ⟨by omega, List.cons_ne_nil m' ms⟩

/-- Before the end every block is a full one. -/
theorem delivered_running {S T k : ℕ} {ms : List Bram} (hS : k + ms.length < callsOf S)
    (hT : k + ms.length < callsOf T) : delivered S k ms = delivered T k ms := by
  induction ms generalizing k with
  | nil => rfl
  | cons m ms ih =>
    rw [List.length_cons] at hS hT
    have hS' : k + 1 < callsOf S := by omega
    have hT' : k + 1 < callsOf T := by omega
    have hS'' := lt_callsOf_iff.mp hS'
    have hT'' := lt_callsOf_iff.mp hT'
    rw [delivered, delivered, ih (by omega) (by omega), decide_eq_true hS', decide_eq_true hT',
      blockOf, blockOf]
    have hmin : min 65536 (S - 65536 * (k + 1 - 1)) = min 65536 (T - 65536 * (k + 1 - 1)) := by
      omega
    rw [hmin]

/-- Two sample lengths look the same over some blocks exactly if they are the same or neither is at
    its end. -/
theorem outcome_delivered_iff {S T : ℕ} {ms : List Bram} :
    outcome (delivered S 0 ms) = outcome (delivered T 0 ms) ↔
      S = T ∨ ms.length < callsOf S ∧ ms.length < callsOf T := by
  constructor
  · intro h
    have hready : callsOf S ≤ ms.length ∧ ms ≠ [] ↔ callsOf T ≤ ms.length ∧ ms ≠ [] := by
      have hS := ready_delivered S 0 ms
      have hT := ready_delivered T 0 ms
      rw [h, hT] at hS
      simpa using hS.symm
    have hsent := congrArg (fun o => o.sent.length) h
    simp only [total_delivered] at hsent
    have hpos : 0 < callsOf S ∧ 0 < callsOf T := by
      unfold callsOf
      omega
    have hne : ∀ n, 0 < n → n ≤ ms.length → ms ≠ [] := by
      rintro n hn hle rfl
      rw [List.length_nil] at hle
      omega
    by_cases hS : callsOf S ≤ ms.length
    · have hT := (hready.mp ⟨hS, hne _ hpos.1 hS⟩).1
      have hS' := le_of_callsOf_le hS
      have hT' := le_of_callsOf_le hT
      omega
    · by_cases hT : callsOf T ≤ ms.length
      · exact absurd (hready.mpr ⟨hT, hne _ hpos.2 hT⟩).1 hS
      · omega
  · rintro (rfl | ⟨hS, hT⟩)
    · rfl
    · rw [delivered_running (T := T) (by omega) (by omega)]

/-! ### Histories -/

/-- Whether `DeliverData` is noticed in the acquisition `a` when its counter starts at `c`. It is not
    if the counter is 0, and not if the acquisition stops short of both its own end and the end that
    `DeliverData` is heading for. -/
def Unnoticed (c : UInt64) (a : Acq) : Prop :=
  c = 0 ∨ a.blocks.length < callsOf a.p.sampleLength.toNat ∧
    a.blocks.length < callsOf (rest a.p.sampleLength c)

instance (c : UInt64) (a : Acq) : Decidable (Unnoticed c a) := inferInstanceAs (Decidable (_ ∨ _))

/-- Every acquisition of a history is one where `DeliverData` is not noticed, its counter being `c`
    at first and carried on from one acquisition to the next. -/
def Settled (c : UInt64) : List Acq → Prop
  | [] => True
  | a :: as => Unnoticed c a ∧ Settled (counted a.p.sampleLength c a.blocks.length) as

instance decidableSettled : (c : UInt64) → (as : List Acq) → Decidable (Settled c as)
  | _, [] => isTrue trivial
  | c, a :: as =>
    have := decidableSettled (counted a.p.sampleLength c a.blocks.length) as
    inferInstanceAs (Decidable (_ ∧ _))

theorem rest_eq_iff {L c : UInt64} : L.toNat = rest L c ↔ c = 0 := by
  rw [rest, UInt64.toNat_inj]
  constructor
  · intro h
    have hadd : L - c + c = L := UInt64.sub_add_cancel L c
    rw [← h] at hadd
    simpa using hadd
  · rintro rfl
    simp

/-- What both programs have behind the start interrupt in PC mode. -/
theorem start_ok {b c : Board} {a : Acq} (hpc : a.p.savePosition ≠ 0) (h : start b a = .ok c) :
    c.uiSavePC ≠ 0 ∧ c.ucIsReady = true ∧ c.ulSampleLength = a.p.sampleLength ∧
      Progress c [] ⟨c, []⟩ := by
  obtain ⟨d, hd, hirq⟩ := bind_eq_ok.mp h
  obtain ⟨csr, prbs, ram, rfl⟩ := acqStart_ok hd
  obtain ⟨hready, -, -, hlen, hsave, -⟩ := mesgThread_ok hirq
  refine ⟨?_, hready, hlen, (progress_start hirq).1⟩
  rw [hsave]
  exact fun h0 => hpc (toUInt32_eq_zero.mp h0)

/-- One acquisition in both programs: one delivers its sample length, the other the rest that its
    counter leaves. -/
theorem acquire_ok {s t : Paths} {a : Acq} (hpc : a.p.savePosition ≠ 0)
    (h : acquire s a = .ok t) :
    t.fifo.ulTotalLen = counted a.p.sampleLength s.fifo.ulTotalLen a.blocks.length ∧
    t.mmapOut = s.mmapOut ++ [outcome (delivered a.p.sampleLength.toNat 0 a.blocks)] ∧
    t.fifoOut =
      s.fifoOut ++ [outcome (delivered (rest a.p.sampleLength s.fifo.ulTotalLen) 0 a.blocks)] := by
  obtain ⟨b, hb, h⟩ := bind_eq_ok.mp h
  obtain ⟨⟨b', out⟩, hout, h⟩ := bind_eq_ok.mp h
  obtain ⟨c, hc, h⟩ := bind_eq_ok.mp h
  obtain rfl := pure_eq_ok.mp h
  obtain ⟨hbpc, -, hblen, hprog⟩ := start_ok hpc hb
  obtain ⟨-, hcready, hclen, -⟩ := start_ok hpc hc
  obtain ⟨b'', hmmap⟩ := mmapCalls_eq hbpc hprog a.blocks
  obtain ⟨-, rfl⟩ := Prod.mk.inj (Except.ok.inj (hout.symm.trans hmmap))
  have hpos : 0 < callsOf (rest a.p.sampleLength s.fifo.ulTotalLen) := by
    unfold callsOf
    omega
  have hcount : Counting a.p.sampleLength s.fifo.ulTotalLen 0 ⟨c, s.fifo.ulTotalLen⟩ := by
    refine ⟨hclen, ?_, ?_⟩
    · rw [hcready, decide_eq_true hpos]
    · rw [counted, if_pos hpos]
      simp
  obtain ⟨hlast, hseen⟩ := fifoCalls_eq hcount a.blocks
  rw [Nat.zero_add] at hlast
  refine ⟨hlast.total, ?_, ?_⟩
  · rw [← hblen]
    rfl
  · rw [← hseen]

/-- In PC mode an acquisition runs through for every profile in bounds. -/
theorem start_returns {a : Acq} (hpc : a.p.savePosition ≠ 0)
    (hbounds : ∀ dir, InBounds (a.p.dataDirectory.getD dir) a.p) (b : Board) :
    ∃ c, start b a = .ok c := by
  refine bind_returns ?_ ?_
  · rw [acqStart_eq]
    exact bind_returns (configuration_returns (hbounds _) _ _) fun _ _ => ⟨_, rfl⟩
  · intro c hc
    obtain ⟨csr, prbs, ram, rfl⟩ := acqStart_ok hc
    exact ⟨_, mesgFile_pc fun h0 => hpc (toUInt32_eq_zero.mp h0)⟩

theorem acquire_returns {a : Acq} (hpc : a.p.savePosition ≠ 0)
    (hbounds : ∀ dir, InBounds (a.p.dataDirectory.getD dir) a.p) (s : Paths) :
    ∃ t, acquire s a = .ok t := by
  refine bind_returns (start_returns hpc hbounds s.mmap) fun b hb => ?_
  obtain ⟨hbpc, -, -, hprog⟩ := start_ok hpc hb
  obtain ⟨c, hc⟩ := mmapCalls_eq hbpc hprog a.blocks
  refine bind_returns ⟨_, hc⟩ fun _ _ => ?_
  exact bind_returns (start_returns hpc hbounds s.fifo.board) fun _ _ => ⟨_, rfl⟩

theorem history_returns {as : List Acq} (hpc : ∀ a ∈ as, a.p.savePosition ≠ 0)
    (hbounds : ∀ a ∈ as, ∀ dir, InBounds (a.p.dataDirectory.getD dir) a.p) (s : Paths) :
    ∃ t, run acquire s as = .ok t := by
  induction as generalizing s with
  | nil => exact ⟨s, rfl⟩
  | cons a as ih =>
    refine bind_returns
      (acquire_returns (hpc a List.mem_cons_self) (hbounds a List.mem_cons_self) s) fun u _ => ?_
    exact ih (fun d hd => hpc d (List.mem_cons_of_mem _ hd))
      (fun d hd => hbounds d (List.mem_cons_of_mem _ hd)) u

/-- The outcomes stay the same over a history exactly if it is settled. -/
theorem sameOut_iff {as : List Acq} (hpc : ∀ a ∈ as, a.p.savePosition ≠ 0) {s t : Paths}
    (h : run acquire s as = .ok t) :
    t.fifoOut = t.mmapOut ↔ s.fifoOut = s.mmapOut ∧ Settled s.fifo.ulTotalLen as := by
  induction as generalizing s with
  | nil =>
    obtain rfl : s = t := by simpa using h
    exact (and_iff_left trivial).symm
  | cons a as ih =>
    obtain ⟨u, hu, hrun⟩ := run_cons_ok.mp h
    obtain ⟨htotal, hmmap, hfifo⟩ := acquire_ok (hpc a List.mem_cons_self) hu
    have hsame : u.fifoOut = u.mmapOut ↔
        s.fifoOut = s.mmapOut ∧ Unnoticed s.fifo.ulTotalLen a := by
      rw [hmmap, hfifo, Unnoticed, ← rest_eq_iff, ← outcome_delivered_iff]
      constructor
      · intro hcat
        obtain ⟨hbefore, hlast⟩ := List.append_inj' hcat rfl
        exact ⟨hbefore, (List.singleton_inj.mp hlast).symm⟩
      · rintro ⟨hbefore, hlast⟩
        rw [hbefore, hlast]
    rw [ih (fun d hd => hpc d (List.mem_cons_of_mem _ hd)) hrun, hsame, htotal, and_assoc]
    rfl

/-- CORRECT (the two ways to deliver): over any history of acquisitions in PC mode, complete or
    stopped after any number of blocks, `DeliverData` sends the bytes of `DeliverData_s` and ends
    each acquisition with the same block, exactly if the history is settled. -/
theorem fifo_refines_iff {b : Board} {as : List Acq} (hpc : ∀ a ∈ as, a.p.savePosition ≠ 0)
    {t : Paths} (h : run acquire ⟨b, ⟨b, 0⟩, [], []⟩ as = .ok t) :
    t.fifoOut = t.mmapOut ↔ Settled 0 as := by
  rw [sameOut_iff hpc h]
  exact and_iff_right rfl

/-- A history in which every acquisition that got a block ran to its end is settled. -/
theorem settled_of_complete {as : List Acq}
    (h : ∀ a ∈ as, a.blocks = [] ∨ callsOf a.p.sampleLength.toNat ≤ a.blocks.length) :
    Settled 0 as := by
  induction as with
  | nil => trivial
  | cons a as ih =>
    have hzero : counted a.p.sampleLength 0 a.blocks.length = 0 := by
      rw [counted, ← rest_eq_iff.mpr rfl]
      rcases h a List.mem_cons_self with hnil | hdone
      · rw [hnil]
        split <;> simp
      · rw [if_neg (by omega)]
    refine ⟨Or.inl rfl, ?_⟩
    rw [hzero]
    exact ih fun d hd => h d (List.mem_cons_of_mem _ hd)

/-- An acquisition of `p` with `n` cleared blocks, ended by `AcqStop`. -/
def benchAcq (p : Profile) (n : ℕ) : Acq where
  p := p
  uiSeconds := 5
  bitBuff := fun _ => 0
  irqSeconds := 7
  fopenOk := true
  blocks := List.replicate n zeroBram
  stop := true

theorem inBounds_bench (dir : DataDir) (w : Int32) :
    InBounds (benchProfile.dataDirectory.getD dir) { benchProfile with impulseWidth := w } := by
  have hperiod : benchProfile.sequenceLength ≠ 31 := by decide
  exact ⟨by simp [benchProfile, ascii],
    show 0 ≤ benchProfile.adcSamplingRates.toInt ∧ benchProfile.adcSamplingRates.toInt ≤ 5 by decide,
    Or.inl (show benchProfile.sequenceLength.toUInt32.toNat ≤ 11 by decide),
    fun h => hperiod h.1⟩

/-- Five blocks to the end of the first acquisition, one to the end of the second. -/
theorem fifo_refines_complete :
    ∃ t, run acquire ⟨benchBoard, ⟨benchBoard, 0⟩, [], []⟩
      [benchAcq benchProfile 5, benchAcq shortProfile 1] = .ok t ∧ t.fifoOut = t.mmapOut := by
  have hpc : ∀ a ∈ [benchAcq benchProfile 5, benchAcq shortProfile 1],
      a.p.savePosition ≠ 0 := by decide
  have hbounds : ∀ a ∈ [benchAcq benchProfile 5, benchAcq shortProfile 1], ∀ dir,
      InBounds (a.p.dataDirectory.getD dir) a.p := by
    simp only [List.forall_mem_cons, List.not_mem_nil, false_implies, implies_true, and_true]
    exact ⟨fun dir => inBounds_bench dir 1000000, fun dir => inBounds_bench dir 13⟩
  have hcomplete : ∀ a ∈ [benchAcq benchProfile 5, benchAcq shortProfile 1],
      a.blocks = [] ∨ callsOf a.p.sampleLength.toNat ≤ a.blocks.length := by
    simp only [List.forall_mem_cons, List.not_mem_nil, false_implies, implies_true, and_true]
    exact ⟨Or.inr (by decide), Or.inr (by decide)⟩
  obtain ⟨t, ht⟩ := history_returns hpc hbounds ⟨benchBoard, ⟨benchBoard, 0⟩, [], []⟩
  exact ⟨t, ht, (fifo_refines_iff hpc ht).mpr (settled_of_complete hcomplete)⟩

/-- One block of the first acquisition, then `AcqStop`: of the four bytes of the second one,
    `DeliverData` makes a full block, and waits for more. -/
theorem fifo_diverges : ¬ ∀ (b : Board) (as : List Acq) (t : Paths),
    (∀ a ∈ as, a.p.savePosition ≠ 0) → run acquire ⟨b, ⟨b, 0⟩, [], []⟩ as = .ok t →
    t.fifoOut = t.mmapOut := by
  intro h
  have hpc : ∀ a ∈ [benchAcq benchProfile 1, benchAcq shortProfile 1],
      a.p.savePosition ≠ 0 := by decide
  have hbounds : ∀ a ∈ [benchAcq benchProfile 1, benchAcq shortProfile 1], ∀ dir,
      InBounds (a.p.dataDirectory.getD dir) a.p := by
    simp only [List.forall_mem_cons, List.not_mem_nil, false_implies, implies_true, and_true]
    exact ⟨fun dir => inBounds_bench dir 1000000, fun dir => inBounds_bench dir 13⟩
  obtain ⟨t, ht⟩ := history_returns hpc hbounds ⟨benchBoard, ⟨benchBoard, 0⟩, [], []⟩
  have hsettled := ((sameOut_iff hpc ht).mp (h _ _ t hpc ht)).2
  exact absurd hsettled (by decide)

end AcqBoard.App
