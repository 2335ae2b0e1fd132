import AcqBoard.Driver.Transfer
import Mathlib.Data.List.Basic
import Mathlib.Data.List.Nodup

/-! Reads and writes of `xfifo_dma` by any number of processes, with the data they carry.

    A call fills or programs its DMA buffer in its mutex section, sleeps, and goes by the shared fields
    of the device when it wakes. Here every call has its own file position, size and user buffer; the
    DMA buffers have contents, and so have the transfers. The mutex section is one step, and so is all
    that a call does behind its wait: `copy_to_user`, `free_dma`, `dma_free_coherent` and the return,
    which no lock covers. As long as nobody gets past the mutex while another call sleeps, and nobody is
    woken by a signal, these steps do what the calls would do one after the other (`traffic_serial`).
    Which addresses the allocator gives out does not matter for this. -/

namespace AcqBoard.Driver
open Schemes

/-- One call of `xfifo_dma_read` or `xfifo_dma_write`: its position, its size, the user's buffer. -/
structure DmaCall where
  mode : DmaMode
  fPos : Int64
  count : UInt32
  user : ℕ → UInt8

/-- `copy_from_user` into `n` bytes; what it could not copy is cleared. -/
def copyFromUser (user : ℕ → UInt8) (n notCopied : ℕ) : List UInt8 :=
  (List.range n).map fun i => if i < n - notCopied then user i else 0

/-- `writes` counts the calls of `xfifo_dma_write`. -/
def DmaCall.counted (c : DmaCall) (x : Xfifo) : Xfifo :=
  match c.mode with
  | .read => x
  | .write => { x with writes := x.writes + 1 }

/-- The call when it is alone. -/
def DmaCall.alone (c : DmaCall) (x : Xfifo) (e : Answers) : Outcome :=
  match c.mode with
  | .read => xfifoDmaRead x c.fPos c.user c.count e
  | .write => xfifoDmaWrite x c.fPos c.user c.count e

/-- What reaches the device when the call is alone; of a transfer with a fault nothing is known. -/
def DmaCall.sends (c : DmaCall) (x : Xfifo) (e : Answers) : List (List UInt8) :=
  if c.mode = .write ∧ e.Granted ∧ e.ending = .done then
    [copyFromUser c.user (x.transferSize c.count) e.notCopied]
  else []

/-- Where a call stands; a call that has returned has a result and left the user's buffer in a state. -/
inductive CallPhase where
  | idle
  | waiting (d : Dma)
  | returned (ret : Int32) (user : ℕ → UInt8)

/-- The device, its memory and its calls. -/
structure Traffic (ι : Type) where
  dev : Xfifo
  memory : UInt32 → ℕ → UInt8   -- the DMA buffers, by their bus addresses
  running : Option (ι × Dma)    -- the transfer under way, and whose it is
  calls : ι → CallPhase
  answers : ι → Answers         -- what each call was answered, so far
  order : List ι                -- the calls in the order of their returns
  programmed : List Dma
  sent : List (List UInt8)      -- what the device got

/-- Nothing has been answered. -/
def noAnswers : Answers := ⟨false, ⟨0, 0⟩, false, .signal, fun _ => 0, 0⟩

def Traffic.init {ι : Type} (x : Xfifo) : Traffic ι where
  dev := x
  memory := fun _ _ => 0
  running := none
  calls := fun _ => .idle
  answers := fun _ => noAnswers
  order := []
  programmed := []
  sent := []

inductive TrafficLabel (ι : Type) where
  | interrupted (i : ι)                                                      -- no mutex
  | enter (i : ι) (buffer : DmaBuffer) (requestOk : Bool) (notCopied : ℕ)    -- the mutex section
  | callback (fault : Bool) (data : ℕ → UInt8)       -- `data`: what a read finds in its DMA buffer
  | wake (i : ι) (signal : Bool) (notCopied : ℕ)     -- the end of the wait, and all behind it

variable {ι : Type} [DecidableEq ι]

def Traffic.answer (s : Traffic ι) (i : ι) (e : Answers) : ι → Answers :=
  Function.update s.answers i e

def Traffic.ret (s : Traffic ι) (i : ι) (p : CallPhase) : ι → CallPhase := Function.update s.calls i p

/-- The contents of the DMA buffer behind `copy_from_user`. -/
def written (bytes : List UInt8) (memory : ℕ → UInt8) : ℕ → UInt8 :=
  fun k => bytes.getD k (memory k)

/-- The mutex section, when the mutex is there. -/
def Traffic.enter (s : Traffic ι) (c : DmaCall) (i : ι) (e : Answers) : Traffic ι :=
  match (c.counted s.dev).setup c.mode c.fPos c.count e with
  | (x, .error retval) =>
    { s with
      dev := x
      calls := s.ret i (.returned retval c.user)
      answers := s.answer i e
      order := s.order ++ [i] }
  | (x, .ok d) =>
    let bytes := copyFromUser c.user d.dmaCount e.notCopied
    { s with
      dev := x
      memory := if c.mode = .write then
          Function.update s.memory d.dmaAddr (written bytes (s.memory d.dmaAddr))
        else s.memory
      running := some (i, d)
      calls := s.ret i (.waiting d)
      answers := s.answer i e
      programmed := s.programmed ++ [d] }

/-- A transfer ends: a read has filled the buffer, a write that is done has brought it to the device. -/
def Traffic.callback (s : Traffic ι) (i : ι) (d : Dma) (fault : Bool) (data : ℕ → UInt8) : Traffic ι :=
  let ending := if fault then .fault else .done
  { s with
    dev := s.dev.wait ending
    memory := if d.mode = .read then Function.update s.memory d.dmaAddr data else s.memory
    running := none
    answers := s.answer i { s.answers i with ending := ending, data := data }
    sent := if d.mode = .write ∧ fault = false then
        s.sent ++ [(List.range d.dmaCount).map (s.memory d.dmaAddr)]
      else s.sent }

/-- What a call does behind its wait. -/
def Traffic.finish (s : Traffic ι) (c : DmaCall) (i : ι) (d : Dma) (notCopied : ℕ) : Traffic ι :=
  let s' : Traffic ι := { s with dev := { s.dev with channel := false }, order := s.order ++ [i] }
  match c.mode with
  | .read =>
    let data := s.memory s.dev.buffer.dAddr
    { s' with
      calls := s.ret i (.returned (Int32.ofNat d.dmaCount)
        (copyToUser c.user data d.dmaCount notCopied))
      answers := s.answer i { s.answers i with notCopied := notCopied } }
  | .write => { s' with calls := s.ret i (.returned (Int32.ofNat d.dmaCount) c.user) }

def trafficStep (req : ι → DmaCall) (s : Traffic ι) : TrafficLabel ι → Except (Stuck Empty) (Traffic ι)
  | .interrupted i =>
    match s.calls i with
    | .idle => pure
      { s with
        calls := s.ret i (.returned (-4) (req i).user)
        order := s.order ++ [i] }
    | _ => .error .disabled
  | .enter i buffer requestOk notCopied =>
    match s.calls i with
    | .idle => enabled (requestOk = true → s.dev.channel = false) <|
      pure (s.enter (req i) i { noAnswers with locked := true, buffer, requestOk, notCopied })
    | _ => .error .disabled
  | .callback fault data =>
    match s.running with
    | some (i, d) => pure (s.callback i d fault data)
    | none => .error .disabled
  | .wake i signal notCopied =>
    match s.calls i with
    | .waiting d => enabled (signal = true ∨ s.dev.busy = false) <|
      pure (s.finish (req i) i d notCopied)
    | _ => .error .disabled

/-- A call gets past the mutex only while the channel is free, and a wait ends with the transfer. -/
def Calm (s : Traffic ι) : TrafficLabel ι → Prop
  | .enter .. => s.dev.channel = false
  | .wake .. => s.dev.busy = false
  | _ => True

instance (s : Traffic ι) : (l : TrafficLabel ι) → Decidable (Calm s l)
  | .interrupted _ => isTrue trivial
  | .enter .. => inferInstanceAs (Decidable (_ = _))
  | .callback .. => isTrue trivial
  | .wake .. => inferInstanceAs (Decidable (_ = _))

/-! ### One call after the other -/

/-- What the calls have done. -/
structure Served (ι : Type) where
  dev : Xfifo
  calls : ι → CallPhase
  programmed : List Dma
  sent : List (List UInt8)

def Served.init {ι : Type} (x : Xfifo) : Served ι := ⟨x, fun _ => .idle, [], []⟩

/-- One more call, from its entry to its exit. -/
def serve (req : ι → DmaCall) (answers : ι → Answers) (s : Served ι) (i : ι) : Served ι :=
  let o := (req i).alone s.dev (answers i)
  { dev := o.dev
    calls := Function.update s.calls i (.returned o.ret o.user)
    programmed := s.programmed ++ o.programmed.toList
    sent := s.sent ++ (req i).sends s.dev (answers i) }

/-! ### A call alone, by its mutex section -/

/-- The user's buffer behind a transfer. -/
def DmaCall.result (c : DmaCall) (data : ℕ → UInt8) (n notCopied : ℕ) : ℕ → UInt8 :=
  match c.mode with
  | .read => copyToUser c.user data n notCopied
  | .write => c.user

section
variable {c : DmaCall} {x y : Xfifo} {e : Answers} {d : Dma} {r : Int32}

theorem alone_interrupted (h : e.locked = false) : c.alone x e = ⟨x, -4, c.user, none⟩ := by
  cases hm : c.mode with
  | read => simp only [DmaCall.alone, hm, xfifoDmaRead, if_pos h]
  | write => simp only [DmaCall.alone, hm, xfifoDmaWrite, if_pos h]

theorem alone_error (hl : e.locked = true)
    (h : (c.counted x).setup c.mode c.fPos c.count e = (y, .error r)) :
    c.alone x e = ⟨y, r, c.user, none⟩ := by
  have hlocked : ¬ e.locked = false := by rw [hl]; decide
  cases hm : c.mode with
  | read =>
    simp only [DmaCall.counted, hm] at h
    simp only [DmaCall.alone, hm, xfifoDmaRead, if_neg hlocked, h]
  | write =>
    simp only [DmaCall.counted, hm] at h
    simp only [DmaCall.alone, hm, xfifoDmaWrite, if_neg hlocked, h]

theorem alone_ok (hl : e.locked = true)
    (h : (c.counted x).setup c.mode c.fPos c.count e = (y, .ok d)) :
    c.alone x e = ⟨{ y.wait e.ending with channel := false }, Int32.ofNat d.dmaCount,
      c.result e.data d.dmaCount e.notCopied, some d⟩ := by
  have hlocked : ¬ e.locked = false := by rw [hl]; decide
  cases hm : c.mode with
  | read =>
    simp only [DmaCall.counted, hm] at h
    simp only [DmaCall.alone, hm, xfifoDmaRead, if_neg hlocked, h, DmaCall.result]
  | write =>
    simp only [DmaCall.counted, hm] at h
    simp only [DmaCall.alone, hm, xfifoDmaWrite, if_neg hlocked, h, DmaCall.result]

theorem setup_error {mode : DmaMode} {fPos : Int64} {count : UInt32}
    (h : x.setup mode fPos count e = (y, .error r)) : ¬ e.Granted ∧ y.channel = x.channel := by
  unfold Xfifo.setup at h
  dsimp only at h
  split at h
  · rename_i hb
    obtain ⟨rfl, -⟩ := Prod.mk.inj h
    exact ⟨fun he => he.2.1 hb, rfl⟩
  · split at h
    · rename_i hr
      obtain ⟨rfl, -⟩ := Prod.mk.inj h
      refine ⟨fun he => ?_, rfl⟩
      rw [he.2.2] at hr
      cases hr
    · cases (Prod.mk.inj h).2

/-- The transfer that a mutex section programs, and how it leaves the device. -/
structure Programmed (x y : Xfifo) (mode : DmaMode) (count : UInt32) (e : Answers) (d : Dma) : Prop where
  notNull : e.buffer.vAddr ≠ 0
  requestOk : e.requestOk = true
  busy : y.busy = true
  channel : y.channel = true
  buffer : y.buffer = e.buffer
  dmaMode : d.mode = mode
  dmaAddr : d.dmaAddr = e.buffer.dAddr
  dmaCount : d.dmaCount = x.transferSize count

theorem setup_ok {mode : DmaMode} {fPos : Int64} {count : UInt32}
    (h : x.setup mode fPos count e = (y, .ok d)) : Programmed x y mode count e d := by
  unfold Xfifo.setup at h
  dsimp only at h
  split at h
  · cases (Prod.mk.inj h).2
  · rename_i hb
    split at h
    · cases (Prod.mk.inj h).2
    · rename_i hr
      obtain ⟨rfl, hd⟩ := Prod.mk.inj h
      obtain rfl := Except.ok.inj hd
      exact ⟨hb, eq_true_of_ne_false hr, rfl, rfl, rfl, rfl, rfl, rfl⟩

theorem setup_congr {e' : Answers} (hb : e'.buffer = e.buffer) (hr : e'.requestOk = e.requestOk)
    (x : Xfifo) (mode : DmaMode) (fPos : Int64) (count : UInt32) :
    x.setup mode fPos count e' = x.setup mode fPos count e := by
  unfold Xfifo.setup
  rw [hb, hr]

theorem transferSize_counted : (c.counted x).transferSize c.count = x.transferSize c.count := by
  unfold DmaCall.counted
  split
  · rfl
  · rfl

end

/-! ### Undisturbed runs -/

section
variable (req : ι → DmaCall) (x : Xfifo)

/-- The calls that have returned, one after the other. -/
def Traffic.served (s : Traffic ι) : Served ι := s.order.foldl (serve req s.answers) (.init x)

/-- The calls in the order have returned, each once, and a call that has not begun has no answers. -/
structure Orderly (order : List ι) (calls : ι → CallPhase) (answers : ι → Answers) : Prop where
  nodup : order.Nodup
  returned : ∀ i ∈ order, ∃ ret user, calls i = .returned ret user
  unanswered : ∀ i, calls i = .idle → (answers i).locked = false

/-- Nobody is at the device. -/
structure Still (s : Traffic ι) : Prop where
  served : s.served req x = ⟨s.dev, s.calls, s.programmed, s.sent⟩
  running : s.running = none
  calls : ∀ i d, s.calls i ≠ .waiting d
  channel : s.dev.channel = false

/-- The transfer of `i` is under way: a write has its bytes in the DMA buffer. -/
structure Armed (s : Traffic ι) (i : ι) (y : Xfifo) (d : Dma) : Prop where
  running : s.running = some (i, d)
  dev : s.dev = y
  sent : s.sent = (s.served req x).sent
  memory : (req i).mode = .write → (List.range d.dmaCount).map (s.memory d.dmaAddr) =
    copyFromUser (req i).user d.dmaCount (s.answers i).notCopied

/-- The transfer of `i` has ended: a read has its bytes in the DMA buffer. -/
structure Ended (s : Traffic ι) (i : ι) (y : Xfifo) (d : Dma) : Prop where
  running : s.running = none
  dev : s.dev = y.wait (s.answers i).ending
  sent : s.sent = (s.served req x).sent ++ (req i).sends (s.served req x).dev (s.answers i)
  memory : (req i).mode = .read → s.memory d.dmaAddr = (s.answers i).data

/-- The call `i`, and nobody else, sleeps with the transfer `d`; `y` is the device behind its mutex
    section. -/
structure Sleeping (s : Traffic ι) (i : ι) (y : Xfifo) (d : Dma) : Prop where
  locked : (s.answers i).locked = true
  setup : ((req i).counted (s.served req x).dev).setup (req i).mode (req i).fPos (req i).count
    (s.answers i) = (y, .ok d)
  calls : s.calls = Function.update (s.served req x).calls i (.waiting d)
  others : ∀ j d', s.calls j = .waiting d' → j = i
  programmed : s.programmed = (s.served req x).programmed ++ [d]
  phase : Armed req x s i y d ∨ Ended req x s i y d

structure Serial (s : Traffic ι) : Prop where
  orderly : Orderly s.order s.calls s.answers
  phase : Still req x s ∨ ∃ i y d, Sleeping req x s i y d

end

namespace Orderly
variable {order : List ι} {calls : ι → CallPhase} {answers : ι → Answers} {i : ι}

omit [DecidableEq ι] in
theorem notMem (h : Orderly order calls answers) (hi : ∀ ret user, calls i ≠ .returned ret user) :
    i ∉ order := by
  intro hmem
  obtain ⟨ret, user, hret⟩ := h.returned i hmem
  exact hi ret user hret

/-- A call that has not returned goes on. -/
theorem change (h : Orderly order calls answers) (hi : i ∉ order) {p : CallPhase} (hp : p ≠ .idle)
    (e : Answers) : Orderly order (Function.update calls i p) (Function.update answers i e) := by
  refine ⟨h.nodup, fun j hj => ?_, fun j hj => ?_⟩
  · have hne : j ≠ i := fun heq => hi (heq ▸ hj)
    rw [Function.update_of_ne hne]
    exact h.returned j hj
  · rcases eq_or_ne j i with rfl | hne
    · rw [Function.update_self] at hj
      exact absurd hj hp
    · rw [Function.update_of_ne hne] at hj ⊢
      exact h.unanswered j hj

/-- A call that has not returned returns. -/
theorem concat (h : Orderly order calls answers) (hi : i ∉ order) (ret : Int32) (user : ℕ → UInt8)
    (e : Answers) : Orderly (order ++ [i]) (Function.update calls i (.returned ret user))
      (Function.update answers i e) := by
  have hchange := h.change hi (p := .returned ret user) CallPhase.noConfusion e
  refine ⟨?_, ?_, hchange.unanswered⟩
  · exact List.nodup_append.mpr ⟨h.nodup, List.nodup_singleton i, by
      rintro j hj k hk rfl
      rw [List.mem_singleton] at hk
      exact hi (hk ▸ hj)⟩
  · intro j hj
    rcases List.mem_append.mp hj with hj | hj
    · exact hchange.returned j hj
    · rw [List.mem_singleton.mp hj]
      exact ⟨ret, user, Function.update_self _ _ _⟩

end Orderly

section
variable {req : ι → DmaCall} {x y : Xfifo} {s t : Traffic ι} {i : ι} {d : Dma}

/-- Once `i` has returned, the others sleep as before. -/
theorem returned_waiting {calls : ι → CallPhase} {j : ι} {ret : Int32} {user : ℕ → UInt8}
    (h : Function.update calls i (.returned ret user) j = .waiting d) : j ≠ i ∧ calls j = .waiting d := by
  rcases eq_or_ne j i with rfl | hne
  · rw [Function.update_self] at h
    cases h
  · rw [Function.update_of_ne hne] at h
    exact ⟨hne, h⟩

theorem sends_not_granted {c : DmaCall} {e : Answers} (h : ¬ e.Granted) (x : Xfifo) :
    c.sends x e = [] := if_neg fun hs => h hs.2.1

/-- Answers to a call that has not returned do not count. -/
theorem served_answer (hi : i ∉ s.order) (e : Answers) :
    s.order.foldl (serve req (s.answer i e)) (.init x) = s.served req x := by
  refine List.foldl_ext _ _ _ fun u j hj => ?_
  have hne : j ≠ i := fun h => hi (h ▸ hj)
  have hsame : s.answer i e j = s.answers j := Function.update_of_ne hne _ _
  rw [serve, serve, hsame]

/-- A call that returns is served next. -/
theorem served_concat (hi : i ∉ s.order) (e : Answers) :
    (s.order ++ [i]).foldl (serve req (s.answer i e)) (.init x) =
      serve req (s.answer i e) (s.served req x) i := by
  rw [List.foldl_append, served_answer hi, List.foldl_cons, List.foldl_nil]

theorem answer_self (e : Answers) : s.answer i e i = e := Function.update_self _ _ _

theorem answer_same : s.answer i (s.answers i) = s.answers := Function.update_eq_self _ _

theorem wait_channel (y : Xfifo) (ending : Ending) : (y.wait ending).channel = y.channel := by
  cases ending <;> rfl

theorem wait_buffer (y : Xfifo) (ending : Ending) : (y.wait ending).buffer = y.buffer := by
  cases ending <;> rfl

/-- While a call sleeps the channel is taken. -/
theorem Sleeping.channel (h : Sleeping req x s i y d) : s.dev.channel = true := by
  have hy := (setup_ok h.setup).channel
  rcases h.phase with ha | he
  · rw [ha.dev, hy]
  · rw [he.dev, wait_channel, hy]

theorem Serial.still (h : Serial req x s) (hc : s.dev.channel = false) : Still req x s := by
  rcases h.phase with hs | ⟨i, y, d, hs⟩
  · exact hs
  · rw [hs.channel] at hc
    cases hc

/-! ### Step by step -/

/-- A call that a signal keeps from the mutex has done nothing. -/
theorem serial_interrupted (h : Serial req x s) (hi : s.calls i = .idle) :
    Serial req x { s with
      calls := s.ret i (.returned (-4) (req i).user)
      order := s.order ++ [i] } := by
  have hmem : i ∉ s.order := h.orderly.notMem fun ret user hret => by rw [hi] at hret; cases hret
  have hlocked := h.orderly.unanswered i hi
  have hnot : ¬ (s.answers i).Granted := fun he => by rw [he.1] at hlocked; cases hlocked
  have hserved : (s.order ++ [i]).foldl (serve req s.answers) (.init x) =
      { s.served req x with
        calls := Function.update (s.served req x).calls i (.returned (-4) (req i).user) } := by
    have hnext : (s.order ++ [i]).foldl (serve req (s.answer i (s.answers i))) (.init x) =
        serve req (s.answer i (s.answers i)) (s.served req x) i := served_concat hmem _
    rw [answer_same] at hnext
    rw [hnext, serve, alone_interrupted hlocked, sends_not_granted hnot]
    simp
  have horder := h.orderly.concat hmem (-4) (req i).user (s.answers i)
  rw [show Function.update s.answers i (s.answers i) = s.answers from answer_same] at horder
  refine ⟨horder, ?_⟩
  rcases h.phase with hs | ⟨j, y, d, hs⟩
  · refine Or.inl ⟨?_, hs.running, ?_, hs.channel⟩
    · rw [Traffic.served]
      dsimp only
      rw [hserved, hs.served]
      rfl
    · exact fun j d hj => hs.calls j d (returned_waiting hj).2
  · have hji : j ≠ i := by
      rintro rfl
      rw [hs.calls, Function.update_self] at hi
      cases hi
    refine Or.inr ⟨j, y, d, hs.locked, ?_, ?_, ?_, ?_, ?_⟩
    · rw [Traffic.served, hserved]
      exact hs.setup
    · rw [Traffic.served, hserved]
      change Function.update s.calls i _ = _
      rw [hs.calls, Function.update_comm hji]
    · exact fun k d' hk => hs.others k d' (returned_waiting hk).2
    · rw [Traffic.served, hserved]
      exact hs.programmed
    · rcases hs.phase with ha | he
      · refine Or.inl ⟨ha.running, ha.dev, ?_, ha.memory⟩
        rw [Traffic.served, hserved]
        exact ha.sent
      · refine Or.inr ⟨he.running, he.dev, ?_, he.memory⟩
        rw [Traffic.served, hserved]
        exact he.sent

theorem written_bytes (bytes : List UInt8) (memory : ℕ → UInt8) :
    (List.range bytes.length).map (written bytes memory) = bytes := by
  refine List.ext_getElem (by simp) fun k hk hk' => ?_
  rw [List.getElem_map, List.getElem_range, written, List.getD_eq_getElem?_getD,
    List.getElem?_eq_getElem hk', Option.getD_some]

/-- A mutex section that finds the channel free. -/
theorem serial_enter (h : Serial req x s) (hc : s.dev.channel = false) (hi : s.calls i = .idle)
    {e : Answers} (hl : e.locked = true) : Serial req x (s.enter (req i) i e) := by
  have hs := h.still hc
  have hmem : i ∉ s.order := h.orderly.notMem fun ret user hret => by rw [hi] at hret; cases hret
  have hdev : (s.served req x).dev = s.dev := by rw [hs.served]
  have hcounted : ((req i).counted s.dev).channel = false := by
    unfold DmaCall.counted
    split
    · exact hc
    · exact hc
  unfold Traffic.enter
  split
  · -- refused: the call returns at once
    rename_i y retval hsetup
    obtain ⟨hnot, hchannel⟩ := setup_error hsetup
    refine ⟨h.orderly.concat hmem retval (req i).user e, Or.inl ⟨?_, hs.running, ?_, ?_⟩⟩
    · rw [Traffic.served]
      dsimp only
      rw [served_concat hmem, hs.served, serve, answer_self]
      dsimp only
      rw [alone_error hl hsetup, sends_not_granted hnot]
      simp [Traffic.ret]
    · exact fun j d hj => hs.calls j d (returned_waiting hj).2
    · exact hchannel.trans hcounted
  · -- granted: the call sleeps
    rename_i y d hsetup
    have hp := setup_ok hsetup
    have hserved : s.order.foldl (serve req (s.answer i e)) (.init x) = s.served req x :=
      served_answer hmem e
    refine ⟨h.orderly.change hmem CallPhase.noConfusion e, Or.inr ⟨i, y, d, ?_, ?_, ?_, ?_, ?_, Or.inl ?_⟩⟩
    · exact (congrArg Answers.locked (answer_self e)).trans hl
    · rw [Traffic.served]
      dsimp only
      rw [hserved, hdev, answer_self]
      exact hsetup
    · rw [Traffic.served]
      dsimp only
      rw [hserved, hs.served]
      rfl
    · intro j d' hj
      rcases eq_or_ne j i with rfl | hne
      · rfl
      · exact absurd ((Function.update_of_ne hne _ _).symm.trans hj) (hs.calls j d')
    · rw [Traffic.served]
      dsimp only
      rw [hserved, hs.served]
    · refine ⟨rfl, rfl, ?_, fun hwrite => ?_⟩
      · rw [Traffic.served]
        dsimp only
        rw [hserved, hs.served]
      · dsimp only
        rw [if_pos hwrite, Function.update_self, answer_self]
        have hlen : (copyFromUser (req i).user d.dmaCount e.notCopied).length = d.dmaCount := by
          simp [copyFromUser]
        have hbytes := written_bytes (copyFromUser (req i).user d.dmaCount e.notCopied)
          (s.memory d.dmaAddr)
        rwa [hlen] at hbytes

/-- Either callback ends the transfer that is under way. -/
theorem serial_callback (h : Serial req x s) (hrun : s.running = some (i, d)) (fault : Bool)
    (data : ℕ → UInt8) : Serial req x (s.callback i d fault data) := by
  rcases h.phase with hs | ⟨j, y, d', hs⟩
  · rw [hs.running] at hrun
    cases hrun
  rcases hs.phase with ha | he
  case inr =>
    rw [he.running] at hrun
    cases hrun
  obtain ⟨rfl, rfl⟩ := Prod.mk.inj (Option.some.inj (ha.running.symm.trans hrun))
  have hp := setup_ok hs.setup
  have hcall : s.calls j = .waiting d' := by rw [hs.calls, Function.update_self]
  have hmem : j ∉ s.order := h.orderly.notMem fun ret user hret => by rw [hcall] at hret; cases hret
  obtain ⟨e, he⟩ : ∃ e : Answers, e = { s.answers j with
    ending := if fault then .fault else .done, data := data } := ⟨_, rfl⟩
  have hserved : s.order.foldl (serve req (s.answer j e)) (.init x) = s.served req x :=
    served_answer hmem e
  have horder := h.orderly.change hmem (p := s.calls j) (by rw [hcall]; exact CallPhase.noConfusion) e
  rw [Function.update_eq_self] at horder
  rw [Traffic.callback, ← he]
  refine ⟨horder, Or.inr ⟨j, y, d', ?_, ?_, ?_, hs.others, ?_, Or.inr ⟨rfl, ?_, ?_, fun hread => ?_⟩⟩⟩
  · dsimp only
    rw [answer_self, he]
    exact hs.locked
  · rw [Traffic.served]
    dsimp only
    rw [hserved, answer_self, he]
    exact (setup_congr rfl rfl _ _ _ _).trans hs.setup
  · rw [Traffic.served]
    dsimp only
    rw [hserved]
    exact hs.calls
  · rw [Traffic.served]
    dsimp only
    rw [hserved]
    exact hs.programmed
  · dsimp only
    rw [answer_self, he, ha.dev]
  · rw [Traffic.served]
    dsimp only
    rw [hserved, answer_self, ha.sent, hp.dmaMode, he]
    by_cases hdone : (req j).mode = .write ∧ fault = false
    · obtain ⟨hwrite, rfl⟩ := hdone
      rw [if_pos ⟨hwrite, rfl⟩, DmaCall.sends,
        if_pos ⟨hwrite, ⟨hs.locked, hp.notNull, hp.requestOk⟩, rfl⟩, ha.memory hwrite, hp.dmaCount,
        transferSize_counted]
    · rw [if_neg hdone, DmaCall.sends, if_neg, List.append_nil]
      rintro ⟨hwrite, -, hending⟩
      refine hdone ⟨hwrite, ?_⟩
      cases fault with
      | false => rfl
      | true => cases hending
  · dsimp only
    rw [hp.dmaMode, if_pos hread, Function.update_self, answer_self, he]

/-- Calm, a call whose transfer has ended does what it does behind its wait. -/
theorem serve_ended (hs : Sleeping req x s i y d) (he : Ended req x s i y d) {e : Answers}
    (hgrant : e.locked = true ∧ e.buffer = (s.answers i).buffer ∧
      e.requestOk = (s.answers i).requestOk)
    (hending : e.ending = (s.answers i).ending)
    (hsends : (req i).sends (s.served req x).dev e =
      (req i).sends (s.served req x).dev (s.answers i)) :
    serve req (s.answer i e) (s.served req x) i =
      { dev := { s.dev with channel := false }
        calls := s.ret i (.returned (Int32.ofNat d.dmaCount)
          ((req i).result e.data d.dmaCount e.notCopied))
        programmed := s.programmed
        sent := s.sent } := by
  obtain ⟨hlocked, hb, hr⟩ := hgrant
  have hsetup := (setup_congr hb hr ((req i).counted (s.served req x).dev) (req i).mode (req i).fPos
    (req i).count).trans hs.setup
  rw [serve, answer_self, alone_ok hlocked hsetup, hsends, ← he.sent, hending, Traffic.ret, hs.calls,
    Function.update_idem, he.dev, hs.programmed]
  rfl

/-- A call whose transfer has ended wakes up. -/
theorem serial_finish (h : Serial req x s) (hi : s.calls i = .waiting d) (hbusy : s.dev.busy = false)
    (notCopied : ℕ) : Serial req x (s.finish (req i) i d notCopied) := by
  rcases h.phase with hs | ⟨j, y, d', hs⟩
  · exact absurd hi (hs.calls i d)
  obtain rfl := hs.others i d hi
  obtain rfl : d' = d := by
    have hcall := hi
    rw [hs.calls, Function.update_self] at hcall
    exact CallPhase.waiting.inj hcall
  have hp := setup_ok hs.setup
  rcases hs.phase with ha | he
  · rw [ha.dev, hp.busy] at hbusy
    cases hbusy
  have hmem : i ∉ s.order := h.orderly.notMem fun ret user hret => by rw [hi] at hret; cases hret
  have hothers : ∀ (ret : Int32) (user : ℕ → UInt8) k c,
      Function.update s.calls i (.returned ret user) k ≠ .waiting c := by
    intro ret user k c hk
    obtain ⟨hne, hk⟩ := returned_waiting hk
    exact hne (hs.others k c hk)
  cases hm : (req i).mode with
  | read =>
    have hbuffer : s.dev.buffer.dAddr = d'.dmaAddr := by
      rw [he.dev, wait_buffer, hp.buffer, hp.dmaAddr]
    have hsends : ∀ e, (req i).sends (s.served req x).dev e = [] :=
      fun e => if_neg fun hw => by rw [hm] at hw; cases hw.1
    have hserve := serve_ended hs he (e := { s.answers i with notCopied := notCopied })
      ⟨hs.locked, rfl, rfl⟩ rfl ((hsends _).trans (hsends _).symm)
    simp only [Traffic.finish, hm]
    refine ⟨h.orderly.concat hmem _ _ _, Or.inl ⟨?_, he.running, hothers _ _, rfl⟩⟩
    rw [Traffic.served]
    dsimp only
    rw [served_concat hmem, hserve, hbuffer, he.memory hm, DmaCall.result, hm]
  | write =>
    have hserve := serve_ended hs he (e := s.answers i) ⟨hs.locked, rfl, rfl⟩ rfl rfl
    have horder := h.orderly.concat hmem (Int32.ofNat d'.dmaCount) (req i).user (s.answers i)
    rw [Function.update_eq_self] at horder
    simp only [Traffic.finish, hm]
    refine ⟨horder, Or.inl ⟨?_, he.running, hothers _ _, rfl⟩⟩
    rw [← answer_same (s := s) (i := i), Traffic.served]
    dsimp only
    rw [served_concat hmem, hserve, DmaCall.result, hm]

theorem serial_step {l : TrafficLabel ι} (h : Serial req x s) (hl : Calm s l)
    (hstep : trafficStep req s l = .ok t) : Serial req x t := by
  cases l with
  | interrupted i =>
    rw [trafficStep] at hstep
    split at hstep
    · rename_i hi
      obtain rfl := pure_eq_ok.mp hstep
      exact serial_interrupted h hi
    · cases hstep
  | enter i buffer requestOk notCopied =>
    rw [trafficStep] at hstep
    split at hstep
    · rename_i hi
      obtain ⟨-, hstep⟩ := enabled_eq_ok.mp hstep
      obtain rfl := pure_eq_ok.mp hstep
      exact serial_enter h hl hi rfl
    · cases hstep
  | callback fault data =>
    rw [trafficStep] at hstep
    split at hstep
    · rename_i i d hrun
      obtain rfl := pure_eq_ok.mp hstep
      exact serial_callback h hrun fault data
    · cases hstep
  | wake i signal notCopied =>
    rw [trafficStep] at hstep
    split at hstep
    · rename_i d hi
      obtain ⟨-, hstep⟩ := enabled_eq_ok.mp hstep
      obtain rfl := pure_eq_ok.mp hstep
      exact serial_finish h hi hl notCopied
    · cases hstep

theorem serial_init (req : ι → DmaCall) (hx : x.Free) : Serial req x (Traffic.init x) where
  orderly := ⟨List.nodup_nil, fun _ hi => absurd hi List.not_mem_nil, fun _ _ => rfl⟩
  phase := Or.inl ⟨rfl, rfl, fun _ _ => CallPhase.noConfusion, hx.channel⟩

end

/-- CORRECT (traffic): in every interleaving of mutex sections, callbacks and ends of calls, by any
    number of processes that read and write, in which nobody gets past the mutex while another call
    sleeps and no sleep is ended by a signal: when all calls have returned, the device, what each call
    returned and left in the user's buffer, the transfers and the bytes that reached the device are
    those of the calls made one after the other, each once, in the order in which they returned. -/
theorem traffic_serial {x : Xfifo} (hx : x.Free) (req : ι → DmaCall) {ls : List (TrafficLabel ι)}
    {t : Traffic ι} (h : run (trafficStep req) (Traffic.init x) ls = .ok t)
    (hm : Meets (trafficStep req) Calm (Traffic.init x) ls) (hdone : ∀ i d, t.calls i ≠ .waiting d) :
    t.order.Nodup ∧ t.order.foldl (serve req t.answers) (Served.init x) =
      ⟨t.dev, t.calls, t.programmed, t.sent⟩ := by
  have hserial : Serial req x t :=
    run_inv (fun hs hl hstep => serial_step hs hl hstep) (serial_init req hx) hm h
  refine ⟨hserial.orderly.nodup, ?_⟩
  rcases hserial.phase with hs | ⟨i, y, d, hs⟩
  · exact hs.served
  · refine absurd ?_ (hdone i d)
    rw [hs.calls, Function.update_self]

/-- One process writes four bytes, the other one reads two. -/
def benchCalls : Bool → DmaCall
  | true => ⟨.write, 0, 4, fun k => k.toUInt8⟩
  | false => ⟨.read, 4, 2, fun _ => 0⟩

/-- The read comes when the write is through. -/
def benchTraffic : List (TrafficLabel Bool) :=
  [.enter true granted.buffer true 0, .callback false (fun _ => 0), .wake true false 0,
    .enter false granted.buffer true 0, .callback false (fun _ => 7), .wake false false 0]

theorem traffic_serial_bench :
    ∃ t, run (trafficStep benchCalls) (Traffic.init board) benchTraffic = .ok t ∧
      t.sent = [[0, 1, 2, 3]] ∧
      t.order.foldl (serve benchCalls t.answers) (Served.init board) =
        ⟨t.dev, t.calls, t.programmed, t.sent⟩ := by
  obtain ⟨t, ht, hsent, hdone⟩ :
      ∃ t, run (trafficStep benchCalls) (Traffic.init board) benchTraffic = .ok t ∧
        t.sent = [[0, 1, 2, 3]] ∧ ∀ i d, t.calls i ≠ .waiting d :=
    ⟨_, rfl, rfl, fun i d h => by cases i <;> cases h⟩
  exact ⟨t, ht, hsent,
    (traffic_serial (x := board) ⟨rfl, rfl, rfl⟩ benchCalls ht (by decide) hdone).2⟩

end AcqBoard.Driver
