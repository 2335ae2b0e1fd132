import AcqBoard.Schemes.Interleave
import AcqBoard.Schemes.Ledger
import Mathlib.Logic.Function.Basic
import Mathlib.Data.Int.Notation
import Mathlib.Data.Nat.Notation

/-! `xfifo_dma_read`, by any number of processes.

    Each call allocates a DMA buffer of its own, but keeps its addresses in the device structure that
    all calls share:

        mutex section:   alloc -> dev.buffer;  request channel;  dev.count;  enable
        wait:            until dev.busy == 0, or a signal
        afterwards:      copy from dev.buffer;  free channel;  free dev.buffer, dev.count

    A call that comes between the first and the last line of another one finds the channel taken and
    gives its buffer back, but `dev.buffer` then names that buffer. The kernel's allocator, its
    channel and the hardware are the other parties here: an allocation gives addresses that are not
    in use, a channel is given to one call at a time, and a transfer ends with one callback. What
    happens to a transfer that a signal leaves behind is not in the source; it goes on here. -/

namespace AcqBoard.Driver
open Schemes

/-- The two addresses of a buffer from `dma_alloc_coherent`. -/
structure DmaBuffer where
  vAddr : UInt32
  dAddr : UInt32
  deriving DecidableEq

/-- The fields of `xfifo_dma_dev` that a read uses. -/
structure XfifoDmaDev where
  fifoDepth : ℕ
  buffer : DmaBuffer  -- `buffer_v_addr`, `buffer_d_addr`
  count : ℕ
  busy : Bool
  bytesWritten : UInt32
  errors : UInt32

def xfifoDmaFaultCallback (dev : XfifoDmaDev) : XfifoDmaDev :=
  { dev with errors := dev.errors + 1, busy := false }

def xfifoDmaDoneCallback (dev : XfifoDmaDev) : XfifoDmaDev :=
  { dev with bytesWritten := dev.bytesWritten + UInt32.ofNat dev.count, busy := false }

/-- Where a call of `xfifo_dma_read` stands. -/
inductive Phase where
  | idle
  | waiting (transferSize : ℕ)
  | returned (ret : ℤ)
  deriving DecidableEq

/-- The device, the kernel's side of it, and the calls. -/
structure Readers (ι : Type) where
  dev : XfifoDmaDev
  channel : Option ι        -- the call that `request_dma` gave the channel to
  running : Option UInt32   -- where the transfer under way puts its data
  live : List DmaBuffer     -- what the allocator has given out
  calls : ι → Phase
  log : List (Act ι DmaBuffer)

/-- A device that nobody reads. -/
def Readers.init {ι : Type} (dev : XfifoDmaDev) : Readers ι := ⟨dev, none, none, [], fun _ => .idle, []⟩

inductive ReadLabel (ι : Type) where
  | interrupted (i : ι)                    -- a signal instead of the mutex
  | noMemory (i : ι) (dAddr : UInt32)      -- the mutex section, without memory
  | enter (i : ι) (count : ℕ) (b : DmaBuffer) (requestOk : Bool)  -- the mutex section
  | callback (fault : Bool)
  | wake (i : ι) (signal : Bool)           -- the end of the wait, and all behind it

variable {ι : Type} [DecidableEq ι]

/-- Nothing is under way on the buffer. -/
def Readers.idleOn (s : Readers ι) (b : DmaBuffer) : Bool := s.running != some b.dAddr

/-- The allocator gives out addresses that are not null and not in use. -/
def Readers.Unused (s : Readers ι) (b : DmaBuffer) : Prop :=
  b.vAddr ≠ 0 ∧ ∀ c ∈ s.live, c.vAddr ≠ b.vAddr ∧ c.dAddr ≠ b.dAddr

instance (s : Readers ι) (b : DmaBuffer) : Decidable (s.Unused b) :=
  inferInstanceAs (Decidable (_ ∧ _))

def Readers.ret (s : Readers ι) (i : ι) (p : Phase) : ι → Phase := Function.update s.calls i p

/-- The rest of the mutex section, with the new buffer in `dev.buffer`. -/
def Readers.request (s : Readers ι) (i : ι) (transferSize : ℕ) (b : DmaBuffer) (requestOk : Bool) :
    Readers ι :=
  let log := s.log ++ [.alloc i b transferSize]
  if requestOk then
    { s with
      dev := { s.dev with buffer := b, count := transferSize, busy := true }
      channel := some i
      running := some b.dAddr
      live := b :: s.live
      calls := s.ret i (.waiting transferSize)
      log := log }
  else
    { s with
      dev := { s.dev with buffer := b }
      calls := s.ret i (.returned (-16))  -- `-EBUSY`
      log := log ++ [.free i b transferSize (s.idleOn b)] }

/-- What a call does behind its wait. -/
def Readers.finish (s : Readers ι) (i : ι) (transferSize : ℕ) : Readers ι :=
  { s with
    channel := none
    live := s.live.erase s.dev.buffer
    calls := s.ret i (.returned transferSize)
    log := s.log ++ [.copy i s.dev.buffer transferSize] ++
      [.free i s.dev.buffer s.dev.count (s.idleOn s.dev.buffer)] }

def readStep (s : Readers ι) : ReadLabel ι → Except (Stuck Empty) (Readers ι)
  | .interrupted i => enabled (s.calls i = .idle) <|
    pure { s with calls := s.ret i (.returned (-4)) }  -- `-EINTR`
  | .noMemory i dAddr => enabled (s.calls i = .idle) <|
    pure { s with
      dev := { s.dev with buffer := ⟨0, dAddr⟩ }
      calls := s.ret i (.returned (-12)) }  -- `-ENOMEM`
  | .enter i count b requestOk =>
    enabled (s.calls i = .idle ∧ s.Unused b ∧ (requestOk = true → s.channel = none)) <|
      pure (s.request i (min count s.dev.fifoDepth) b requestOk)
  | .callback fault => enabled (s.running ≠ none) <|
    pure { s with
      dev := if fault then xfifoDmaFaultCallback s.dev else xfifoDmaDoneCallback s.dev
      running := none }
  | .wake i signal =>
    match s.calls i with
    | .waiting transferSize => enabled (signal = true ∨ s.dev.busy = false) <|
      pure (s.finish i transferSize)
    | _ => .error .disabled

/-- The calls that have returned. -/
def Readers.Returned (s : Readers ι) (i : ι) : Prop := ∃ ret, s.calls i = .returned ret

/-- A call gets past the mutex only while the channel is free, and a wait ends with the transfer. -/
def Undisturbed (s : Readers ι) : ReadLabel ι → Prop
  | .noMemory .. => s.channel = none
  | .enter .. => s.channel = none
  | .wake .. => s.dev.busy = false
  | _ => True

instance (s : Readers ι) : (l : ReadLabel ι) → Decidable (Undisturbed s l)
  | .interrupted _ => isTrue trivial
  | .noMemory .. => inferInstanceAs (Decidable (_ = _))
  | .enter .. => inferInstanceAs (Decidable (_ = _))
  | .callback _ => isTrue trivial
  | .wake .. => inferInstanceAs (Decidable (_ = _))

/-! ### Undisturbed runs -/

/-- No call is between its two sections. -/
structure Quiet (s : Readers ι) : Prop where
  channel : s.channel = none
  calls : ∀ i n, s.calls i ≠ .waiting n
  live : s.live = []
  running : s.running = none
  owns : ∀ i a n, ¬ Owns s.log i a n

/-- The call `i` is the only one between its two sections, and `dev` has its buffer and size. -/
structure Flight (s : Readers ι) (i : ι) (transferSize : ℕ) : Prop where
  channel : s.channel = some i
  call : s.calls i = .waiting transferSize
  only : ∀ j n, s.calls j = .waiting n → j = i
  live : s.live = [s.dev.buffer]
  notNull : s.dev.buffer.vAddr ≠ 0
  count : s.dev.count = transferSize
  owns : Owns s.log i s.dev.buffer transferSize
  onlyOwns : ∀ j a n, Owns s.log j a n → a = s.dev.buffer
  running : s.dev.busy = true ∧ s.running = some s.dev.buffer.dAddr ∨
    s.dev.busy = false ∧ s.running = none

structure Sound (s : Readers ι) : Prop where
  kept : Kept s.Returned s.log
  phase : Quiet s ∨ ∃ i n, Flight s i n

omit [DecidableEq ι] in
theorem sound_init (dev : XfifoDmaDev) : Sound (Readers.init dev : Readers ι) :=
  ⟨kept_nil, Or.inl ⟨rfl, fun _ _ => Phase.noConfusion, rfl, rfl, fun _ _ _ => not_owns_nil⟩⟩

omit [DecidableEq ι] in
/-- A call that has not allocated anything owns nothing. -/
theorem Sound.owns_nothing {s : Readers ι} (h : Sound s) {i : ι} (hi : s.calls i = .idle)
    (a : DmaBuffer) (n : ℕ) : ¬ Owns s.log i a n := by
  rcases h.phase with hq | ⟨j, m, hf⟩
  · exact hq.owns i a n
  · intro howns
    obtain rfl := hf.onlyOwns i a n howns
    obtain ⟨rfl, -⟩ := howns.unique hf.owns
    rw [hf.call] at hi
    cases hi

theorem ret_eq {s : Readers ι} {i j : ι} {p q : Phase} (h : s.ret i p j = q) :
    j = i ∧ p = q ∨ j ≠ i ∧ s.calls j = q := by
  by_cases hj : j = i
  · rw [Readers.ret, hj, Function.update_self] at h
    exact Or.inl ⟨hj, h⟩
  · rw [Readers.ret, Function.update_of_ne hj] at h
    exact Or.inr ⟨hj, h⟩

/-- Once `i` has returned, the others wait as before. -/
theorem ret_waiting {s : Readers ι} {i j : ι} {r : ℤ} {n : ℕ}
    (h : s.ret i (.returned r) j = .waiting n) : j ≠ i ∧ s.calls j = .waiting n := by
  rcases ret_eq h with ⟨-, h⟩ | h
  · cases h
  · exact h

/-- A call that returns owning nothing keeps the discipline. -/
theorem kept_ret {s : Readers ι} {i : ι} {p : Phase} {log : List (Act ι DmaBuffer)}
    (h : Kept s.Returned log) (hi : ∀ a n, ¬ Owns log i a n) :
    Kept (fun j => ∃ r, s.ret i p j = .returned r) log := by
  refine h.done_of_nothing ?_
  rintro j ⟨r, hr⟩
  rcases ret_eq hr with ⟨rfl, -⟩ | ⟨-, hj⟩
  · exact Or.inr hi
  · exact Or.inl ⟨r, hj⟩

/-- A call that ends in its first section, having touched nothing, disturbs nobody. -/
theorem sound_interrupted {s : Readers ι} (h : Sound s) {i : ι} (hi : s.calls i = .idle) (r : ℤ) :
    Sound { s with calls := s.ret i (.returned r) } := by
  refine ⟨kept_ret h.kept (h.owns_nothing hi), ?_⟩
  rcases h.phase with hq | ⟨j, n, hf⟩
  · exact Or.inl ⟨hq.channel, fun k m hk => hq.calls k m (ret_waiting hk).2, hq.live, hq.running,
      hq.owns⟩
  · have hji : j ≠ i := by
      rintro rfl
      rw [hf.call] at hi
      cases hi
    exact Or.inr ⟨j, n, hf.channel, (Function.update_of_ne hji _ _).trans hf.call,
      fun k m hk => hf.only k m (ret_waiting hk).2, hf.live, hf.notNull, hf.count, hf.owns,
      hf.onlyOwns, hf.running⟩

omit [DecidableEq ι] in
/-- While the channel is free nobody waits. -/
theorem Sound.quiet {s : Readers ι} (h : Sound s) (hc : s.channel = none) : Quiet s := by
  rcases h.phase with hq | ⟨i, n, hf⟩
  · exact hq
  · rw [hf.channel] at hc
    cases hc

theorem sound_noMemory {s : Readers ι} (h : Sound s) (hc : s.channel = none) {i : ι}
    (hi : s.calls i = .idle) (b : DmaBuffer) (r : ℤ) :
    Sound { s with dev := { s.dev with buffer := b }, calls := s.ret i (.returned r) } := by
  have hq := h.quiet hc
  exact ⟨kept_ret h.kept (h.owns_nothing hi), Or.inl ⟨hq.channel,
    fun k m hk => hq.calls k m (ret_waiting hk).2, hq.live, hq.running, hq.owns⟩⟩

/-- The mutex section of a call that nobody disturbs. -/
theorem sound_request {s : Readers ι} (h : Sound s) (hc : s.channel = none) {i : ι}
    (hi : s.calls i = .idle) (n : ℕ) {b : DmaBuffer} (hb : s.Unused b) (requestOk : Bool) :
    Sound (s.request i n b requestOk) := by
  have hq := h.quiet hc
  have hnot : ¬ s.Returned i := by
    rintro ⟨r, hr⟩
    rw [hi] at hr
    cases hr
  have halloc : Kept s.Returned (s.log ++ [.alloc i b n]) := by
    refine h.kept.concat (fun j m => hq.owns j b m) ?_
    rintro j a m ⟨⟩
    exact hnot
  have honly : ∀ j a m, Owns (s.log ++ [.alloc i b n]) j a m → a = b := by
    intro j a m howns
    rcases owns_of_concat howns with hlog | hx
    · exact absurd hlog (hq.owns j a m)
    · cases hx
      rfl
  cases requestOk with
  | true =>
    refine ⟨?_, Or.inr ⟨i, n, rfl, Function.update_self .., ?_, ?_, hb.1, rfl,
      owns_alloc.mpr ⟨rfl, rfl⟩, honly, Or.inl ⟨rfl, rfl⟩⟩⟩
    · refine halloc.done_of_nothing ?_
      rintro j ⟨r, hr⟩
      rcases ret_eq hr with ⟨-, hx⟩ | ⟨-, hj⟩
      · cases hx
      · exact Or.inl ⟨r, hj⟩
    · intro j m hj
      rcases ret_eq hj with ⟨rfl, -⟩ | ⟨-, hj⟩
      · rfl
      · exact absurd hj (hq.calls j m)
    · change b :: s.live = [b]
      rw [hq.live]
  | false =>
    have hidle : s.idleOn b = true := by rw [Readers.idleOn, hq.running]; rfl
    have hnothing : ∀ j a m, ¬ Owns (s.log ++ [.alloc i b n] ++ [.free i b n true]) j a m := by
      intro j a m howns
      rcases owns_of_concat howns with hlog | hx
      · obtain rfl := honly j a m hlog
        exact not_owns_free howns
      · cases hx
    have hfree : Kept s.Returned (s.log ++ [.alloc i b n] ++ [.free i b n true]) :=
      halloc.concat ⟨rfl, owns_alloc.mpr ⟨rfl, rfl⟩⟩ (by rintro j a m ⟨⟩)
    simp only [Readers.request, hidle, Bool.false_eq_true, if_false]
    exact ⟨kept_ret hfree (hnothing i), Or.inl ⟨hc, fun k m hk => hq.calls k m (ret_waiting hk).2,
      hq.live, hq.running, hnothing⟩⟩

omit [DecidableEq ι] in
/-- Either callback ends the transfer. -/
theorem sound_callback {s : Readers ι} (h : Sound s) (hrun : s.running ≠ none)
    {dev : XfifoDmaDev} (hbuffer : dev.buffer = s.dev.buffer) (hcount : dev.count = s.dev.count)
    (hbusy : dev.busy = false) : Sound { s with dev := dev, running := none } := by
  refine ⟨h.kept, ?_⟩
  rcases h.phase with hq | ⟨i, n, hf⟩
  · exact absurd hq.running hrun
  · refine Or.inr ⟨i, n, hf.channel, hf.call, hf.only, ?_, ?_, hcount.trans hf.count, ?_, ?_,
      Or.inr ⟨hbusy, rfl⟩⟩
    · exact hbuffer ▸ hf.live
    · exact hbuffer ▸ hf.notNull
    · exact hbuffer ▸ hf.owns
    · exact hbuffer ▸ hf.onlyOwns

/-- The end of a call whose transfer has ended. -/
theorem sound_finish {s : Readers ι} (h : Sound s) {i : ι} {n : ℕ} (hi : s.calls i = .waiting n)
    (hbusy : s.dev.busy = false) : Sound (s.finish i n) := by
  rcases h.phase with hq | ⟨j, m, hf⟩
  · exact absurd hi (hq.calls i n)
  obtain rfl := hf.only i n hi
  obtain rfl : m = n := by
    have hcall := hf.call
    rw [hi] at hcall
    exact (Phase.waiting.inj hcall).symm
  have hrun : s.running = none := by
    rcases hf.running with ⟨hb, -⟩ | ⟨-, hr⟩
    · rw [hbusy] at hb
      cases hb
    · exact hr
  have hidle : s.idleOn s.dev.buffer = true := by rw [Readers.idleOn, hrun]; rfl
  have hcopy : Kept s.Returned (s.log ++ [.copy i s.dev.buffer m]) :=
    h.kept.concat ⟨m, Nat.le_refl m, hf.owns⟩ (by rintro j a k ⟨⟩)
  have howns : Owns (s.log ++ [.copy i s.dev.buffer m]) i s.dev.buffer m :=
    (owns_concat id).mpr hf.owns
  have hfree : Kept s.Returned
      (s.log ++ [.copy i s.dev.buffer m] ++ [.free i s.dev.buffer m true]) :=
    hcopy.concat ⟨rfl, howns⟩ (by rintro j a k ⟨⟩)
  have hnothing : ∀ j a k,
      ¬ Owns (s.log ++ [.copy i s.dev.buffer m] ++ [.free i s.dev.buffer m true]) j a k := by
    intro j a k hj
    rcases owns_of_concat hj with hcut | hx
    · obtain rfl := hf.onlyOwns j a k ((owns_concat id).mp hcut)
      exact not_owns_free hj
    · cases hx
  simp only [Readers.finish, hidle, hf.count]
  refine ⟨kept_ret hfree (hnothing i), Or.inl ⟨rfl, ?_, ?_, hrun, hnothing⟩⟩
  · intro j k hj
    obtain ⟨hji, hj⟩ := ret_waiting hj
    exact hji (hf.only j k hj)
  · change s.live.erase s.dev.buffer = []
    rw [hf.live]
    simp

theorem sound_step {s t : Readers ι} {l : ReadLabel ι} (h : Sound s) (hl : Undisturbed s l)
    (hstep : readStep s l = .ok t) : Sound t := by
  cases l with
  | interrupted i =>
    obtain ⟨hi, hstep⟩ := enabled_eq_ok.mp hstep
    obtain rfl := pure_eq_ok.mp hstep
    exact sound_interrupted h hi (-4)
  | noMemory i dAddr =>
    obtain ⟨hi, hstep⟩ := enabled_eq_ok.mp hstep
    obtain rfl := pure_eq_ok.mp hstep
    exact sound_noMemory h hl hi ⟨0, dAddr⟩ (-12)
  | enter i count b requestOk =>
    obtain ⟨⟨hi, hb, -⟩, hstep⟩ := enabled_eq_ok.mp hstep
    obtain rfl := pure_eq_ok.mp hstep
    exact sound_request h hl hi _ hb requestOk
  | callback fault =>
    obtain ⟨hrun, hstep⟩ := enabled_eq_ok.mp hstep
    obtain rfl := pure_eq_ok.mp hstep
    cases fault with
    | true => exact sound_callback h hrun rfl rfl rfl
    | false => exact sound_callback h hrun rfl rfl rfl
  | wake i signal =>
    rw [readStep] at hstep
    split at hstep
    · rename_i n hi
      obtain ⟨-, hstep⟩ := enabled_eq_ok.mp hstep
      obtain rfl := pure_eq_ok.mp hstep
      exact sound_finish h hi hl
    · cases hstep

/-! ### Disturbed runs -/

/-- The log has an action that is out of order. -/
def Broken (log : List (Act ι DmaBuffer)) : Prop :=
  ∃ pre x post, log = pre ++ x :: post ∧ ¬ Permitted pre x

omit [DecidableEq ι] in
theorem Broken.append {log : List (Act ι DmaBuffer)} (h : Broken log)
    (xs : List (Act ι DmaBuffer)) : Broken (log ++ xs) := by
  obtain ⟨pre, x, post, rfl, hx⟩ := h
  exact ⟨pre, x, post ++ xs, by simp, hx⟩

/-- The call `i` waits with the buffer `b`, whatever `dev` says. -/
structure Pending (s : Readers ι) (i : ι) (b : DmaBuffer) : Prop where
  channel : s.channel = some i
  call : ∃ n, s.calls i = .waiting n
  only : ∀ j n, s.calls j = .waiting n → j = i
  live : b ∈ s.live
  notNull : b.vAddr ≠ 0
  onlyOwns : ∀ a n, Owns s.log i a n → a = b

omit [DecidableEq ι] in
theorem Flight.pending {s : Readers ι} {i : ι} {n : ℕ} (h : Flight s i n) :
    Pending s i s.dev.buffer :=
  ⟨h.channel, ⟨n, h.call⟩, h.only, by simp [h.live], h.notNull, h.onlyOwns i⟩

/-- A call that returns leaves the one that waits alone. -/
theorem Pending.ret {s : Readers ι} {i : ι} {b : DmaBuffer} (h : Pending s i b) {j : ι}
    (hj : s.calls j = .idle) (r : ℤ) {dev : XfifoDmaDev} {log : List (Act ι DmaBuffer)}
    (hlog : ∀ a n, Owns log i a n → Owns s.log i a n) :
    Pending { s with dev := dev, calls := s.ret j (.returned r), log := log } i b := by
  obtain ⟨n, hn⟩ := h.call
  have hij : i ≠ j := by
    rintro rfl
    rw [hj] at hn
    cases hn
  exact ⟨h.channel, ⟨n, (Function.update_of_ne hij _ _).trans hn⟩,
    fun k m hk => h.only k m (ret_waiting hk).2, h.live, h.notNull,
    fun a m ha => h.onlyOwns a m (hlog a m ha)⟩

/-- While `i` waits, another call gets no further than `-EBUSY`, and leaves its own buffer in `dev`;
    only `i` itself ends this. -/
theorem pending_step {s t : Readers ι} {l : ReadLabel ι} {i : ι} {b : DmaBuffer}
    (h : Pending s i b) (hstep : readStep s l = .ok t) :
    (Pending t i b ∧ (t.dev.buffer ≠ b ∨ t.dev.buffer = s.dev.buffer ∧ Undisturbed s l)) ∨
      ∃ n signal, l = .wake i signal ∧ t = s.finish i n := by
  cases l with
  | interrupted j =>
    obtain ⟨hj, hstep⟩ := enabled_eq_ok.mp hstep
    obtain rfl := pure_eq_ok.mp hstep
    exact Or.inl ⟨h.ret hj (-4) fun _ _ => id, Or.inr ⟨rfl, trivial⟩⟩
  | noMemory j dAddr =>
    obtain ⟨hj, hstep⟩ := enabled_eq_ok.mp hstep
    obtain rfl := pure_eq_ok.mp hstep
    refine Or.inl ⟨h.ret hj (-12) fun _ _ => id, Or.inl ?_⟩
    rintro rfl
    exact h.notNull rfl
  | enter j count c requestOk =>
    obtain ⟨⟨hj, hc, hrequest⟩, hstep⟩ := enabled_eq_ok.mp hstep
    obtain rfl := pure_eq_ok.mp hstep
    cases requestOk with
    | true =>
      have hnone := hrequest rfl
      rw [h.channel] at hnone
      cases hnone
    | false =>
      refine Or.inl ⟨h.ret hj (-16) ?_, Or.inl ?_⟩
      · intro a n ha
        obtain ⟨m, hm⟩ := h.call
        rcases owns_of_concat ha with ha | ha
        · rcases owns_of_concat ha with ha | ha
          · exact ha
          · cases ha
            rw [hm] at hj
            cases hj
        · cases ha
      · rintro rfl
        exact (hc.2 c h.live).1 rfl
  | callback fault =>
    obtain ⟨-, hstep⟩ := enabled_eq_ok.mp hstep
    obtain rfl := pure_eq_ok.mp hstep
    refine Or.inl ⟨⟨h.channel, h.call, h.only, h.live, h.notNull, h.onlyOwns⟩,
      Or.inr ⟨?_, trivial⟩⟩
    cases fault <;> rfl
  | wake j signal =>
    rw [readStep] at hstep
    split at hstep
    · rename_i n hj
      obtain ⟨-, hstep⟩ := enabled_eq_ok.mp hstep
      obtain rfl := pure_eq_ok.mp hstep
      obtain rfl := h.only j n hj
      exact Or.inr ⟨n, signal, rfl, rfl⟩
    · cases hstep

/-- Every step only adds to the log. -/
theorem readStep_log {s t : Readers ι} {l : ReadLabel ι} (h : readStep s l = .ok t) :
    ∃ xs, t.log = s.log ++ xs := by
  cases l with
  | interrupted i | noMemory i dAddr | callback fault =>
    obtain ⟨-, h⟩ := enabled_eq_ok.mp h
    obtain rfl := pure_eq_ok.mp h
    exact ⟨[], (List.append_nil _).symm⟩
  | enter i count b requestOk =>
    obtain ⟨-, h⟩ := enabled_eq_ok.mp h
    obtain rfl := pure_eq_ok.mp h
    cases requestOk with
    | true => exact ⟨_, rfl⟩
    | false => exact ⟨_, List.append_assoc _ _ _⟩
  | wake i signal =>
    rw [readStep] at h
    split at h
    · obtain ⟨-, h⟩ := enabled_eq_ok.mp h
      obtain rfl := pure_eq_ok.mp h
      exact ⟨_, List.append_assoc _ _ _⟩
    · cases h

theorem broken_run {s t : Readers ι} {ls : List (ReadLabel ι)} (hb : Broken s.log)
    (h : run readStep s ls = .ok t) : Broken t.log := by
  induction ls generalizing s with
  | nil =>
    obtain rfl : s = t := by simpa using h
    exact hb
  | cons l ls ih =>
    obtain ⟨u, hu, hrun⟩ := run_cons_ok.mp h
    obtain ⟨xs, hxs⟩ := readStep_log hu
    exact ih (hxs ▸ hb.append xs) hrun

/-- A call whose buffer is no longer the one in `dev` never comes to a good end. -/
theorem pending_run {s t : Readers ι} {i : ι} {b : DmaBuffer} (h : Pending s i b)
    (hbuffer : s.dev.buffer ≠ b) {ls : List (ReadLabel ι)} (hrun : run readStep s ls = .ok t) :
    (∃ n, t.calls i = .waiting n) ∨ Broken t.log := by
  induction ls generalizing s with
  | nil =>
    obtain rfl : s = t := by simpa using hrun
    exact Or.inl h.call
  | cons l ls ih =>
    obtain ⟨u, hu, hrun⟩ := run_cons_ok.mp hrun
    rcases pending_step h hu with ⟨hpending, hnext⟩ | ⟨n, signal, rfl, rfl⟩
    · refine ih hpending ?_ hrun
      rcases hnext with hne | ⟨hsame, -⟩
      · exact hne
      · rw [hsame]
        exact hbuffer
    · refine Or.inr (broken_run ⟨s.log, _, _, List.append_assoc _ _ _, ?_⟩ hrun)
      rintro ⟨m, -, howns⟩
      exact hbuffer (h.onlyOwns _ m howns)

/-- The first disturbance: a call that waits has lost its buffer, or frees it too early. -/
theorem disturbed_step {s t : Readers ι} {l : ReadLabel ι} (h : Sound s)
    (hl : ¬ Undisturbed s l) (hstep : readStep s l = .ok t) :
    (∃ i b, Pending t i b ∧ t.dev.buffer ≠ b) ∨ Broken t.log := by
  rcases h.phase with hq | ⟨i, n, hf⟩
  · exfalso
    cases l with
    | interrupted i | callback fault => exact hl trivial
    | noMemory i dAddr | enter i count b requestOk => exact hl hq.channel
    | wake i signal =>
      rw [readStep] at hstep
      split at hstep
      · rename_i n hi
        exact hq.calls i n hi
      · cases hstep
  · rcases pending_step hf.pending hstep with ⟨hpending, hne | ⟨-, hu⟩⟩ | ⟨m, signal, rfl, rfl⟩
    · exact Or.inl ⟨i, s.dev.buffer, hpending, hne⟩
    · exact absurd hu hl
    · refine Or.inr ⟨s.log ++ [.copy i s.dev.buffer m], _, [], rfl, ?_⟩
      rintro ⟨hidle, -⟩
      rcases hf.running with ⟨-, hrun⟩ | ⟨hbusy, -⟩
      · simp [Readers.idleOn, hrun] at hidle
      · exact hl hbusy

/-- In a run of calls that all return, only undisturbed steps keep the discipline. -/
theorem meets_of_permitted {s t : Readers ι} (h : Sound s) {ls : List (ReadLabel ι)}
    (hrun : run readStep s ls = .ok t) (hdone : ∀ i n, t.calls i ≠ .waiting n)
    (hlog : ¬ Broken t.log) : Meets readStep Undisturbed s ls := by
  induction ls generalizing s with
  | nil => trivial
  | cons l ls ih =>
    obtain ⟨u, hu, hrun⟩ := run_cons_ok.mp hrun
    have hl : Undisturbed s l := by
      by_contra hl
      rcases disturbed_step h hl hu with ⟨i, b, hpending, hne⟩ | hbroken
      · rcases pending_run hpending hne hrun with ⟨n, hn⟩ | hbroken
        · exact hdone i n hn
        · exact hlog hbroken
      · exact hlog (broken_run hbroken hrun)
    refine ⟨hl, ?_⟩
    intro v hv
    obtain rfl : u = v := by simpa [hu] using hv
    exact ih (sound_step h hl hu) hrun

theorem sound_run {s t : Readers ι} (h : Sound s) {ls : List (ReadLabel ι)}
    (hm : Meets readStep Undisturbed s ls) (hrun : run readStep s ls = .ok t) : Sound t :=
  run_inv (fun hs hl hstep => sound_step hs hl hstep) h hm hrun

omit [DecidableEq ι] in
theorem not_broken {done : ι → Prop} {log : List (Act ι DmaBuffer)} (h : Lawful done log) :
    ¬ Broken log := by
  rintro ⟨pre, x, post, hcut, hx⟩
  exact hx (h.permitted hcut)

/-- CORRECT (DMA buffers): over every interleaving of any number of calls, as long as no step is
    disturbed, every buffer is freed once, by the call that allocated it, with its size and not under
    a running transfer, and every copy is from the buffer of the call that makes it; and where all
    calls have returned, this holds exactly if no step was disturbed. -/
theorem xfifoDmaRead_lawful_iff (dev : XfifoDmaDev) {ls : List (ReadLabel ι)} {t : Readers ι}
    (h : run readStep (Readers.init dev) ls = .ok t) :
    (Meets readStep Undisturbed (Readers.init dev) ls → Lawful t.Returned t.log) ∧
      ((∀ i n, t.calls i ≠ .waiting n) →
        (Lawful t.Returned t.log ↔ Meets readStep Undisturbed (Readers.init dev) ls)) := by
  have hlawful : Meets readStep Undisturbed (Readers.init dev) ls → Lawful t.Returned t.log :=
    fun hm => (sound_run (sound_init dev) hm h).kept.lawful
  refine ⟨hlawful, fun hdone => ⟨fun hlog => ?_, hlawful⟩⟩
  exact meets_of_permitted (sound_init dev) h hdone (not_broken hlog)

/-- A device with a FIFO of 4096 bytes, and two buffers. -/
def benchDev : XfifoDmaDev := ⟨4096, ⟨0, 0⟩, 0, false, 0, 0⟩
def benchBuffer : DmaBuffer := ⟨0xC8000000, 0x08000000⟩
def otherBuffer : DmaBuffer := ⟨0xC8001000, 0x08001000⟩

/-- Two calls, one after the other, in the same buffer. -/
theorem xfifoDmaRead_lawful_twice :
    ∃ t : Readers ℕ, run readStep (Readers.init benchDev)
      [.enter 0 65536 benchBuffer true, .callback false, .wake 0 false,
        .enter 1 512 benchBuffer true, .callback true, .wake 1 false] = .ok t ∧
      Lawful t.Returned t.log := by
  obtain ⟨t, ht⟩ : ∃ t : Readers ℕ, run readStep (Readers.init benchDev)
      [.enter 0 65536 benchBuffer true, .callback false, .wake 0 false,
        .enter 1 512 benchBuffer true, .callback true, .wake 1 false] = .ok t := ⟨_, rfl⟩
  exact ⟨t, ht, (xfifoDmaRead_lawful_iff benchDev ht).1 (by decide)⟩

/-- A second call while the first one waits: the first one copies and frees the second one's buffer,
    which is free already, and its own stays allocated. -/
theorem xfifoDmaRead_overlaps : ¬ ∀ (dev : XfifoDmaDev) (ls : List (ReadLabel ℕ)) (t : Readers ℕ),
    run readStep (Readers.init dev) ls = .ok t → Lawful t.Returned t.log := by
  intro h
  have hlog := h benchDev [.enter 0 65536 benchBuffer true, .enter 1 512 otherBuffer false,
    .callback false, .wake 0 false] _ rfl
  have hcopy : Permitted ([.alloc 0 benchBuffer 4096, .alloc 1 otherBuffer 512] ++
      [.free 1 otherBuffer 512 true]) (.copy 0 otherBuffer 4096) := hlog.permitted rfl
  obtain ⟨m, -, howns⟩ := hcopy
  exact not_owns_free howns

end AcqBoard.Driver
