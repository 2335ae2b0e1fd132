import AcqBoard.App.Delivery

/-! What the PC receives of an acquisition.

    `DeliverData_s` assigns what `send` returns to `iRet` and never looks at it. The data socket takes
    as many bytes as its buffer has room for, or none at all when the 15 seconds of `SO_SNDTIMEO` run
    out; the program counts the block as delivered either way and goes on with the next one. -/

namespace AcqBoard.App
open Schemes

/-- What a call of `send` puts on the wire when it returns `iRet`: the first `iRet` bytes, or nothing
    for -1. -/
def taken (iRet : Int32) (bytes : List UInt8) : List UInt8 := bytes.take iRet.toInt.toNat

/-- What the `send`s of one call put on the wire, the `i`-th of them returning `iRet i`. -/
def takenOf (io : List Io) (iRet : ℕ → Int32) : List UInt8 :=
  (io.mapIdx fun i x => taken (iRet i) x.bytes).flatten

/-- The board and the bytes that the data socket has accepted. -/
structure Wire where
  board : Board
  accepted : List UInt8

/-- A data interrupt: the buffers at that time, and what the `send`s of this call return. -/
abbrev DataIrq := Bram × (ℕ → Int32)

/-- One call of `DeliverData_s` on a data interrupt. -/
def wireStep (s : Wire) (x : DataIrq) : Except Fault Wire := do
  let r ← deliverDataS s.board true x.1
  pure ⟨r.1, s.accepted ++ takenOf r.2 x.2⟩

/-- The bytes of a sample length `S`, block by block. -/
def sampleBytes (S : ℕ) (ms : List Bram) : List UInt8 :=
  (ms.mapIdx fun k m => blockOf S (k + 1) m).flatten

/-- The length of block number `k`, counted from 0. -/
def blockSize (S k : ℕ) : ℕ := min 65536 (S - 65536 * k)

/-- The one or two `send`s of `len` bytes return what `send` may return: -1, or a number of bytes up
    to the length asked for. -/
def Allowed (len : ℕ) (iRet : ℕ → Int32) : Prop :=
  (iRet 0 = -1 ∨ 0 ≤ (iRet 0).toInt ∧ (iRet 0).toInt ≤ min len 32768) ∧
    (iRet 1 = -1 ∨ 0 ≤ (iRet 1).toInt ∧ (iRet 1).toInt ≤ (len - 32768 : ℕ))

/-- The one or two `send`s of `len` bytes took all of them. -/
def Taken (len : ℕ) (iRet : ℕ → Int32) : Prop :=
  min len 32768 ≤ (iRet 0).toInt.toNat ∧ len - 32768 ≤ (iRet 1).toInt.toNat

instance (len : ℕ) (iRet : ℕ → Int32) : Decidable (Taken len iRet) :=
  inferInstanceAs (Decidable (_ ∧ _))

/-- No `send` of the acquisition was short or failed. -/
def AllTaken (S : ℕ) (xs : List DataIrq) : Prop :=
  ∀ k x, xs[k]? = some x → Taken (blockSize S k) x.2

/-! ### One block on the wire -/

/-- What arrives of block number `k`, counted from 1. -/
def acceptedOf (S k : ℕ) (x : DataIrq) : List UInt8 :=
  let w := if k % 2 = 1 then x.1.a else x.1.b
  window w 0 (min (x.2 0).toInt.toNat (min (blockSize S (k - 1)) 32768)) ++
    window w 32768 (min (x.2 1).toInt.toNat (blockSize S (k - 1) - 32768))

theorem take_window (w : Window) (off len n : ℕ) :
    (window w off len).take n = window w off (min n len) := by
  rw [window, window, ← List.map_take, List.take_range]

@[simp] theorem window_zero (w : Window) (off : ℕ) : window w off 0 = [] := rfl

/-- The `send`s of `len` bytes, cut off where they return. -/
theorem takenOf_sends (w : Window) (len : UInt64) (iRet : ℕ → Int32) :
    takenOf ((sendsOf len).map fun s => .send (window w s.1.toNat s.2.toNat)) iRet =
      window w 0 (min (iRet 0).toInt.toNat (min len.toNat 32768)) ++
        window w 32768 (min (iRet 1).toInt.toNat (len.toNat - 32768)) := by
  have hpack : packageSize.toNat = 32768 := rfl
  unfold sendsOf
  split
  · rename_i hle
    rw [UInt64.le_iff_toNat_le, hpack] at hle
    have hone : min len.toNat 32768 = len.toNat := by omega
    have htwo : len.toNat - 32768 = 0 := by omega
    simp [takenOf, taken, Io.bytes, take_window, hone, htwo]
  · rename_i hlen
    have hle : packageSize ≤ len := by
      rw [UInt64.le_iff_toNat_le] at hlen ⊢
      omega
    have hone : min len.toNat 32768 = 32768 := by
      rw [UInt64.le_iff_toNat_le, hpack] at hle
      omega
    simp [takenOf, taken, Io.bytes, take_window, hone, hpack, UInt64.toNat_sub_of_le _ _ hle]

theorem length_acceptedOf (S k : ℕ) (x : DataIrq) :
    (acceptedOf S (k + 1) x).length =
      min (x.2 0).toInt.toNat (min (blockSize S k) 32768) +
        min (x.2 1).toInt.toNat (blockSize S k - 32768) := by
  simp only [acceptedOf, List.length_append, length_window, Nat.add_sub_cancel]

theorem length_acceptedOf_le (S k : ℕ) (x : DataIrq) :
    (acceptedOf S (k + 1) x).length ≤ (blockOf S (k + 1) x.1).length := by
  rw [length_acceptedOf, length_blockOf, blockSize]
  omega

/-- A block arrives whole exactly if its `send`s took all their bytes. -/
theorem acceptedOf_eq_iff {S k : ℕ} {x : DataIrq} :
    acceptedOf S (k + 1) x = blockOf S (k + 1) x.1 ↔ Taken (blockSize S k) x.2 := by
  constructor
  · intro h
    have hlen := congrArg List.length h
    rw [length_acceptedOf, length_blockOf] at hlen
    rw [Taken]
    unfold blockSize at hlen ⊢
    omega
  · rintro ⟨h₀, h₁⟩
    have hcat := window_append (if (k + 1) % 2 = 1 then x.1.a else x.1.b) 0
      (min (blockSize S k) 32768) (blockSize S k - 32768)
    have hsum : min (blockSize S k) 32768 + (blockSize S k - 32768) = blockSize S k := by omega
    rw [hsum] at hcat
    simp only [acceptedOf, blockOf, Nat.add_sub_cancel, Nat.min_eq_right h₀, Nat.min_eq_right h₁]
    rw [← blockSize, ← hcat]
    rcases Nat.lt_or_ge (blockSize S k) 32768 with hlt | hge
    · have hnil : blockSize S k - 32768 = 0 := by omega
      simp only [hnil, window_zero]
    · rw [Nat.min_eq_right hge]

/-! ### The whole acquisition -/

/-- In PC mode a call offers its block to the socket and counts it, whatever the socket takes. -/
theorem deliverDataS_pc {b : Board} (hr : b.ucIsReady = true) (hpc : b.uiSavePC ≠ 0) (m : Bram) :
    deliverDataS b true m = .ok (b.afterBlock m,
      (sendsOf b.blockLen).map fun s => .send (window (b.blockAddr m) s.1.toNat s.2.toNat)) := by
  obtain ⟨io, hio⟩ := deliverDataS_returns hr (fun h => absurd h hpc) m
  have hrun := hio
  rw [deliverDataS_eq hr] at hrun
  obtain ⟨⟨c, io'⟩, hemit, hrun⟩ := bind_eq_ok.mp hrun
  obtain ⟨-, rfl⟩ := Prod.mk.inj (pure_eq_ok.mp hrun)
  rcases emitBlock_ok hemit with ⟨h0, -⟩ | ⟨-, -, rfl⟩
  · exact absurd h0 hpc
  · exact hio

/-- The wire after the data interrupts `xs` of an acquisition that started on board `b`: the calls
    are those of `Progress`, and of each block that part arrived which its `send`s took. -/
structure Arrived (b : Board) (xs : List DataIrq) (s : Wire) : Prop where
  progress : ∃ out, Progress b (xs.map Prod.fst) ⟨s.board, out⟩
  accepted : s.accepted =
    (xs.mapIdx fun k x => acceptedOf b.ulSampleLength.toNat (k + 1) x).flatten

theorem arrived_step {b : Board} (hpc : b.uiSavePC ≠ 0) {xs : List DataIrq} {s : Wire}
    (h : Arrived b xs s) (x : DataIrq) :
    ∃ t, wireStep s x = .ok t ∧ Arrived b (xs ++ [x]) t := by
  obtain ⟨⟨out, hp⟩, hacc⟩ := h
  have hlen : (xs.map Prod.fst).length = xs.length := List.length_map _
  obtain ⟨d, hd, hq⟩ := progress_step (fun h0 => absurd h0 hpc) hp x.1
  obtain ⟨⟨c, io⟩, hc, hd⟩ := bind_eq_ok.mp hd
  obtain rfl := pure_eq_ok.mp hd
  refine ⟨⟨c, s.accepted ++ takenOf io x.2⟩, ?_, ⟨out ++ [io.flatMap Io.bytes], ?_⟩, ?_⟩
  · rw [wireStep, hc]
    rfl
  · rw [List.map_append]
    exact hq
  rw [List.mapIdx_concat, List.flatten_append, ← hacc, List.flatten_singleton,
    List.append_cancel_left_eq]
  cases hr : s.board.ucIsReady with
  | true =>
    have hrem := remaining_of_progress hp hr
    rw [deliverDataS_pc hr (by rw [hp.savePC]; exact hpc)] at hc
    obtain ⟨-, rfl⟩ := Prod.mk.inj (Except.ok.inj hc)
    rw [takenOf_sends, blockAddr_ofNat (hp.flag hr), toNat_blockLen, hrem, hlen]
    rfl
  | false =>
    have hdone : callsOf b.ulSampleLength.toNat ≤ xs.length := by
      by_contra hlt
      rw [hp.ready.mpr (by rw [hlen]; omega)] at hr
      simp at hr
    rw [deliverDataS_idle (by rw [hr]; rfl)] at hc
    obtain ⟨-, rfl⟩ := Prod.mk.inj (Except.ok.inj hc)
    have hle := length_acceptedOf_le b.ulSampleLength.toNat xs.length x
    rw [blockOf_done (le_of_callsOf_le hdone), List.length_nil, Nat.le_zero,
      List.length_eq_zero_iff] at hle
    rw [hle]
    rfl

theorem arrived_run {b₀ b : Board} {uiSeconds : UInt32} {fopenOk : Bool}
    (hstart : mesgThread b₀ uiSeconds fopenOk = .ok b) (hpc : b.uiSavePC ≠ 0)
    (xs : List DataIrq) : ∃ s, run wireStep ⟨b, []⟩ xs = .ok s ∧ Arrived b xs s := by
  induction xs using List.reverseRecOn with
  | nil => exact ⟨_, rfl, ⟨[], (progress_start hstart).1⟩, rfl⟩
  | append_singleton xs x ih =>
    obtain ⟨s, hs, hrec⟩ := ih
    obtain ⟨t, ht, hrec'⟩ := arrived_step hpc hrec x
    refine ⟨t, run_append_ok.mpr ⟨s, hs, ?_⟩, hrec'⟩
    rw [run_cons, ht]
    rfl

theorem length_sampleBytes (S : ℕ) (ms : List Bram) :
    (sampleBytes S ms).length = min S (65536 * ms.length) := by
  induction ms using List.reverseRecOn with
  | nil => simp [sampleBytes]
  | append_singleton ms m ih =>
    rw [sampleBytes] at ih ⊢
    rw [List.mapIdx_concat, List.flatten_append, List.length_append, ih,
      List.flatten_singleton, length_blockOf, List.length_append, List.length_singleton]
    omega

theorem allTaken_concat {S : ℕ} {xs : List DataIrq} {x : DataIrq} :
    AllTaken S (xs ++ [x]) ↔ AllTaken S xs ∧ Taken (blockSize S xs.length) x.2 := by
  constructor
  · intro h
    refine ⟨fun k y hk => h k y ?_, h xs.length x (by simp)⟩
    rw [List.getElem?_append_left (List.getElem?_eq_some_iff.mp hk).1]
    exact hk
  · rintro ⟨hxs, hx⟩ k y hk
    rcases Nat.lt_trichotomy k xs.length with hlt | rfl | hgt
    · rw [List.getElem?_append_left hlt] at hk
      exact hxs k y hk
    · obtain rfl : x = y := by simpa using hk
      exact hx
    · rw [List.getElem?_eq_none (by simp; omega)] at hk
      simp at hk

/-- What arrived is what was offered exactly if every block arrived whole: no block can be longer
    than offered to make up for another. -/
theorem accepted_eq_iff (S : ℕ) (xs : List DataIrq) :
    (xs.mapIdx fun k x => acceptedOf S (k + 1) x).flatten = sampleBytes S (xs.map Prod.fst) ↔
      AllTaken S xs := by
  suffices h : (xs.mapIdx fun k x => acceptedOf S (k + 1) x).flatten.length ≤
      (sampleBytes S (xs.map Prod.fst)).length ∧
      ((xs.mapIdx fun k x => acceptedOf S (k + 1) x).flatten = sampleBytes S (xs.map Prod.fst) ↔
        AllTaken S xs) from h.2
  induction xs using List.reverseRecOn with
  | nil => exact ⟨le_rfl, by simp [sampleBytes, AllTaken]⟩
  | append_singleton xs x ih =>
    obtain ⟨hle, hiff⟩ := ih
    have hx := length_acceptedOf_le S xs.length x
    have hbytes : sampleBytes S ((xs ++ [x]).map Prod.fst) =
        sampleBytes S (xs.map Prod.fst) ++ blockOf S (xs.length + 1) x.1 := by
      simp [sampleBytes, List.mapIdx_concat]
    rw [hbytes, List.mapIdx_concat, List.flatten_append, List.flatten_singleton]
    refine ⟨by simp only [List.length_append]; omega, ?_⟩
    rw [allTaken_concat, ← hiff, ← acceptedOf_eq_iff]
    constructor
    · intro h
      have hlen := congrArg List.length h
      rw [List.length_append, List.length_append] at hlen
      exact List.append_inj h (by omega)
    · rintro ⟨h₁, h₂⟩
      rw [h₁, h₂]

/-- CORRECT (delivery to the PC): after a start interrupt in PC mode, the acquisition is no longer
    ready from call number `max 1 ⌈S / 65536⌉` on, whatever its `send`s return; and it is then
    complete at the PC, all `S` bytes in order, exactly if no `send` was short or failed. -/
theorem accepted_iff {b₀ b : Board} {uiSeconds : UInt32} {fopenOk : Bool}
    (hstart : mesgThread b₀ uiSeconds fopenOk = .ok b) (hpc : b₀.uiSavePC ≠ 0)
    (xs : List DataIrq) :
    ∃ s, run wireStep ⟨b, []⟩ xs = .ok s ∧
      (s.board.ucIsReady = false ↔ callsOf b.ulSampleLength.toNat ≤ xs.length) ∧
      ((s.board.ucIsReady = false → s.accepted.length = b.ulSampleLength.toNat ∧
          s.accepted = sampleBytes b.ulSampleLength.toNat (xs.map Prod.fst)) ↔
        (callsOf b.ulSampleLength.toNat ≤ xs.length → AllTaken b.ulSampleLength.toNat xs)) := by
  obtain ⟨-, -, -, -, hsave, -⟩ := mesgThread_ok hstart
  obtain ⟨s, hs, ⟨out, hp⟩, hacc⟩ := arrived_run hstart (hsave ▸ hpc) xs
  have hready : s.board.ucIsReady = false ↔ callsOf b.ulSampleLength.toNat ≤ xs.length := by
    rw [Bool.eq_false_iff, Ne, hp.ready, List.length_map, Nat.not_lt]
  refine ⟨s, hs, hready, ?_⟩
  rw [hready]
  refine imp_congr_right fun hdone => ?_
  rw [hacc, ← accepted_eq_iff]
  refine and_iff_right_of_imp fun hall => ?_
  have hle := le_of_callsOf_le hdone
  rw [hall, length_sampleBytes, List.length_map]
  omega

/-- One block of four bytes that the socket takes. -/
theorem accepted_iff_block :
    ∃ s, run wireStep ⟨mesgFlags { benchBoard with ulSampleLength := 4, uiSavePC := 1 }, []⟩
      [(zeroBram, fun _ => 4)] = .ok s ∧ s.board.ucIsReady = false ∧ s.accepted = [0, 0, 0, 0] := by
  have hstart : mesgThread { benchBoard with ulSampleLength := 4, uiSavePC := 1 } 0 true =
      .ok (mesgFlags { benchBoard with ulSampleLength := 4, uiSavePC := 1 }) := rfl
  obtain ⟨s, hs, hready, hiff⟩ := accepted_iff hstart (by decide) [(zeroBram, fun _ => 4)]
  have hfalse := hready.mpr (by decide)
  refine ⟨s, hs, hfalse, ?_⟩
  refine ((hiff.mpr fun _ => ?_) hfalse).2.trans rfl
  change AllTaken 4 ([] ++ [(zeroBram, fun _ => 4)])
  exact allTaken_concat.mpr ⟨fun k x hk => by simp at hk, by decide⟩

/-- A timeout on the only block of an acquisition: it is over, and the PC has nothing. -/
theorem accepted_lost : ¬ ∀ (b₀ b : Board) (uiSeconds : UInt32) (fopenOk : Bool)
    (xs : List DataIrq) (s : Wire), mesgThread b₀ uiSeconds fopenOk = .ok b → b₀.uiSavePC ≠ 0 →
    (∀ k x, xs[k]? = some x → Allowed (blockSize b.ulSampleLength.toNat k) x.2) →
    run wireStep ⟨b, []⟩ xs = .ok s → s.board.ucIsReady = false →
    s.accepted = sampleBytes b.ulSampleLength.toNat (xs.map Prod.fst) := by
  intro h
  have hlost := h { benchBoard with ulSampleLength := 4, uiSavePC := 1 } _ 0 true
    [(zeroBram, fun _ => -1)] _ rfl (by decide) ?_ rfl rfl
  · exact absurd hlost (by decide)
  · intro k x hk
    obtain rfl : x = (zeroBram, fun _ => -1) := by
      simpa using List.mem_of_getElem? hk
    exact ⟨Or.inl rfl, Or.inl rfl⟩

end AcqBoard.App
