import AcqBoard.App.DataFile
import AcqBoard.Schemes.Counting

/-! The third way to deliver: `UdpDeliverData`, also a commented-out line of the main loop.

    It is made for a recorder that counts instead of measuring: `GetAverageUnit` looks at every word of
    a block, prints the words where the count has a gap, and carries the count over to the next block
    in `s_cnt`. The block goes out in two datagrams, the second one only if the first one went; nothing
    asks what became of the second one. The wait for `CSR_PROG_FULL` is over when a block is read
    here. -/

namespace AcqBoard.App
open Schemes

/-- `Data[i]`. -/
def wordAt (w : Window) (i : ℕ) : UInt32 := (wordCodec.decode (window w (4 * i) 4)).getD 0

/-- The words that `GetAverageUnit` looks at. -/
def dataWords (w : Window) (len : ℕ) : List UInt32 := (List.range (len / 4)).map (wordAt w)

/-- `GetAverageUnit`: `s_cnt` behind the words, and what it prints of them. -/
def getAverageUnit (sCnt : UInt32) : List UInt32 → UInt32 × List (UInt32 × UInt32)
  | [] => (sCnt, [])
  | d :: data =>
    let sCnt := sCnt + 1
    if sCnt ≠ d then
      let r := getAverageUnit d data
      (r.1, (sCnt, d) :: r.2)
    else getAverageUnit sCnt data

/-- What one call finds: the result of `read`, the buffer behind it, whatever `read` left there, and
    the results of `sendto`. -/
structure UdpBlock where
  iRet : Int32
  dataBuff : Window
  sendto : ℕ → Int32

def UdpBlock.words (b : UdpBlock) : List UInt32 := dataWords b.dataBuff bramSize.toNat
def UdpBlock.bytes (b : UdpBlock) : List UInt8 := window b.dataBuff 0 bramSize.toNat

/-- `s_cnt`, what the program has printed, and the bytes that `sendto` has taken, call by call. -/
structure Udp where
  sCnt : UInt32
  printed : List (UInt32 × UInt32)
  datagrams : List (List UInt8)

/-- The bytes that `sendto` takes of the half `i`: as many as it returns, none if it fails. -/
def halfTaken (b : UdpBlock) (i : ℕ) : List UInt8 :=
  window b.dataBuff (i * 32768) (min (b.sendto i).toInt.toNat 32768)

/-- The loop over the two halves of the buffer. -/
def sendHalves (b : UdpBlock) : List (List UInt8) :=
  ((List.range 2).foldl (fun (r : Int32 × List (List UInt8)) i =>
    if r.1 > 0 then (b.sendto i, r.2 ++ [halfTaken b i]) else r)
    (b.iRet, [])).2

def udpDeliverData (s : Udp) (b : UdpBlock) : Udp :=
  let r := getAverageUnit s.sCnt b.words
  ⟨r.1, s.printed ++ r.2, s.datagrams ++ sendHalves b⟩

/-! ### The count -/

/-- What is to be told of the words that are lost behind the word `c`: the first of them and the first
    that arrives, unless 2^32 words or a multiple of them are lost. -/
def told : UInt32 → List Gap → List (UInt32 × UInt32)
  | _, [] => []
  | c, g :: gs =>
    (if 2 ^ 32 ∣ g.lost then [] else [(c + 1, c + UInt32.ofNat (g.lost + 1))]) ++
      told (c + UInt32.ofNat (g.lost + 1 + g.more)) gs

theorem getAverageUnit_eq (c : UInt32) (data : List UInt32) :
    getAverageUnit c data = (data.getLastD c, breaks (· + 1) c data) := by
  induction data generalizing c with
  | nil => rfl
  | cons d data ih =>
    rw [getAverageUnit, breaks, List.getLastD_cons]
    by_cases hd : c + 1 = d
    · rw [if_neg (not_not.mpr hd), if_pos hd, ih, hd, List.nil_append]
    · rw [if_pos hd, if_neg hd, ih]
      rfl

theorem succ_iterate (n : ℕ) (c : UInt32) : (· + 1)^[n] c = c + UInt32.ofNat n := by
  induction n with
  | zero => simp
  | succ n ih =>
    rw [Function.iterate_succ_apply', ih, UInt32.ofNat_add, UInt32.add_assoc]
    rfl

theorem succ_back (n : ℕ) (c : UInt32) : (· + 1)^[n] c = c ↔ 2 ^ 32 ∣ n := by
  rw [succ_iterate, UInt32.add_eq_left, ← UInt32.toNat_inj, UInt32.toNat_ofNat',
    Nat.dvd_iff_mod_eq_zero]
  rfl

theorem losses_eq_told (c : UInt32) (gs : List Gap) : losses (· + 1) c gs = told c gs := by
  induction gs generalizing c with
  | nil => rfl
  | cons g gs ih =>
    have hlast : g.last (· + 1) c = c + UInt32.ofNat (g.lost + 1 + g.more) := by
      rw [Gap.last, ← Function.iterate_add_apply, succ_iterate, Nat.add_comm]
    rw [losses, told, ih, hlast, succ_iterate (g.lost + 1)]
    simp only [succ_back]

/-- Every word comes up in the count. -/
theorem succ_reaches (c x : UInt32) : ∃ n, (· + 1)^[n + 1] c = x := by
  refine ⟨(x - c - 1).toNat, ?_⟩
  rw [succ_iterate, UInt32.ofNat_add, UInt32.ofNat_toNat]
  change c + (x - c - 1 + 1) = x
  rw [UInt32.sub_add_cancel, UInt32.add_comm, UInt32.sub_add_cancel]

/-! ### The datagrams -/

theorem sendHalves_eq (b : UdpBlock) : sendHalves b =
    if b.iRet > 0 then halfTaken b 0 :: if b.sendto 0 > 0 then [halfTaken b 1] else [] else [] := by
  have hrange : List.range 2 = [0, 1] := rfl
  rw [sendHalves, hrange, List.foldl_cons, List.foldl_cons, List.foldl_nil]
  by_cases hread : b.iRet > 0
  · rw [if_pos hread, if_pos hread]
    by_cases hsend : b.sendto 0 > 0
    · rw [if_pos hsend, if_pos hsend]
      rfl
    · rw [if_neg hsend, if_neg hsend]
      rfl
  · rw [if_neg hread, if_neg hread, if_neg hread]

/-- The whole block goes out: it is read, and `sendto` takes both halves. -/
def Whole (b : UdpBlock) : Prop := b.iRet > 0 ∧ ∀ i < 2, 32768 ≤ (b.sendto i).toInt

theorem int32_pos {x : Int32} : x > 0 ↔ 0 < x.toInt := Int32.lt_iff_toInt_lt

theorem length_halfTaken (b : UdpBlock) (i : ℕ) :
    (halfTaken b i).length = min (b.sendto i).toInt.toNat 32768 := length_window _ _ _

theorem flatten_sendHalves {b : UdpBlock} (h : Whole b) : (sendHalves b).flatten = b.bytes := by
  have hsize : bramSize.toNat = 32768 + 32768 := rfl
  have hfull : ∀ i < 2, min (b.sendto i).toInt.toNat 32768 = 32768 := by
    intro i hi
    have := h.2 i hi
    omega
  have hfirst : b.sendto 0 > 0 := by
    have := h.2 0 (by omega)
    exact int32_pos.mpr (by omega)
  rw [sendHalves_eq, if_pos h.1, if_pos hfirst, UdpBlock.bytes, hsize, ← window_append, halfTaken,
    halfTaken, hfull 0 (by omega), hfull 1 (by omega)]
  simp

/-- A block that is not whole is short. -/
theorem length_sendHalves (b : UdpBlock) : (sendHalves b).flatten.length ≤ b.bytes.length ∧
    ((sendHalves b).flatten.length = b.bytes.length → Whole b) := by
  have hsize : b.bytes.length = 65536 := length_window _ _ _
  have h₀ := length_halfTaken b 0
  have h₁ := length_halfTaken b 1
  rw [sendHalves_eq, hsize]
  by_cases hread : b.iRet > 0
  · rw [if_pos hread]
    by_cases hsend : b.sendto 0 > 0
    · rw [if_pos hsend]
      simp only [List.flatten_cons, List.flatten_nil, List.append_nil, List.length_append]
      refine ⟨by omega, fun h => ⟨hread, fun i hi => ?_⟩⟩
      obtain rfl | rfl : i = 0 ∨ i = 1 := by omega
      · omega
      · omega
    · rw [if_neg hsend]
      simp only [List.flatten_cons, List.flatten_nil, List.append_nil]
      exact ⟨by omega, fun h => by omega⟩
  · rw [if_neg hread]
    exact ⟨by simp, fun h => by simp at h⟩

theorem length_halves (bs : List UdpBlock) :
    (bs.flatMap sendHalves).flatten.length ≤ (bs.flatMap UdpBlock.bytes).length := by
  induction bs with
  | nil => exact Nat.le_refl 0
  | cons b bs ih =>
    rw [List.flatMap_cons, List.flatMap_cons, List.flatten_append, List.length_append,
      List.length_append]
    exact Nat.add_le_add (length_sendHalves b).1 ih

/-- The bytes of all blocks arrive only if each block goes out whole. -/
theorem whole_iff (bs : List UdpBlock) :
    (bs.flatMap sendHalves).flatten = bs.flatMap UdpBlock.bytes ↔ ∀ b ∈ bs, Whole b := by
  induction bs with
  | nil => simp
  | cons b bs ih =>
    obtain ⟨hle, hwhole⟩ := length_sendHalves b
    rw [List.flatMap_cons, List.flatMap_cons, List.flatten_append, List.forall_mem_cons, ← ih]
    constructor
    · intro h
      have hlen := congrArg List.length h
      have hrest := length_halves bs
      rw [List.length_append, List.length_append] at hlen
      have hb : Whole b := hwhole (by omega)
      refine ⟨hb, ?_⟩
      rw [flatten_sendHalves hb] at h
      exact List.append_cancel_left h
    · rintro ⟨hb, hrest⟩
      rw [flatten_sendHalves hb, hrest]

/-! ### Runs -/

theorem udpRun_eq (s : Udp) (bs : List UdpBlock) : bs.foldl udpDeliverData s =
    ⟨(bs.flatMap UdpBlock.words).getLastD s.sCnt,
      s.printed ++ breaks (· + 1) s.sCnt (bs.flatMap UdpBlock.words),
      s.datagrams ++ bs.flatMap sendHalves⟩ := by
  induction bs generalizing s with
  | nil => simp [breaks]
  | cons b bs ih =>
    rw [List.foldl_cons, ih, udpDeliverData, getAverageUnit_eq, List.flatMap_cons, List.flatMap_cons,
      breaks_append, getLastD_append]
    simp only [List.append_assoc]

/-- CORRECT (count): whatever words are lost between the recorder and the program, and wherever blocks
    begin, the program prints the losses but for those of multiples of 2^32 words, and nothing else;
    any words it can find come about this way. The blocks' bytes go out in full exactly if each block
    is read and `sendto` takes both of its halves. -/
theorem udpDeliverData_tells (sCnt : UInt32) (bs : List UdpBlock) :
    (∃ gs, bs.flatMap UdpBlock.words = arrivals (· + 1) sCnt gs) ∧
    (∀ gs, bs.flatMap UdpBlock.words = arrivals (· + 1) sCnt gs →
      (bs.foldl udpDeliverData ⟨sCnt, [], []⟩).printed = told sCnt gs) ∧
    ((bs.foldl udpDeliverData ⟨sCnt, [], []⟩).datagrams.flatten = bs.flatMap UdpBlock.bytes ↔
      ∀ b ∈ bs, Whole b) := by
  rw [udpRun_eq]
  refine ⟨?_, fun gs hgs => ?_, whole_iff bs⟩
  · obtain ⟨gs, hgs⟩ := exists_arrivals succ_reaches (c := sCnt) (bs.flatMap UdpBlock.words)
    exact ⟨gs, hgs.symm⟩
  · have hinj : Function.Injective fun x : UInt32 => x + 1 := fun x y => (UInt32.add_left_inj 1).mp
    rw [hgs, breaks_arrivals hinj, losses_eq_told]
    rfl

/-- A block of a recorder that counts on from `c`. -/
def countingBlock (c : UInt32) : UdpBlock where
  iRet := 65536
  dataBuff k := (le32 (c + UInt32.ofNat (k / 4))).getD (k % 4) 0
  sendto _ := 32768

theorem wordAt_counting (c : UInt32) (i : ℕ) :
    wordAt (countingBlock c).dataBuff i = c + UInt32.ofNat i := by
  have hbyte : ∀ j < 4, (countingBlock c).dataBuff (4 * i + j) =
      (le32 (c + UInt32.ofNat i)).getD j 0 := by
    intro j hj
    have hdiv : (4 * i + j) / 4 = i := by omega
    have hmod : (4 * i + j) % 4 = j := by omega
    change (le32 (c + UInt32.ofNat ((4 * i + j) / 4))).getD ((4 * i + j) % 4) 0 = _
    rw [hdiv, hmod]
  have hwindow : window (countingBlock c).dataBuff (4 * i) 4 = le32 (c + UInt32.ofNat i) := by
    have hrange : List.range 4 = [0, 1, 2, 3] := rfl
    rw [window, hrange, List.map_cons, List.map_cons, List.map_cons, List.map_cons, List.map_nil,
      hbyte 0 (by decide), hbyte 1 (by decide), hbyte 2 (by decide), hbyte 3 (by decide)]
    rfl
  have hdecode : wordCodec.decode (le32 (c + UInt32.ofNat i)) = some (c + UInt32.ofNat i) :=
    wordCodec.decode_encode _
  rw [wordAt, hwindow, hdecode]
  rfl

theorem words_counting (c : UInt32) :
    (countingBlock c).words = List.iterate (· + 1) c 16384 := by
  have hlen : bramSize.toNat / 4 = 16384 := rfl
  rw [UdpBlock.words, dataWords, hlen, ← List.range_map_iterate]
  refine List.map_congr_left fun i _ => ?_
  rw [wordAt_counting, succ_iterate]

/-- Two blocks with five words lost in front of the second one: it begins with 16390 instead of 16385. -/
theorem udpDeliverData_tells_five :
    ([countingBlock 1, countingBlock 16390].foldl udpDeliverData ⟨0, [], []⟩).printed =
      [(16385, 16390)] := by
  refine ((udpDeliverData_tells 0 [countingBlock 1, countingBlock 16390]).2.1
    [⟨0, 16383⟩, ⟨5, 16383⟩] ?_).trans (by decide)
  rw [List.flatMap_cons, List.flatMap_cons, List.flatMap_nil, words_counting, words_counting]
  simp only [arrivals, Gap.last, succ_iterate, List.append_nil]
  rfl

end AcqBoard.App
