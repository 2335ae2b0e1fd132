import AcqBoard.App.Lfsr
import AcqBoard.Schemes.Word
import Mathlib.Algebra.Ring.Parity
import Mathlib.Data.Finset.Card
import Mathlib.Data.Finset.Max
import Mathlib.Data.Nat.Bitwise
import Mathlib.Data.Nat.Size

/-! The bit functions of `lfsr.c`.

    `GetBitSet` and `GetBitNum` look at the bits of a polynomial, `BitToHex` packs bytes that are 0
    or 1 into a word, and the last loop of `GetLfsrUint` packs an array of them. That loop takes one
    byte more than the loop in front of it has filled, so the last bit of the table comes from the
    stack. -/

namespace AcqBoard.Lfsr
open Schemes

/-! ### The bits of a polynomial -/

/-- The positions of the set bits. -/
def positions (uiValue : UInt32) : Finset ℕ := {i ∈ Finset.range 32 | uiValue.toNat.testBit i}

/-- The highest position, 0 if there is none. -/
def highest (s : Finset ℕ) : ℕ := if h : s.Nonempty then s.max' h else 0

/-- The lowest set bit is cleared. -/
theorem toNat_clear_lt {uiValue : UInt32} (h : uiValue ≠ 0) :
    (uiValue &&& (uiValue - 1)).toNat < uiValue.toNat := by
  have hpos : 1 ≤ uiValue.toNat := by
    rw [Nat.one_le_iff_ne_zero]
    exact fun h0 => h (UInt32.toNat_inj.mp h0)
  have hsub : (uiValue - 1).toNat = uiValue.toNat - 1 := UInt32.toNat_sub_of_le _ _ hpos
  rw [UInt32.toNat_and, hsub]
  have hle : uiValue.toNat &&& (uiValue.toNat - 1) ≤ uiValue.toNat - 1 := Nat.and_le_right
  omega

/-- The loop of `GetBitNum`. It ends: every turn clears a bit. -/
def bitNumLoop (uiValue uiRet : UInt32) : UInt32 :=
  if uiValue = 0 then uiRet else bitNumLoop (uiValue &&& (uiValue - 1)) (uiRet + 1)
termination_by uiValue.toNat
decreasing_by exact toNat_clear_lt ‹_›

def getBitNum (uiValue : UInt32) : UInt32 := bitNumLoop uiValue 0

section
variable {uiValue : UInt32} {m k : ℕ}

@[simp] theorem mem_positions : k ∈ positions uiValue ↔ uiValue.toNat.testBit k = true := by
  simp only [positions, Finset.mem_filter, Finset.mem_range, and_iff_right_iff_imp]
  intro h
  by_contra hk
  rw [testBit_high uiValue (Nat.not_lt.mp hk)] at h
  cases h

/-- `x & (x - 1)` is `x` without its lowest bit, by induction on the number of its zeros. -/
theorem exists_lowest {x : ℕ} (h : x ≠ 0) : ∃ k, x.testBit k = true ∧
    ∀ i, (x &&& (x - 1)).testBit i = true ↔ x.testBit i = true ∧ i ≠ k := by
  induction x using Nat.strong_induction_on with
  | _ x ih =>
    rcases Nat.even_or_odd' x with ⟨y, rfl | rfl⟩
    · obtain ⟨k, hk, hclear⟩ := ih y (by omega) (by omega)
      have hhalf : 2 * y / 2 = y := by omega
      have hpred : (2 * y - 1) / 2 = y - 1 := by omega
      refine ⟨k + 1, by rwa [Nat.testBit_succ, hhalf], fun i => ?_⟩
      cases i with
      | zero => simp
      | succ i =>
        rw [Nat.testBit_and, Nat.testBit_succ, Nat.testBit_succ, hhalf, hpred, ← Nat.testBit_and,
          hclear, Ne, Ne, Nat.succ_inj]
    · have hhalf : (2 * y + 1) / 2 = y := by omega
      refine ⟨0, by simp, fun i => ?_⟩
      cases i with
      | zero => simp
      | succ i =>
        have hpred : (2 * y + 1 - 1) / 2 = y := by omega
        rw [Nat.testBit_and, Nat.testBit_succ, Nat.testBit_succ, hhalf, hpred]
        simp

theorem positions_clear (h : uiValue ≠ 0) : ∃ k ∈ positions uiValue,
    positions (uiValue &&& (uiValue - 1)) = (positions uiValue).erase k := by
  have hne : uiValue.toNat ≠ 0 := fun h0 => h (UInt32.toNat_inj.mp h0)
  have hsub : (uiValue - 1).toNat = uiValue.toNat - 1 :=
    UInt32.toNat_sub_of_le _ _ (Nat.one_le_iff_ne_zero.mpr hne)
  obtain ⟨k, hk, hclear⟩ := exists_lowest hne
  refine ⟨k, mem_positions.mpr hk, Finset.ext fun i => ?_⟩
  rw [mem_positions, Finset.mem_erase, mem_positions, UInt32.toNat_and, hsub, hclear, and_comm]

theorem card_positions_le (uiValue : UInt32) : (positions uiValue).card ≤ 32 := by
  have hcard := Finset.card_filter_le (Finset.range 32) fun i => uiValue.toNat.testBit i = true
  rwa [Finset.card_range] at hcard

/-- Loop lemma, by induction on the bits that are left. -/
theorem toNat_bitNumLoop {uiRet : UInt32} (h : uiRet.toNat + (positions uiValue).card < 2 ^ 32) :
    (bitNumLoop uiValue uiRet).toNat = uiRet.toNat + (positions uiValue).card := by
  induction hn : (positions uiValue).card generalizing uiValue uiRet with
  | zero =>
    have hzero : uiValue = 0 := by
      by_contra hne
      obtain ⟨k, hk, -⟩ := positions_clear hne
      rw [Finset.card_eq_zero.mp hn] at hk
      cases hk
    rw [bitNumLoop, if_pos hzero, Nat.add_zero]
  | succ n ih =>
    have hne : uiValue ≠ 0 := by
      rintro rfl
      cases hn
    obtain ⟨k, hk, hclear⟩ := positions_clear hne
    have hcard : (positions (uiValue &&& (uiValue - 1))).card = n := by
      rw [hclear, Finset.card_erase_of_mem hk, hn, Nat.add_sub_cancel]
    have hret : (uiRet + 1).toNat = uiRet.toNat + 1 := by
      rw [UInt32.toNat_add, UInt32.toNat_one]
      exact Nat.mod_eq_of_lt (by omega)
    rw [bitNumLoop, if_neg hne, ih (by omega) hcard, hret]
    omega

theorem toNat_getBitNum (uiValue : UInt32) :
    (getBitNum uiValue).toNat = (positions uiValue).card := by
  have hle := card_positions_le uiValue
  rw [getBitNum, toNat_bitNumLoop]
  · exact Nat.zero_add _
  · exact lt_of_le_of_lt (Nat.add_le_add_left hle _) (by simp)

end

/-! ### The two highest bits -/

/-- The positions below `m`. -/
def below (uiValue : UInt32) (m : ℕ) : Finset ℕ := {i ∈ Finset.range m | uiValue.toNat.testBit i}

section
variable {uiValue i : UInt32} {m : ℕ}

theorem highest_mem {s : Finset ℕ} (h : s.Nonempty) : highest s ∈ s := by
  rw [highest, dif_pos h]
  exact s.max'_mem h

theorem le_highest {s : Finset ℕ} {k : ℕ} (h : k ∈ s) : k ≤ highest s := by
  rw [highest, dif_pos ⟨k, h⟩]
  exact s.le_max' k h

theorem highest_insert (s : Finset ℕ) (hs : ∀ k ∈ s, k < m) : highest (insert m s) = m := by
  refine le_antisymm ?_ (le_highest (Finset.mem_insert_self m s))
  rcases Finset.mem_insert.mp (highest_mem (Finset.insert_nonempty m s)) with h | h
  · exact h.le
  · exact (hs _ h).le

theorem below_succ (uiValue : UInt32) (m : ℕ) : below uiValue (m + 1) =
    if uiValue.toNat.testBit m then insert m (below uiValue m) else below uiValue m := by
  rw [below, Finset.range_add_one, Finset.filter_insert]
  rfl

theorem lt_of_mem_below {k : ℕ} (h : k ∈ below uiValue m) : k < m :=
  Finset.mem_range.mp (Finset.mem_filter.mp h).1

theorem not_mem_below : m ∉ below uiValue m := fun h => Nat.lt_irrefl m (lt_of_mem_below h)

/-- The mask picks bit `31 - i`. -/
theorem mask_iff (hm : m < 32) (hi : i.toNat = 31 - m) :
    0x80000000 = 0x80000000 &&& (uiValue <<< i) ↔ uiValue.toNat.testBit m = true := by
  have hmask : (0x80000000 : UInt32).toNat = 2 ^ 31 := rfl
  have hshift : (uiValue <<< i).toNat.testBit 31 = uiValue.toNat.testBit m := by
    rw [testBit_shiftLeft _ _ (by omega) (by decide), decide_eq_true (by omega), Bool.true_and, hi]
    congr 1
    omega
  rw [← hshift, ← UInt32.toNat_inj, UInt32.toNat_and, hmask, Nat.and_comm, Nat.and_two_pow]
  cases (uiValue <<< i).toNat.testBit 31 <;> simp

theorem toNat_position (hm : m < 32) (hi : i.toNat = 31 - m) : (32 - i - 1).toUInt8.toNat = m := by
  have h32 : (32 : UInt32).toNat = 32 := rfl
  have h1 : (1 : UInt32).toNat = 1 := rfl
  have hsub : (32 - i).toNat = 32 - i.toNat :=
    UInt32.toNat_sub_of_le _ _ (UInt32.le_iff_toNat_le.mpr (by omega))
  have hsub' : (32 - i - 1).toNat = 32 - i.toNat - 1 := by
    rw [UInt32.toNat_sub_of_le _ _ (UInt32.le_iff_toNat_le.mpr (by omega)), hsub, h1]
  rw [UInt32.toNat_toUInt8, hsub']
  omega

theorem toNat_next (hm : m < 32) (hi : i.toNat = 31 - m) : (i + 1).toNat = 32 - m := by
  rw [UInt32.toNat_add, UInt32.toNat_one, Nat.mod_eq_of_lt (by omega)]
  omega

variable (uiValue) in
/-- Once the highest bit is found, the loop looks for the next one. -/
theorem bitSetLoop_second {ucFirst : UInt8} (hf : ucFirst ≠ 0) (hm : m ≤ 32)
    (hi : i.toNat = 32 - m) : (bitSetLoop uiValue m i ucFirst).1 = ucFirst ∧
      (bitSetLoop uiValue m i ucFirst).2.toNat = highest (below uiValue m) := by
  induction m generalizing i with
  | zero => exact ⟨rfl, rfl⟩
  | succ m ih =>
    have hi' : i.toNat = 31 - m := by omega
    rw [bitSetLoop, below_succ]
    by_cases hbit : uiValue.toNat.testBit m = true
    · rw [if_pos ((mask_iff (by omega) hi').mpr hbit), if_neg hf, if_pos hbit,
        highest_insert _ fun k => lt_of_mem_below]
      exact ⟨rfl, toNat_position (by omega) hi'⟩
    · rw [if_neg (mt (mask_iff (by omega) hi').mp hbit), if_neg hbit]
      exact ih (by omega) (toNat_next (by omega) hi')

variable (uiValue) in
/-- Loop lemma, by induction on the bits that are left. The mark `0` for "not found yet" is a position,
    too, but there is no bit behind it. -/
theorem bitSetLoop_first (hm : m ≤ 32) (hi : i.toNat = 32 - m) :
    (bitSetLoop uiValue m i 0).1.toNat = highest (below uiValue m) ∧
      (bitSetLoop uiValue m i 0).2.toNat =
        highest ((below uiValue m).erase (highest (below uiValue m))) := by
  induction m generalizing i with
  | zero => exact ⟨rfl, rfl⟩
  | succ m ih =>
    have hi' : i.toNat = 31 - m := by omega
    have hnext := toNat_next (show m < 32 by omega) hi'
    rw [bitSetLoop, below_succ]
    by_cases hbit : uiValue.toNat.testBit m = true
    · rw [if_pos ((mask_iff (by omega) hi').mpr hbit), if_pos rfl, if_pos hbit,
        highest_insert _ fun k => lt_of_mem_below, Finset.erase_insert not_mem_below]
      have hpos := toNat_position (show m < 32 by omega) hi'
      cases m with
      | zero => exact ⟨hpos, rfl⟩
      | succ m =>
        have hf : (32 - i - 1).toUInt8 ≠ 0 := by
          intro h0
          rw [h0] at hpos
          cases hpos
        obtain ⟨hfirst, hsecond⟩ := bitSetLoop_second uiValue hf (by omega) hnext
        exact ⟨by rw [hfirst, hpos], hsecond⟩
    · rw [if_neg (mt (mask_iff (by omega) hi').mp hbit), if_neg hbit]
      exact ih (by omega) hnext

end

/-- `GetBitSet` returns the positions of the two highest set bits, and `GetBitNum` the number of all:
    if there are two, the positions are two set bits, the higher one first. -/
theorem getBitSet_getBitNum (uiValue : UInt32) :
    (getBitSet uiValue).1.toNat = highest (positions uiValue) ∧
    (getBitSet uiValue).2.toNat =
      highest ((positions uiValue).erase (highest (positions uiValue))) ∧
    (getBitNum uiValue).toNat = (positions uiValue).card ∧
    (2 ≤ (getBitNum uiValue).toNat →
      (getBitSet uiValue).2.toNat < (getBitSet uiValue).1.toNat ∧
      uiValue.toNat.testBit (getBitSet uiValue).1.toNat = true ∧
      uiValue.toNat.testBit (getBitSet uiValue).2.toNat = true) := by
  have hloop := bitSetLoop_first uiValue (i := 0) (Nat.le_refl 32) rfl
  obtain ⟨hfirst, hsecond⟩ : (getBitSet uiValue).1.toNat = highest (positions uiValue) ∧
      (getBitSet uiValue).2.toNat =
        highest ((positions uiValue).erase (highest (positions uiValue))) := hloop
  refine ⟨hfirst, hsecond, toNat_getBitNum uiValue, fun htwo => ?_⟩
  rw [toNat_getBitNum] at htwo
  rw [hfirst, hsecond, ← mem_positions, ← mem_positions]
  have hmem : highest (positions uiValue) ∈ positions uiValue :=
    highest_mem (Finset.card_pos.mp (by omega))
  have hcard : 0 < ((positions uiValue).erase (highest (positions uiValue))).card := by
    rw [Finset.card_erase_of_mem hmem]
    omega
  obtain ⟨hne, hmem'⟩ := Finset.mem_erase.mp (highest_mem (Finset.card_pos.mp hcard))
  exact ⟨lt_of_le_of_ne (le_highest hmem') hne, hmem, hmem'⟩

/-! ### The packing -/

/-- An array of bytes that are 0 or 1. -/
structure BitArray (len : ℕ) where
  bytes : List UInt8
  length_eq : bytes.length = len
  bit : ∀ b ∈ bytes, b = 0 ∨ b = 1

def BitArray.entry {len : ℕ} (a : BitArray len) (i : ℕ) : UInt8 := a.bytes.getD i 0

/-- The words of the last loop of `GetLfsrUint`: `puiBuff[j] = BitToHex(&bitBuff[j*32], 32)`. -/
def packWords (bitBuff : ℕ → UInt8) (m : ℕ) : List UInt32 :=
  (List.range m).map fun j => bitToHex (fun k => bitBuff (j * 32 + k)) 32 0

section
variable {bits : ℕ → UInt8} {len m i k : ℕ}

theorem testBit_byte {b : UInt8} (hb : b = 0 ∨ b = 1) (k : ℕ) :
    b.toUInt32.toNat.testBit k = (decide (k = 0) && decide (b = 1)) := by
  rcases hb with rfl | rfl
  · simp
  · have h1 : (1 : UInt8).toUInt32.toNat = 2 ^ 0 := rfl
    rw [h1, Nat.testBit_two_pow, decide_eq_true rfl, Bool.and_true]
    exact decide_eq_decide.mpr eq_comm

/-- What is packed already moves up by `m`, and the next `m` bytes are the bits below it. -/
theorem testBit_bitToHex (hb : ∀ j < m, bits j = 0 ∨ bits j = 1) (hk : k < 32) (uiHex : UInt32) :
    (bitToHex bits m uiHex).toNat.testBit k =
      if k < m then decide (bits k = 1) else uiHex.toNat.testBit (k - m) := by
  induction m generalizing uiHex with
  | zero => rfl
  | succ m ih =>
    have h1 : (1 : UInt32).toNat = 1 := rfl
    rw [bitToHex, ih fun j hj => hb j (by omega)]
    rcases Nat.lt_or_ge k m with hlt | hge
    · rw [if_pos hlt, if_pos (by omega)]
    · rw [if_neg (by omega), UInt32.toNat_or, Nat.testBit_or,
        testBit_shiftLeft _ _ (by decide) (by omega), testBit_byte (hb m (by omega)), h1]
      rcases Nat.eq_or_lt_of_le hge with rfl | hgt
      · rw [if_pos (by omega), Nat.sub_self]
        rfl
      · rw [if_neg (by omega), decide_eq_true (show 1 ≤ k - m by omega),
          decide_eq_false (show ¬ k - m = 0 by omega), Bool.false_and, Bool.or_false, Nat.sub_sub]
        rfl

theorem BitArray.entry_bit (a : BitArray len) (i : ℕ) : a.entry i = 0 ∨ a.entry i = 1 := by
  rcases Nat.lt_or_ge i a.bytes.length with hi | hi
  · rw [entry, List.getD_eq_getElem _ _ hi]
    exact a.bit _ (List.getElem_mem hi)
  · exact Or.inl (List.getD_eq_default _ _ hi)

theorem toNat_bit {b : UInt8} (hb : b = 0 ∨ b = 1) : (decide (b = 1)).toNat = b.toNat := by
  rcases hb with rfl | rfl <;> rfl

theorem bitToHex_entry (a : BitArray len) (hlen : len ≤ 32) (k : ℕ) :
    ((bitToHex a.entry len 0).toNat.testBit k).toNat = if k < len then (a.entry k).toNat else 0 := by
  rcases Nat.lt_or_ge k 32 with hk | hk
  · rw [testBit_bitToHex (fun j _ => a.entry_bit j) hk]
    split
    · exact toNat_bit (a.entry_bit k)
    · rw [UInt32.toNat_zero, Nat.zero_testBit]
      rfl
  · rw [testBit_high _ hk, if_neg (by omega)]
    rfl

@[simp] theorem length_packWords (bitBuff : ℕ → UInt8) (m : ℕ) : (packWords bitBuff m).length = m := by
  simp [packWords]

theorem getD_packWords (bitBuff : ℕ → UInt8) {j : ℕ} (hj : j < m) : (packWords bitBuff m).getD j 0 =
    bitToHex (fun k => bitBuff (j * 32 + k)) 32 0 := by
  rw [List.getD_eq_getElem _ _ (by simpa using hj)]
  simp [packWords]

theorem packWords_entry (a : BitArray (32 * m)) (hi : i < 32 * m) :
    (((packWords a.entry m).getD (i / 32) 0).toNat.testBit (i % 32)).toNat = (a.entry i).toNat := by
  have hmod : i % 32 < 32 := Nat.mod_lt _ (by decide)
  rw [getD_packWords _ (by omega), testBit_bitToHex (fun j _ => a.entry_bit _) hmod, if_pos hmod,
    Nat.div_add_mod']
  exact toNat_bit (a.entry_bit i)

theorem packWords_inj {m' : ℕ} (a : BitArray (32 * m)) (b : BitArray (32 * m'))
    (h : packWords a.entry m = packWords b.entry m') : a.bytes = b.bytes := by
  obtain rfl : m = m' := by
    rw [← length_packWords a.entry m, h, length_packWords]
  refine List.ext_getElem (a.length_eq.trans b.length_eq.symm) fun i ha hb => ?_
  have hi : i < 32 * m := by rwa [a.length_eq] at ha
  have hread := packWords_entry b hi
  rw [← h, packWords_entry a hi] at hread
  rw [← List.getD_eq_getElem _ 0 ha, ← List.getD_eq_getElem _ 0 hb]
  exact UInt8.toNat_inj.mp hread

end

/-- `BitToHex` puts entry `k` into bit `k`, and the packing loop puts entry `i` into bit `i % 32` of
    word `i / 32`: the words tell the array. -/
theorem bitToHex_packWords :
    (∀ (len : ℕ) (a : BitArray len), len ≤ 32 → ∀ k,
      ((bitToHex a.entry len 0).toNat.testBit k).toNat =
        if k < len then (a.entry k).toNat else 0) ∧
    (∀ (m : ℕ) (a : BitArray (32 * m)), (packWords a.entry m).length = m ∧
      ∀ i < 32 * m, (((packWords a.entry m).getD (i / 32) 0).toNat.testBit (i % 32)).toNat =
        (a.entry i).toNat) ∧
    (∀ (m m' : ℕ) (a : BitArray (32 * m)) (b : BitArray (32 * m')), a.bytes ≠ b.bytes →
      packWords a.entry m ≠ packWords b.entry m') :=
  ⟨fun _ a hlen k => bitToHex_entry a hlen k,
    fun m a => ⟨length_packWords a.entry m, fun _ hi => packWords_entry a hi⟩,
    fun _ _ a b hne h => hne (packWords_inj a b h)⟩

/-! ### The words of the table -/

section
variable {n : UInt32} {i k : ℕ}

/-- The array after the first loop of `GetLfsrUint`, which fills all but the last of its bytes. -/
def filled (bitBuff : ℕ → UInt8) (uiNum : ℕ) (i : ℕ) : UInt8 := if i < uiNum then 0 else bitBuff i

/-- A word of the table is packed from the filled array. -/
theorem getLfsrUint_word (bitBuff : ℕ → UInt8) (uiSeed uiValue : UInt32) (puiBuff : ℕ → UInt32)
    (hn5 : 5 ≤ n.toNat) (hn11 : n.toNat ≤ 11) {j : ℕ} (hj : j < 2 ^ n.toNat / 32) :
    getLfsrUint bitBuff uiSeed uiValue puiBuff n j =
      bitToHex (fun k => filled bitBuff (2 ^ n.toNat - 1) (j * 32 + k)) 32 0 := by
  have hle : ¬ n > 11 := by
    intro h
    have h11 : (11 : UInt32).toNat < n.toNat := UInt32.lt_iff_toNat_lt.mp h
    have heq : (11 : UInt32).toNat = 11 := rfl
    omega
  have hpow : (power n).toNat = 2 ^ n.toNat := toNat_power_small (by omega)
  have hone : (1 : UInt32) ≤ power n := by
    rw [UInt32.le_iff_toNat_le, hpow]
    exact Nat.one_le_two_pow
  have hnum : (power n - 1).toNat = 2 ^ n.toNat - 1 := by
    rw [UInt32.toNat_sub_of_le _ _ hone, hpow]
    rfl
  have hwords : ((power n - 1 + 1) / 32).toNat = 2 ^ n.toNat / 32 := by
    rw [UInt32.sub_add_cancel, UInt32.toNat_div, hpow]
    rfl
  rw [getLfsrUint, if_neg hle]
  dsimp only
  rw [hwords, if_pos hj, hnum]
  rfl

theorem getLfsrUint_words (bitBuff : ℕ → UInt8) (uiSeed uiValue : UInt32) (puiBuff : ℕ → UInt32)
    (hn5 : 5 ≤ n.toNat) (hn11 : n.toNat ≤ 11) :
    (List.range (2 ^ n.toNat / 32)).map (getLfsrUint bitBuff uiSeed uiValue puiBuff n) =
      packWords (filled bitBuff (2 ^ n.toNat - 1)) (2 ^ n.toNat / 32) :=
  List.map_congr_left fun _ hj =>
    getLfsrUint_word bitBuff uiSeed uiValue puiBuff hn5 hn11 (List.mem_range.mp hj)

/-- The code bits are zeros. Of the byte behind them only the lowest bit stays in the word: it is
    packed first, so that the others are shifted out. -/
theorem testBit_getLfsrUint (bitBuff : ℕ → UInt8) (uiSeed uiValue : UInt32) (puiBuff : ℕ → UInt32)
    (hn5 : 5 ≤ n.toNat) (hn11 : n.toNat ≤ 11) {j : ℕ} (hj : j < 2 ^ n.toNat / 32) (hk : k < 32) :
    (getLfsrUint bitBuff uiSeed uiValue puiBuff n j).toNat.testBit k =
      (decide (j * 32 + k = 2 ^ n.toNat - 1) && (bitBuff (2 ^ n.toNat - 1)).toNat.testBit 0) := by
  have hcode : ∀ i < 2 ^ n.toNat - 1, filled bitBuff (2 ^ n.toNat - 1) i = 0 := fun i hi => if_pos hi
  obtain ⟨d, hd⟩ := Nat.exists_eq_add_of_le hn5
  have hpow : 2 ^ n.toNat = 32 * 2 ^ d := by rw [hd, Nat.pow_add]
  rw [getLfsrUint_word bitBuff uiSeed uiValue puiBuff hn5 hn11 hj, bitToHex,
    testBit_bitToHex (fun i hi => Or.inl (hcode _ (by omega))) hk]
  rcases Nat.lt_or_ge k 31 with hlt | hge
  · rw [if_pos hlt, hcode _ (by omega), decide_eq_false (by decide), decide_eq_false (by omega),
      Bool.false_and]
  · obtain rfl : k = 31 := by omega
    have hzero : (0 : UInt32) <<< 1 = 0 := rfl
    rw [if_neg (by decide), Nat.sub_self, hzero, UInt32.zero_or, UInt8.toNat_toUInt32]
    rcases Nat.lt_or_ge (j * 32 + 31) (2 ^ n.toNat - 1) with hlt' | hge'
    · rw [hcode _ hlt', decide_eq_false (by omega), Bool.false_and]
      exact Nat.zero_testBit 0
    · obtain heq : j * 32 + 31 = 2 ^ n.toNat - 1 := by omega
      rw [filled, if_neg (by omega), heq, decide_eq_true rfl, Bool.true_and]

end

/-- CORRECT (stack): two calls store the same words exactly if the stack bytes behind the code have the
    same lowest bit, whatever seeds and polynomials are. -/
theorem getLfsrUint_stack_iff {n : UInt32} (hn5 : 5 ≤ n.toNat) (hn11 : n.toNat ≤ 11)
    (bitBuff bitBuff' : ℕ → UInt8) (uiSeed uiValue : UInt32) (puiBuff puiBuff' : ℕ → UInt32) :
    (∀ j < 2 ^ n.toNat / 32, getLfsrUint bitBuff uiSeed uiValue puiBuff n j =
      getLfsrUint bitBuff' uiSeed uiValue puiBuff' n j) ↔
    (bitBuff (2 ^ n.toNat - 1)).toNat % 2 = (bitBuff' (2 ^ n.toNat - 1)).toNat % 2 := by
  obtain ⟨d, hd⟩ := Nat.exists_eq_add_of_le hn5
  have hpow : 2 ^ n.toNat = 32 * 2 ^ d := by rw [hd, Nat.pow_add]
  have hone : 1 ≤ 2 ^ d := Nat.one_le_two_pow
  have hparity : (bitBuff (2 ^ n.toNat - 1)).toNat.testBit 0 =
      (bitBuff' (2 ^ n.toNat - 1)).toNat.testBit 0 ↔
      (bitBuff (2 ^ n.toNat - 1)).toNat % 2 = (bitBuff' (2 ^ n.toNat - 1)).toNat % 2 := by
    rw [Nat.testBit_zero, Nat.testBit_zero, decide_eq_decide]
    omega
  rw [← hparity]
  constructor
  · intro h
    have hlast := congrArg (fun x => x.toNat.testBit 31) (h (2 ^ d - 1) (by omega))
    rwa [testBit_getLfsrUint _ _ _ _ hn5 hn11 (by omega) (by decide),
      testBit_getLfsrUint _ _ _ _ hn5 hn11 (by omega) (by decide), decide_eq_true (by omega),
      Bool.true_and, Bool.true_and] at hlast
  · intro h j hj
    refine UInt32.toNat_inj.mp (Nat.eq_of_testBit_eq fun k => ?_)
    rcases Nat.lt_or_ge k 32 with hk | hk
    · rw [testBit_getLfsrUint _ _ _ _ hn5 hn11 hj hk, testBit_getLfsrUint _ _ _ _ hn5 hn11 hj hk, h]
    · rw [testBit_high _ hk, testBit_high _ hk]

/-- One word, and the same stack twice. -/
theorem getLfsrUint_stack_word :
    (∀ j < 2 ^ (5 : UInt32).toNat / 32, getLfsrUint (fun _ => 1) 1 0x25 (fun _ => 0) 5 j =
      getLfsrUint (fun _ => 3) 1 0x25 (fun _ => 0) 5 j) ↔ 1 % 2 = 3 % 2 :=
  getLfsrUint_stack_iff (n := 5) (by decide) (by decide) _ _ _ _ _ _

/-- A byte of the stack decides about the last bit. -/
theorem getLfsrUint_leaks : ¬ ∀ (n : UInt32), 5 ≤ n.toNat → n.toNat ≤ 11 →
    ∀ (uiSeed uiValue : UInt32) (bitBuff bitBuff' : ℕ → UInt8) (puiBuff puiBuff' : ℕ → UInt32),
    ∀ j < 2 ^ n.toNat / 32, getLfsrUint bitBuff uiSeed uiValue puiBuff n j =
      getLfsrUint bitBuff' uiSeed uiValue puiBuff' n j := by
  intro h
  have hword := h 5 (by decide) (by decide) 1 0x25 (fun _ => 0) (fun _ => 1) (fun _ => 0)
    (fun _ => 0) 0 (by decide)
  revert hword
  decide

/-! ### The bits of a word -/

/-- The first loop of `HexToBit`: the place of the highest set bit, counted from the top. -/
def topLoop : ℕ → UInt16 → ℕ → ℕ
  | 0, _, i => i
  | m + 1, usValue, i =>
    if 0x8000 &&& usValue = 0x8000 then i else topLoop m (usValue <<< 1) (i + 1)

/-- `HexToBit`: the length, and the array `bits` afterwards. -/
def hexToBit (usHex : UInt16) (bits : ℕ → UInt8) : ℕ × (ℕ → UInt8) :=
  let len := 16 - topLoop 16 usHex 0
  (len, fun i => if i < len then ((usHex >>> UInt16.ofNat i) &&& 1).toUInt8 else bits i)

theorem top_iff (x : UInt16) : 0x8000 &&& x = 0x8000 ↔ 2 ^ 15 ≤ x.toNat := by
  have hx := x.toNat_lt
  have h15 : (0x8000 : UInt16).toNat = 2 ^ 15 := rfl
  rw [← UInt16.toNat_inj, UInt16.toNat_and, h15, Nat.two_pow_and,
    Nat.testBit_eq_decide_div_mod_eq]
  rcases Nat.lt_or_ge x.toNat (2 ^ 15) with hlt | hge
  · rw [Nat.div_eq_of_lt hlt]
    simpa using hlt
  · have hone : x.toNat / 2 ^ 15 = 1 := by omega
    rw [hone]
    simpa using hge

/-- Loop lemma: `usValue` is the word moved up by `i` places, and nothing of it is lost. -/
theorem topLoop_eq {x m i : ℕ} (hi : i + m = 16) (hx : x < 2 ^ m) {usValue : UInt16}
    (hv : usValue.toNat = x * 2 ^ i) : topLoop m usValue i = 16 - x.size := by
  induction m generalizing i usValue with
  | zero =>
    obtain rfl : x = 0 := by simpa using hx
    have hzero : Nat.size 0 = 0 := rfl
    rw [topLoop, hzero]
    omega
  | succ m ih =>
    have hpow : 2 ^ m * 2 ^ i = 2 ^ 15 := by
      rw [← Nat.pow_add]
      congr 1
      omega
    have htop : 0x8000 &&& usValue = 0x8000 ↔ 2 ^ m ≤ x := by
      rw [top_iff, hv, ← hpow, Nat.mul_le_mul_right_iff (Nat.two_pow_pos i)]
    rw [topLoop]
    rcases Nat.lt_or_ge x (2 ^ m) with hlt | hge
    · rw [if_neg (mt htop.mp (Nat.not_le.mpr hlt))]
      have hmul : x * 2 ^ i < 2 ^ 15 := by
        rw [← hpow]
        exact Nat.mul_lt_mul_of_pos_right hlt (Nat.two_pow_pos i)
      have hone : (1 : UInt16).toNat = 1 := rfl
      refine ih (by omega) hlt ?_
      rw [UInt16.toNat_shiftLeft, hone, hv, Nat.mod_eq_of_lt (show 1 < 16 by decide),
        Nat.shiftLeft_eq, Nat.pow_one, Nat.mod_eq_of_lt (by omega), Nat.pow_succ, Nat.mul_assoc]
    · rw [if_pos (htop.mpr hge)]
      have hlow := Nat.lt_size.mpr hge
      have hhigh := Nat.size_le.mpr hx
      omega

theorem hexToBit_length (usHex : UInt16) (bits : ℕ → UInt8) :
    (hexToBit usHex bits).1 = usHex.toNat.size := by
  have hle : usHex.toNat.size ≤ 16 := Nat.size_le.mpr usHex.toNat_lt
  have htop : topLoop 16 usHex 0 = 16 - usHex.toNat.size :=
    topLoop_eq (by decide) usHex.toNat_lt (by rw [Nat.pow_zero, Nat.mul_one])
  change 16 - topLoop 16 usHex 0 = _
  omega

theorem hexToBit_entry (usHex : UInt16) (bits : ℕ → UInt8) (i : ℕ) :
    (hexToBit usHex bits).2 i =
      if i < usHex.toNat.size then (if usHex.toNat.testBit i = true then 1 else 0) else bits i := by
  have hle : usHex.toNat.size ≤ 16 := Nat.size_le.mpr usHex.toNat_lt
  rw [← hexToBit_length usHex bits]
  change (if i < (hexToBit usHex bits).1 then _ else _) = _
  split
  · rename_i hi
    rw [hexToBit_length] at hi
    have h16 : (UInt16.ofNat i).toNat = i := UInt16.toNat_ofNat_of_lt' (show i < 65536 by omega)
    have hone : (1 : UInt16).toNat = 2 ^ 1 - 1 := rfl
    refine UInt8.toNat_inj.mp ?_
    rw [UInt16.toNat_toUInt8, UInt16.toNat_and, UInt16.toNat_shiftRight, h16,
      Nat.mod_eq_of_lt (show i < 16 by omega), hone, Nat.and_two_pow_sub_one_eq_mod,
      Nat.testBit_eq_decide_div_mod_eq, Nat.shiftRight_eq_div_pow]
    rcases Nat.mod_two_eq_zero_or_one (usHex.toNat / 2 ^ i) with h | h <;> rw [h] <;> rfl
  · rfl

theorem hexToBit_bits (usHex : UInt16) (bits : ℕ → UInt8) :
    bitToHex (hexToBit usHex bits).2 (hexToBit usHex bits).1 0 = usHex.toUInt32 := by
  have hsize := hexToBit_length usHex bits
  have hle : usHex.toNat.size ≤ 16 := Nat.size_le.mpr usHex.toNat_lt
  have hentry : ∀ j < (hexToBit usHex bits).1, (hexToBit usHex bits).2 j =
      if usHex.toNat.testBit j = true then 1 else 0 := by
    intro j hj
    rw [hexToBit_entry, if_pos (hsize ▸ hj)]
  have hbit : ∀ j < (hexToBit usHex bits).1,
      (hexToBit usHex bits).2 j = 0 ∨ (hexToBit usHex bits).2 j = 1 := by
    intro j hj
    rw [hentry j hj]
    split <;> simp
  refine UInt32.toNat_inj.mp (Nat.eq_of_testBit_eq fun k => ?_)
  rw [UInt16.toNat_toUInt32]
  rcases Nat.lt_or_ge k 32 with hk | hk
  · rw [testBit_bitToHex hbit hk]
    split
    · rename_i hlt
      rw [hentry k hlt]
      cases usHex.toNat.testBit k <;> rfl
    · rename_i hge
      have hpow : usHex.toNat < 2 ^ k := Nat.size_le.mp (by omega)
      rw [UInt32.toNat_zero, Nat.zero_testBit, Nat.testBit_lt_two_pow hpow]
  · have hpow : usHex.toNat < 2 ^ k := Nat.size_le.mp (by omega)
    rw [testBit_high _ hk, Nat.testBit_lt_two_pow hpow]

section
variable {len : ℕ} {a : BitArray len}

theorem testBit_packed (hlen : len ≤ 16) (k : ℕ) : (bitToHex a.entry len 0).toUInt16.toNat.testBit k =
    (decide (k < len) && decide (a.entry k = 1)) := by
  rw [UInt32.toNat_toUInt16, Nat.testBit_mod_two_pow]
  rcases Nat.lt_or_ge k 16 with hk | hk
  · rw [testBit_bitToHex (fun j _ => a.entry_bit j) (by omega), decide_eq_true hk, Bool.true_and]
    split
    · rename_i hlt
      rw [decide_eq_true hlt, Bool.true_and]
    · rename_i hge
      rw [decide_eq_false hge, UInt32.toNat_zero, Nat.zero_testBit, Bool.false_and]
  · rw [decide_eq_false (by omega), decide_eq_false (by omega), Bool.false_and, Bool.false_and]

/-- The highest bit says how long the array is. -/
theorem size_packed (hlen : len ≤ 16) (htop : 0 < len → a.entry (len - 1) = 1) :
    (bitToHex a.entry len 0).toUInt16.toNat.size = len := by
  have hlt : (bitToHex a.entry len 0).toUInt16.toNat < 2 ^ len := by
    refine Nat.lt_pow_two_of_testBit _ fun k hk => ?_
    rw [testBit_packed hlen, decide_eq_false (by omega), Bool.false_and]
  refine le_antisymm (Nat.size_le.mpr hlt) ?_
  rcases Nat.eq_zero_or_pos len with rfl | hpos
  · exact Nat.zero_le _
  · have hbit : (bitToHex a.entry len 0).toUInt16.toNat.testBit (len - 1) = true := by
      rw [testBit_packed hlen, decide_eq_true (by omega), decide_eq_true (htop hpos)]
      rfl
    have hsize := Nat.lt_size.mpr (Nat.ge_two_pow_of_testBit hbit)
    omega

end

/-- CORRECT (bits): the bits that `HexToBit` takes from a word pack to that word, and what it takes
    from a packed array whose last bit is 1 is the array; behind it nothing is written. -/
theorem hexToBit_bitToHex :
    (∀ (usHex : UInt16) (bits : ℕ → UInt8),
      bitToHex (hexToBit usHex bits).2 (hexToBit usHex bits).1 0 = usHex.toUInt32) ∧
    ∀ (len : ℕ) (a : BitArray len) (bits : ℕ → UInt8), len ≤ 16 →
      (0 < len → a.entry (len - 1) = 1) →
      hexToBit (bitToHex a.entry len 0).toUInt16 bits =
        (len, fun i => if i < len then a.entry i else bits i) := by
  refine ⟨hexToBit_bits, fun len a bits hlen htop => ?_⟩
  have hsize := size_packed hlen htop
  refine Prod.ext ((hexToBit_length _ bits).trans hsize) (funext fun i => ?_)
  rw [hexToBit_entry, hsize]
  rcases Nat.lt_or_ge i len with hi | hi
  · rw [if_pos hi, testBit_packed hlen, decide_eq_true hi, Bool.true_and]
    change _ = if i < len then a.entry i else bits i
    rw [if_pos hi]
    rcases a.entry_bit i with h | h <;> rw [h] <;> rfl
  · rw [if_neg (Nat.not_lt.mpr hi)]
    exact (if_neg (Nat.not_lt.mpr hi)).symm

/-- The eight bits of the polynomial 0x83. -/
def sevenBits : BitArray 8 := ⟨[1, 1, 0, 0, 0, 0, 0, 1], rfl, by
  simp only [List.forall_mem_cons, List.not_mem_nil, false_implies, implies_true, and_true]
  decide⟩

theorem hexToBit_bitToHex_seven : hexToBit (bitToHex sevenBits.entry 8 0).toUInt16 (fun _ => 0) =
    (8, fun i => if i < 8 then sevenBits.entry i else 0) :=
  hexToBit_bitToHex.2 8 sevenBits _ (by decide) fun _ => rfl

end AcqBoard.Lfsr
