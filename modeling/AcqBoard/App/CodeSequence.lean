import AcqBoard.App.Code
import AcqBoard.Schemes.MaximalSequence

/-! What `GetLsfr` generates.

    `CheckValue`, `GetBitNum` and `GetBitSet` pick the two taps of a polynomial with three terms, and
    `GetLsfr` turns a register of seven bits with them. Nothing calls it in this version. What a code is
    wanted for is that it is as different as can be from each of its shifts; whether the bits that
    `GetLsfr` puts out are depends on the taps alone. The lemmas are about a register of any length. -/

namespace AcqBoard.Lfsr
open Schemes App

/-! ### The taps -/

/-- A polynomial of degree `n` with three terms, one of them 1. -/
structure Trinomial (uiValue n : UInt32) : Prop where
  check : checkValue uiValue n = 0
  terms : getBitNum uiValue = 3
  degree : uiValue.toNat < 2 ^ (n.toNat + 1)

/-- The exponent of the middle term. -/
def middle (uiValue : UInt32) : ℕ := (getBitSet uiValue).2.toNat

theorem checkValue_bits {uiValue n : UInt32} (hn : n.toNat < 32) (h : checkValue uiValue n = 0) :
    uiValue.toNat.testBit 0 = true ∧ uiValue.toNat.testBit n.toNat = true := by
  have hbit : ∀ x : UInt32, x &&& 1 = 1 → x.toNat.testBit 0 = true := by
    intro x hx
    have hone := congrArg (fun y : UInt32 => y.toNat.testBit 0) hx
    simpa using hone
  unfold checkValue at h
  split at h
  · cases h
  · rename_i hlow
    split at h
    · cases h
    · rename_i htop
      refine ⟨hbit _ (not_not.mp hlow), ?_⟩
      have hshift := hbit _ (not_not.mp htop)
      rwa [testBit_shiftRight _ _ _ hn, Nat.add_zero] at hshift

/-- The first tap is the degree, the second one is between it and 0. -/
theorem Trinomial.taps {uiValue n : UInt32} (hn : n.toNat < 32) (h : Trinomial uiValue n) :
    (getBitSet uiValue).1.toNat = n.toNat ∧ 0 < middle uiValue ∧ middle uiValue < n.toNat := by
  obtain ⟨hzero, htop⟩ := checkValue_bits hn h.check
  have hcard : (positions uiValue).card = 3 := by
    rw [← toNat_getBitNum, h.terms]
    rfl
  have hloop := bitSetLoop_first uiValue (i := 0) (Nat.le_refl 32) rfl
  obtain ⟨hfirst, hsecond⟩ : (getBitSet uiValue).1.toNat = highest (positions uiValue) ∧
      middle uiValue = highest ((positions uiValue).erase (highest (positions uiValue))) := hloop
  have hhigh : highest (positions uiValue) = n.toNat := by
    refine le_antisymm ?_ (le_highest (mem_positions.mpr htop))
    have hmem := mem_positions.mp (highest_mem ⟨_, mem_positions.mpr htop⟩)
    by_contra hgt
    have hpow : 2 ^ (n.toNat + 1) ≤ 2 ^ highest (positions uiValue) :=
      Nat.pow_le_pow_right (by decide) (by omega)
    rw [Nat.testBit_lt_two_pow (lt_of_lt_of_le h.degree hpow)] at hmem
    cases hmem
  rw [hhigh] at hfirst hsecond
  have hrest : ((positions uiValue).erase n.toNat).card = 2 := by
    rw [Finset.card_erase_of_mem (mem_positions.mpr htop), hcard]
  obtain ⟨k, hk, hne⟩ := Finset.exists_mem_ne (by rw [hrest]; decide) 0
  have hmem := highest_mem ⟨k, hk⟩
  have hle := le_highest hk
  have hlt : middle uiValue ≤ n.toNat := by
    rw [hsecond]
    exact le_trans (le_highest (Finset.mem_of_mem_erase hmem)) hhigh.le
  have hapart : middle uiValue ≠ n.toNat := by
    rw [hsecond]
    exact Finset.ne_of_mem_erase hmem
  exact ⟨hfirst, by omega, by omega⟩

/-! ### The register -/

/-- One step of the register, bit by bit. -/
theorem testBit_lsfr {n x ucFirst ucSecond : UInt32} (hn : n.toNat < 32)
    (hfirst : ucFirst.toNat = n.toNat) (hpos : 0 < ucSecond.toNat) (hlt : ucSecond.toNat < n.toNat)
    (hx : x.toNat < 2 ^ n.toNat) (k : ℕ) :
    (lsfr n x ucFirst ucSecond).2.toNat.testBit k =
      if k + 1 = n.toNat then x.toNat.testBit 0 ^^ x.toNat.testBit (n.toNat - ucSecond.toNat)
      else x.toNat.testBit (k + 1) := by
  have h1 : (1 : UInt32).toNat = 2 ^ 1 - 1 := rfl
  have hone : (1 : UInt32).toNat = 1 := rfl
  have hn1 : (n - 1).toNat = n.toNat - 1 := UInt32.toNat_sub_of_le _ _ (by
    rw [UInt32.le_iff_toNat_le, hone]; omega)
  have hA : (n - ucFirst).toNat = 0 := by
    rw [UInt32.toNat_sub_of_le _ _ (by rw [UInt32.le_iff_toNat_le]; omega), hfirst, Nat.sub_self]
  have hB : (n - ucSecond).toNat = n.toNat - ucSecond.toNat :=
    UInt32.toNat_sub_of_le _ _ (by rw [UInt32.le_iff_toNat_le]; omega)
  have hC : ∀ j, (((x >>> (n - ucFirst)) &&& 0x1) ^^^ ((x >>> (n - ucSecond)) &&& 0x1)).toNat.testBit j =
      (decide (j = 0) &&
        (x.toNat.testBit 0 ^^ x.toNat.testBit (n.toNat - ucSecond.toNat))) := by
    intro j
    rw [UInt32.toNat_xor, Nat.testBit_xor, UInt32.toNat_and, UInt32.toNat_and, Nat.testBit_and,
      Nat.testBit_and, testBit_shiftRight _ _ _ (by omega), testBit_shiftRight _ _ _ (by omega), hA,
      hB, h1, Nat.testBit_two_pow_sub_one]
    rcases Nat.eq_zero_or_pos j with rfl | hj
    · simp
    · rw [decide_eq_false (by omega), decide_eq_false (by omega)]
      simp
  rcases Nat.lt_or_ge k 32 with hk | hk
  · rw [lsfr, UInt32.toNat_or, Nat.testBit_or, testBit_shiftRight _ _ _ (by decide),
      testBit_shiftLeft _ _ (by omega) hk, hn1, hC, hone, Nat.add_comm 1 k]
    split
    · rename_i hlast
      rw [Nat.testBit_lt_two_pow (hlast ▸ hx), decide_eq_true (by omega), decide_eq_true (by omega)]
      simp
    · rename_i hlast
      rcases Nat.lt_or_ge k (n.toNat - 1) with hlow | hhigh
      · rw [decide_eq_false (Nat.not_le.mpr hlow)]
        simp
      · rw [decide_eq_false (show ¬ k - (n.toNat - 1) = 0 by omega)]
        simp
  · rw [testBit_high _ hk, if_neg (by omega), testBit_high _ (by omega)]

section
variable {uiValue n uiSeed : UInt32} (hn : n.toNat < 32) (h : Trinomial uiValue n)
  (hseed : uiSeed.toNat < 2 ^ n.toNat)
include hn h

theorem register_step {i : ℕ} (hx : (register uiSeed uiValue n i).toNat < 2 ^ n.toNat) (k : ℕ) :
    (register uiSeed uiValue n (i + 1)).toNat.testBit k =
      if k + 1 = n.toNat then (register uiSeed uiValue n i).toNat.testBit 0 ^^
        (register uiSeed uiValue n i).toNat.testBit (n.toNat - middle uiValue)
      else (register uiSeed uiValue n i).toNat.testBit (k + 1) := by
  obtain ⟨hfirst, hpos, hlt⟩ := h.taps hn
  have hA : (getBitSet uiValue).1.toUInt32.toNat = n.toNat := (UInt8.toNat_toUInt32 _).trans hfirst
  have hB : (getBitSet uiValue).2.toUInt32.toNat = middle uiValue := UInt8.toNat_toUInt32 _
  rw [← hB] at hpos hlt
  rw [← hB]
  exact testBit_lsfr hn hA hpos hlt hx k

include hseed

theorem register_lt (i : ℕ) : (register uiSeed uiValue n i).toNat < 2 ^ n.toNat := by
  induction i with
  | zero => exact hseed
  | succ i ih =>
    refine Nat.lt_pow_two_of_testBit _ fun k hk => ?_
    rw [register_step hn h ih, if_neg (by omega)]
    exact Nat.testBit_lt_two_pow (lt_of_lt_of_le ih (Nat.pow_le_pow_right (by decide) (by omega)))

/-- The register holds the next `n` bits of the code. -/
theorem testBit_register_code {i k : ℕ} (hk : k < n.toNat) :
    (register uiSeed uiValue n i).toNat.testBit k = codeBit uiSeed uiValue n (k + i) := by
  induction k generalizing i with
  | zero => rw [codeBit_eq, Nat.zero_add]
  | succ k ih =>
    have hstep := register_step hn h (register_lt hn h hseed i) k
    rw [if_neg (by omega)] at hstep
    rw [← hstep, ih (by omega), Nat.add_right_comm, Nat.add_assoc]

/-- Each bit of the code is the sum of two bits before it. -/
theorem codeBit_recurs (i : ℕ) : codeBit uiSeed uiValue n (i + n.toNat) =
    (codeBit uiSeed uiValue n i ^^ codeBit uiSeed uiValue n (i + (n.toNat - middle uiValue))) := by
  obtain ⟨-, hpos, hlt⟩ := h.taps hn
  have hstep := register_step hn h (register_lt hn h hseed i) (n.toNat - 1)
  rw [if_pos (by omega), testBit_register_code hn h hseed (by omega),
    testBit_register_code hn h hseed (by omega), testBit_register_code hn h hseed (by omega),
    Nat.zero_add] at hstep
  rw [Nat.add_comm i (n.toNat - middle uiValue), ← hstep]
  congr 1
  omega

end

/-! ### The code as a solution of a recurrence -/

/-- The recurrence of a register of `n` bits with the second tap `b`. -/
def recurrence (n b : ℕ) : LinearRecurrence (ZMod 2) :=
  ⟨n, fun k => if (k : ℕ) = 0 ∨ (k : ℕ) = n - b then 1 else 0⟩

/-- The code as a sequence over two elements. -/
def symbols (uiSeed uiValue n : UInt32) (i : ℕ) : ZMod 2 :=
  if codeBit uiSeed uiValue n i then 1 else 0

theorem symbol_xor : ∀ a b : Bool, (if (a ^^ b) = true then 1 else 0 : ZMod 2) =
    (if a = true then 1 else 0) + if b = true then 1 else 0 := by
  decide

theorem symbol_inj : ∀ {a b : Bool},
    (if a = true then 1 else 0 : ZMod 2) = (if b = true then 1 else 0) → a = b := by
  decide

theorem coeffs_recurrence (n b : ℕ) (k : Fin n) :
    (recurrence n b).coeffs k = if (k : ℕ) = 0 ∨ (k : ℕ) = n - b then 1 else 0 := rfl

theorem reversible_recurrence {n b : ℕ} (hn : 0 < n) : Reversible (recurrence n b) :=
  ⟨hn, (coeffs_recurrence n b ⟨0, hn⟩).trans (if_pos (Or.inl rfl))⟩

/-- The low `n` bits of a word. -/
def bits (n : ℕ) (x : UInt32) : Fin n → ZMod 2 := fun k => if x.toNat.testBit k then 1 else 0

theorem bits_inj {n : ℕ} {x y : UInt32} (hx : x.toNat < 2 ^ n) (hy : y.toNat < 2 ^ n)
    (h : bits n x = bits n y) : x = y := by
  refine UInt32.toNat_inj.mp (Nat.eq_of_testBit_eq fun k => ?_)
  rcases Nat.lt_or_ge k n with hk | hk
  · exact symbol_inj (congrFun h ⟨k, hk⟩)
  · have hpow : 2 ^ n ≤ 2 ^ k := Nat.pow_le_pow_right (by decide) hk
    rw [Nat.testBit_lt_two_pow (lt_of_lt_of_le hx hpow),
      Nat.testBit_lt_two_pow (lt_of_lt_of_le hy hpow)]

theorem bits_zero (n : ℕ) : bits n 0 = 0 := by
  funext k
  change (if (0 : ℕ).testBit k = true then (1 : ZMod 2) else 0) = 0
  rw [Nat.zero_testBit]
  rfl

/-- How often the code agrees with itself `τ` bits later, less how often it does not. -/
def correlation (code : ℕ → Bool) (len τ : ℕ) : ℤ :=
  ∑ i ∈ Finset.range len, if code i = code (i + τ) then 1 else -1

/-- The register does not come back to the seed early. -/
def LateReturn (uiSeed uiValue n : UInt32) : Prop :=
  ∀ i, 0 < i → i < 2 ^ n.toNat - 1 → register uiSeed uiValue n i ≠ uiSeed

section
variable {uiValue n uiSeed : UInt32} (hn : n.toNat < 32) (h : Trinomial uiValue n)
  (hseed : uiSeed.toNat < 2 ^ n.toNat)
include hn h hseed

theorem isSolution_symbols :
    (recurrence n.toNat (middle uiValue)).IsSolution (symbols uiSeed uiValue n) := by
  obtain ⟨-, hpos, hlt⟩ := h.taps hn
  intro i
  have hsum := Fintype.sum_eq_add (f := fun k : Fin n.toNat =>
      (recurrence n.toNat (middle uiValue)).coeffs k * symbols uiSeed uiValue n (i + k))
    ⟨0, by omega⟩ ⟨n.toNat - middle uiValue, by omega⟩ (by simp; omega) (by
      rintro k ⟨hk₀, hk₁⟩
      have hzero : (recurrence n.toNat (middle uiValue)).coeffs k = 0 :=
        if_neg (by rintro (hk | hk) <;> [exact hk₀ (Fin.ext hk); exact hk₁ (Fin.ext hk)])
      rw [hzero, zero_mul])
  rw [coeffs_recurrence, coeffs_recurrence, if_pos (Or.inl rfl), if_pos (Or.inr rfl), one_mul,
    one_mul, Nat.add_zero] at hsum
  refine Eq.trans ?_ hsum.symm
  change symbols uiSeed uiValue n (i + n.toNat) = _
  rw [symbols, codeBit_recurs hn h hseed, symbol_xor]
  rfl

theorem window_symbols (i : ℕ) :
    window (recurrence n.toNat (middle uiValue)) (symbols uiSeed uiValue n) i =
      bits n.toNat (register uiSeed uiValue n i) := by
  funext k
  change _ = if (register uiSeed uiValue n i).toNat.testBit k then (1 : ZMod 2) else 0
  rw [testBit_register_code hn h hseed k.isLt]
  rfl

/-- The register holds a value where the sequence has its bits. -/
theorem window_eq_iff {i : ℕ} {x : UInt32} (hx : x.toNat < 2 ^ n.toNat) :
    window (recurrence n.toNat (middle uiValue)) (symbols uiSeed uiValue n) i = bits n.toNat x ↔
      register uiSeed uiValue n i = x := by
  rw [window_symbols hn h hseed]
  exact ⟨bits_inj (register_lt hn h hseed i) hx, fun hr => congrArg _ hr⟩

theorem maximal_symbols : Maximal (recurrence n.toNat (middle uiValue)) (symbols uiSeed uiValue n) ↔
    LateReturn uiSeed uiValue n := by
  have hsol := isSolution_symbols hn h hseed
  refine forall₃_congr fun τ _ _ => not_congr ?_
  rw [shift_eq_iff hsol, window_symbols hn h hseed 0]
  exact window_eq_iff hn h hseed hseed

omit h in
theorem symbols_ne_zero (hpos : 1 ≤ uiSeed.toNat) : symbols uiSeed uiValue n ≠ 0 := by
  intro h0
  obtain ⟨i, -, hi⟩ := exists_codeBit uiValue (by omega) hpos hseed
  have hbit := congrFun h0 i
  rw [symbols, if_pos hi] at hbit
  exact one_ne_zero hbit

end

/-! ### The correlation -/

theorem level_symbol : ∀ a b : Bool,
    level (if a = true then 1 else 0) * level (if b = true then 1 else 0) = if a = b then 1 else -1 := by
  decide

theorem level_one : ∀ a : Bool, level (if a = true then 1 else 0) = 1 - 2 * (if a = true then 1 else 0) := by
  decide

theorem roundCorrelation_symbols (uiSeed uiValue n : UInt32) (b τ : ℕ) :
    roundCorrelation (recurrence n.toNat b) (symbols uiSeed uiValue n) τ =
      correlation (codeBit uiSeed uiValue n) (2 ^ n.toNat - 1) τ :=
  Finset.sum_congr rfl fun _ _ => level_symbol _ _

/-- The number of ones among the first `len` bits. -/
def ones (code : ℕ → Bool) (len : ℕ) : ℕ := ((Finset.range len).filter fun i => code i = true).card

/-- Less the ones twice, the sum of the levels is the length. -/
theorem sum_levels (code : ℕ → Bool) (len : ℕ) :
    ∑ i ∈ Finset.range len, level (if code i = true then 1 else 0) = len - 2 * (ones code len : ℤ) := by
  rw [Finset.sum_congr rfl fun i _ => level_one (code i), Finset.sum_sub_distrib, ← Finset.mul_sum,
    Finset.sum_const, Finset.card_range, nsmul_one, ones, Finset.natCast_card_filter]

/-- The code is as different as can be from all its shifts exactly if its register takes all its
    `2^n - 1` steps to come back; then it does come back, one round has `2^(n-1)` ones, and the register
    passes through every value but zero once. -/
theorem register_correlation {uiValue n uiSeed : UInt32} (hn : n.toNat < 32)
    (h : Trinomial uiValue n) (hpos : 1 ≤ uiSeed.toNat) (hseed : uiSeed.toNat < 2 ^ n.toNat) :
    (LateReturn uiSeed uiValue n ↔ ∀ τ, ¬ 2 ^ n.toNat - 1 ∣ τ →
      correlation (codeBit uiSeed uiValue n) (2 ^ n.toNat - 1) τ = -1) ∧
    (LateReturn uiSeed uiValue n → register uiSeed uiValue n (2 ^ n.toNat - 1) = uiSeed ∧
      ones (codeBit uiSeed uiValue n) (2 ^ n.toNat - 1) = 2 ^ (n.toNat - 1) ∧
      ∀ x : UInt32, 1 ≤ x.toNat → x.toNat < 2 ^ n.toNat →
        ∃! i, i < 2 ^ n.toNat - 1 ∧ register uiSeed uiValue n i = x) := by
  have hsol := isSolution_symbols hn h hseed
  have hne : symbols uiSeed uiValue n ≠ 0 := symbols_ne_zero hn hseed hpos
  obtain ⟨-, hmid, hlt⟩ := h.taps hn
  have hrev : Reversible (recurrence n.toNat (middle uiValue)) := reversible_recurrence (by omega)
  rw [← maximal_symbols hn h hseed]
  refine ⟨?_, fun hmax => ⟨?_, ?_, ?_⟩⟩
  · rw [maximal_iff hrev hsol hne]
    exact ⟨fun hc τ hτ => (roundCorrelation_symbols _ _ _ _ τ).symm.trans (hc τ hτ),
      fun hc τ hτ => (roundCorrelation_symbols _ _ _ _ τ).trans (hc τ hτ)⟩
  · have hround := (shift_eq_iff hsol).mp (shift_fullLength hrev hsol hne hmax)
    rw [window_symbols hn h hseed 0] at hround
    exact (window_eq_iff hn h hseed hseed).mp hround
  · have hsum : ∑ i ∈ Finset.range (2 ^ n.toNat - 1),
        level (if codeBit uiSeed uiValue n i = true then 1 else 0) = -1 :=
      sum_level_round hrev hsol hne hmax 0
    have hpow : 2 ^ n.toNat = 2 * 2 ^ (n.toNat - 1) := by
      obtain ⟨m, hm⟩ := Nat.exists_eq_add_of_lt (show 0 < n.toNat by omega)
      rw [hm, Nat.pow_succ', Nat.add_sub_cancel]
    rw [sum_levels] at hsum
    omega
  · intro x hx hxlt
    have hbits : bits n.toNat x ≠ 0 := by
      intro h0
      obtain rfl := bits_inj hxlt (Nat.two_pow_pos _) (h0.trans (bits_zero _).symm)
      exact absurd hx (by decide)
    obtain ⟨i, ⟨hi, hw⟩, huniq⟩ := existsUnique_window hrev hsol hne hmax hbits
    refine ⟨i, ⟨hi, (window_eq_iff hn h hseed hxlt).mp hw⟩, ?_⟩
    rintro j ⟨hj, hr⟩
    exact huniq j ⟨hj, (window_eq_iff hn h hseed hxlt).mpr hr⟩

/-! ### The maximal polynomials -/

/-- The register of `n` bits as a number, one step on. -/
def turn (n b x : ℕ) : ℕ := x >>> 1 ||| ((x &&& 1) ^^^ ((x >>> (n - b)) &&& 1)) <<< (n - 1)

/-- None of the next `m` values is 1. -/
def away (n b : ℕ) : ℕ → ℕ → Bool
  | 0, _ => true
  | m + 1, x => turn n b x != 1 && away n b m (turn n b x)

/-- The middle exponents for which a register of seven bits takes all its steps. -/
theorem away_seven {b : ℕ} (hb : 0 < b) (hlt : b < 7) :
    away 7 b (2 ^ 7 - 2) 1 = true ↔ b = 1 ∨ b = 3 ∨ b = 4 ∨ b = 6 := by
  have hall : (List.range 7).all (fun b =>
      b == 0 || (away 7 b (2 ^ 7 - 2) 1 == [1, 3, 4, 6].contains b)) = true := by decide +kernel
  have hb' := List.all_eq_true.mp hall b (List.mem_range.mpr hlt)
  rw [Bool.or_eq_true, beq_iff_eq, beq_iff_eq] at hb'
  rcases hb' with h0 | heq
  · omega
  · rw [heq, List.contains_iff_mem]
    simp

section
variable {uiValue n uiSeed : UInt32} (hn : n.toNat < 32) (h : Trinomial uiValue n)
include hn h

theorem toNat_register (i : ℕ) : (register uiSeed uiValue n (i + 1)).toNat =
    turn n.toNat (middle uiValue) (register uiSeed uiValue n i).toNat := by
  obtain ⟨hfirst, hpos, hlt⟩ := h.taps hn
  have hA : (getBitSet uiValue).1.toUInt32.toNat = n.toNat := (UInt8.toNat_toUInt32 _).trans hfirst
  have hB : (getBitSet uiValue).2.toUInt32.toNat = middle uiValue := UInt8.toNat_toUInt32 _
  have hone : (1 : UInt32).toNat = 1 := rfl
  have hn1 : (n - 1).toNat = n.toNat - 1 := UInt32.toNat_sub_of_le _ _ (by
    rw [UInt32.le_iff_toNat_le, hone]; omega)
  have hsub₁ : (n - (getBitSet uiValue).1.toUInt32).toNat = 0 := by
    rw [UInt32.toNat_sub_of_le _ _ (by rw [UInt32.le_iff_toNat_le]; omega), hA, Nat.sub_self]
  have hsub₂ : (n - (getBitSet uiValue).2.toUInt32).toNat = n.toNat - middle uiValue := by
    rw [UInt32.toNat_sub_of_le _ _ (by rw [UInt32.le_iff_toNat_le]; omega), hB]
  have hbit : ∀ x y : ℕ, ((x &&& 1) ^^^ (y &&& 1)) <<< (n.toNat - 1) < 2 ^ 32 := by
    intro x y
    have hxor : (x &&& 1) ^^^ (y &&& 1) < 2 ^ 1 :=
      Nat.xor_lt_two_pow (lt_of_le_of_lt Nat.and_le_right (by decide))
        (lt_of_le_of_lt Nat.and_le_right (by decide))
    rw [Nat.shiftLeft_eq]
    calc ((x &&& 1) ^^^ (y &&& 1)) * 2 ^ (n.toNat - 1)
        < 2 ^ 1 * 2 ^ (n.toNat - 1) := Nat.mul_lt_mul_of_pos_right hxor (Nat.two_pow_pos _)
      _ ≤ 2 ^ 32 := by
        rw [← Nat.pow_add]
        exact Nat.pow_le_pow_right (by decide) (by omega)
  rw [register, lsfr, turn, UInt32.toNat_or, UInt32.toNat_shiftRight, UInt32.toNat_shiftLeft,
    UInt32.toNat_xor, UInt32.toNat_and, UInt32.toNat_and, UInt32.toNat_shiftRight,
    UInt32.toNat_shiftRight, hsub₁, hsub₂, hn1, hone, Nat.mod_eq_of_lt (show 1 < 32 by decide),
    Nat.mod_eq_of_lt (show n.toNat - middle uiValue < 32 by omega),
    Nat.mod_eq_of_lt (show n.toNat - 1 < 32 by omega), Nat.mod_eq_of_lt (hbit _ _)]
  rfl

/-- `away` watches the register, by induction on the steps left. -/
theorem away_register (m i : ℕ) :
    away n.toNat (middle uiValue) m (register 1 uiValue n i).toNat = true ↔
      ∀ j, i < j → j ≤ i + m → register 1 uiValue n j ≠ 1 := by
  induction m generalizing i with
  | zero => exact iff_of_true rfl fun j hj hle => by omega
  | succ m ih =>
    rw [away, ← toNat_register hn h, Bool.and_eq_true, bne_iff_ne, ih]
    constructor
    · rintro ⟨hne, hrest⟩ j hj hle h1
      rcases Nat.eq_or_lt_of_le (Nat.succ_le_of_lt hj) with rfl | hlt
      · exact hne (congrArg UInt32.toNat h1)
      · exact hrest j hlt (by omega) h1
    · intro hall
      refine ⟨fun h1 => hall (i + 1) (by omega) (by omega) (UInt32.toNat_inj.mp h1), ?_⟩
      exact fun j hj hle => hall j (by omega) (by omega)

/-- Either all seeds but 0 have late returns or none. -/
theorem lateReturn_congr {uiSeed' : UInt32} (hpos : 1 ≤ uiSeed.toNat)
    (hseed : uiSeed.toNat < 2 ^ n.toNat) (hpos' : 1 ≤ uiSeed'.toNat)
    (hseed' : uiSeed'.toNat < 2 ^ n.toNat) (hlate : LateReturn uiSeed uiValue n) :
    LateReturn uiSeed' uiValue n := by
  obtain ⟨-, hmid, hlt⟩ := h.taps hn
  rw [← maximal_symbols hn h hseed'] 
  rw [← maximal_symbols hn h hseed] at hlate
  exact maximal_of_maximal (reversible_recurrence (by omega)) (isSolution_symbols hn h hseed)
    (symbols_ne_zero hn hseed hpos) hlate (isSolution_symbols hn h hseed')
    (symbols_ne_zero hn hseed' hpos')

end

/-! ### `GetLsfr` -/

/-- The register behind `i` calls of `GetLsfr`, each with what the one before returned. -/
def lsfrState (uiSeed uiValue : UInt32) : ℕ → UInt32
  | 0 => uiSeed
  | i + 1 => (getLsfr (lsfrState uiSeed uiValue i) (getBitSet uiValue).1
      (getBitSet uiValue).2.toUInt32).2

/-- The bit that the call behind these puts out. -/
def lsfrBit (uiSeed uiValue : UInt32) (i : ℕ) : Bool :=
  (getLsfr (lsfrState uiSeed uiValue i) (getBitSet uiValue).1 (getBitSet uiValue).2.toUInt32).1 = 1

/-- The seed comes back after 127 calls and not before. -/
def FullRound (uiSeed uiValue : UInt32) : Prop :=
  lsfrState uiSeed uiValue 127 = uiSeed ∧
    ∀ i, 0 < i → i < 127 → lsfrState uiSeed uiValue i ≠ uiSeed

section
variable {uiSeed uiValue : UInt32}

theorem register_seven (i : ℕ) : register uiSeed uiValue 7 i = lsfrState uiSeed uiValue i := by
  induction i with
  | zero => rfl
  | succ i ih =>
    rw [register, ih]
    rfl

theorem codeBit_seven : codeBit uiSeed uiValue 7 = lsfrBit uiSeed uiValue := by
  funext i
  rw [codeBit, register_seven]
  rfl

theorem fullRound_iff (h : Trinomial uiValue 7) (hpos : 1 ≤ uiSeed.toNat)
    (hseed : uiSeed.toNat < 2 ^ 7) : FullRound uiSeed uiValue ↔ LateReturn uiSeed uiValue 7 := by
  constructor
  · rintro ⟨-, hlate⟩ i hi hlt
    rw [register_seven]
    exact hlate i hi hlt
  · intro hlate
    obtain ⟨hround, -⟩ := (register_correlation (by decide) h hpos hseed).2 hlate
    rw [register_seven] at hround
    refine ⟨hround, fun i hi hlt => ?_⟩
    rw [← register_seven]
    exact hlate i hi hlt

end

/-- CORRECT (code): for a checked polynomial of degree 7 and any seed, the bits that `GetLsfr` puts out
    are as different as can be from all their shifts exactly if the seed comes back after 127 calls and
    not before; then one round has 64 ones, and the register passes through every value but zero
    once. -/
theorem getLsfr_correlation {uiValue uiSeed : UInt32} (h : Trinomial uiValue 7)
    (hpos : 1 ≤ uiSeed.toNat) (hseed : uiSeed.toNat < 2 ^ 7) :
    (FullRound uiSeed uiValue ↔ ∀ τ, ¬ 127 ∣ τ → correlation (lsfrBit uiSeed uiValue) 127 τ = -1) ∧
    (FullRound uiSeed uiValue → ones (lsfrBit uiSeed uiValue) 127 = 64 ∧
      ∀ x : UInt32, 1 ≤ x.toNat → x.toNat < 2 ^ 7 →
        ∃! i, i < 127 ∧ lsfrState uiSeed uiValue i = x) := by
  obtain ⟨hiff, hround⟩ := register_correlation (by decide) h hpos hseed
  rw [fullRound_iff h hpos hseed, ← codeBit_seven]
  refine ⟨hiff, fun hlate => ?_⟩
  obtain ⟨-, hones, hall⟩ := hround hlate
  refine ⟨hones, fun x hx hxlt => ?_⟩
  obtain ⟨i, ⟨hi, hreg⟩, huniq⟩ := hall x hx hxlt
  refine ⟨i, ⟨hi, (register_seven i).symm.trans hreg⟩, ?_⟩
  rintro j ⟨hj, hstate⟩
  exact huniq j ⟨hj, (register_seven j).trans hstate⟩

/-- CORRECT (polynomials): of the checked polynomials of degree 7, whatever the seed, exactly those
    with the middle exponents 1, 3, 4 and 6 let `GetLsfr` run a full round. -/
theorem getLsfr_fullRound_iff {uiValue uiSeed : UInt32} (h : Trinomial uiValue 7)
    (hpos : 1 ≤ uiSeed.toNat) (hseed : uiSeed.toNat < 2 ^ 7) : FullRound uiSeed uiValue ↔
      middle uiValue = 1 ∨ middle uiValue = 3 ∨ middle uiValue = 4 ∨ middle uiValue = 6 := by
  obtain ⟨-, hmid, hlt⟩ := h.taps (by decide)
  have hreturn : LateReturn uiSeed uiValue 7 ↔ LateReturn 1 uiValue 7 :=
    ⟨lateReturn_congr (by decide) h hpos hseed (by decide) (by decide),
      lateReturn_congr (by decide) h (by decide) (by decide) hpos hseed⟩
  rw [fullRound_iff h hpos hseed, hreturn, ← away_seven hmid hlt]
  refine Iff.trans ?_ (away_register (by decide) h (2 ^ 7 - 2) 0).symm
  exact forall_congr' fun j => ⟨fun hj hpos hle => hj hpos (Nat.lt_succ_of_le (by omega)),
    fun hj hpos hle => hj hpos (by change j < 127 at hle; omega)⟩

/-- `x^7 + x + 1`. -/
theorem trinomial_seven : Trinomial 0x83 7 := by
  refine ⟨by decide, ?_, by decide⟩
  exact UInt32.toNat_inj.mp ((toNat_getBitNum 0x83).trans (by decide))

theorem getLsfr_correlation_one :
    (FullRound 1 0x83 ↔ ∀ τ, ¬ 127 ∣ τ → correlation (lsfrBit 1 0x83) 127 τ = -1) :=
  (getLsfr_correlation trinomial_seven (by decide) (by decide)).1

theorem getLsfr_fullRound_one : FullRound 1 0x83 :=
  (getLsfr_fullRound_iff trinomial_seven (by decide) (by decide)).mpr (Or.inl (by decide))

end AcqBoard.Lfsr
