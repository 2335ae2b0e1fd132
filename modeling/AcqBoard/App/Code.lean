import AcqBoard.App.Bits
import AcqBoard.App.Limits

/-! The code RAM.

    The board transmits the bits that `SetDataToRam` copies into the code RAM, which ought to be the
    sequence of the configured register. The generator puts out zeros, so no code of at least one
    word is the configured one; a shorter code is not copied at all and leaves the RAM as it was. -/

namespace AcqBoard.App
open Schemes Csr Lfsr

/-- The RAM holds the code of the polynomial and the seed: bit `i mod 32` of word `i / 32` is the
    `i`-th output bit. -/
def HoldsCode (ram : ℕ → UInt32) (uiSeed uiValue n : UInt32) : Prop :=
  ∀ i < 2 ^ n.toNat - 1, (ram (i / 32)).toNat.testBit (i % 32) = codeBit uiSeed uiValue n i

/-! ### The first bits of the sequence -/

theorem codeBit_eq (uiSeed uiValue n : UInt32) (i : ℕ) :
    codeBit uiSeed uiValue n i = (register uiSeed uiValue n i).toNat.testBit 0 := by
  have hbit : ∀ x : UInt32, decide ((x &&& 0x1).toUInt8 = 1) = x.toNat.testBit 0 := by
    intro x
    have h1 : (0x1 : UInt32).toNat = 2 ^ 1 - 1 := rfl
    have h8 : (1 : UInt8).toNat = 1 := rfl
    rw [Nat.testBit_zero]
    refine decide_eq_decide.mpr ?_
    rw [← UInt8.toNat_inj, UInt32.toNat_toUInt8, UInt32.toNat_and, h1,
      Nat.and_two_pow_sub_one_eq_mod, h8]
    omega
  exact hbit _

/-- The seed is shifted out before anything else: after `i` steps bit `k` of the register is bit
    `k + i` of the seed, as long as that is one of its `n` bits. -/
theorem testBit_register (uiSeed uiValue : UInt32) {n : UInt32} (hn : n.toNat ≤ 32) {i k : ℕ}
    (h : k + i < n.toNat) :
    (register uiSeed uiValue n i).toNat.testBit k = uiSeed.toNat.testBit (k + i) := by
  induction i generalizing k with
  | zero => rfl
  | succ i ih =>
    have h1 : (n - 1).toNat = n.toNat - 1 := by
      rw [UInt32.toNat_sub_of_le]
      · rfl
      · rw [UInt32.le_iff_toNat_le, UInt32.toNat_one]; omega
    have hone : (1 : UInt32).toNat = 1 := rfl
    rw [register, lsfr, UInt32.toNat_or, Nat.testBit_or,
      testBit_shiftRight _ _ _ (by decide), testBit_shiftLeft _ _ (by omega) (by omega), h1,
      decide_eq_false (by omega), Bool.false_and, Bool.or_false, hone, ih (by omega)]
    congr 1
    omega

/-- A seed of `n` bits shows up in the first `n` bits of the code. -/
theorem exists_codeBit (uiValue : UInt32) {uiSeed n : UInt32} (hn : n.toNat ≤ 32)
    (hpos : 1 ≤ uiSeed.toNat) (hlt : uiSeed.toNat < 2 ^ n.toNat) :
    ∃ i < n.toNat, codeBit uiSeed uiValue n i = true := by
  obtain ⟨i, hi⟩ := Nat.exists_testBit_of_ne_zero (Nat.one_le_iff_ne_zero.mp hpos)
  have hin : i < n.toNat := by
    by_contra hge
    have hpow : 2 ^ n.toNat ≤ 2 ^ i := Nat.pow_le_pow_right (by decide) (Nat.not_lt.mp hge)
    rw [Nat.testBit_lt_two_pow (lt_of_lt_of_le hlt hpow)] at hi
    exact absurd hi (by decide)
  refine ⟨i, hin, ?_⟩
  rw [codeBit_eq, testBit_register uiSeed uiValue hn (by omega), Nat.zero_add]
  exact hi

/-! ### The words of the table -/

/-- Every code bit that `GetLfsrUint` packs is zero; the bit after the last one is the stack's. -/
theorem getLfsrUint_zero (bitBuff : ℕ → UInt8) (uiSeed uiValue : UInt32) (puiBuff : ℕ → UInt32)
    {n : UInt32} (hn5 : 5 ≤ n.toNat) (hn11 : n.toNat ≤ 11) {i : ℕ} (hi : i < 2 ^ n.toNat - 1) :
    (getLfsrUint bitBuff uiSeed uiValue puiBuff n (i / 32)).toNat.testBit (i % 32) = false := by
  obtain ⟨d, hd⟩ := Nat.exists_eq_add_of_le hn5
  have hpow : 2 ^ n.toNat = 32 * 2 ^ d := by rw [hd, Nat.pow_add]
  rw [testBit_getLfsrUint _ _ _ _ hn5 hn11 (by omega) (Nat.mod_lt _ (by decide)),
    Nat.div_add_mod', decide_eq_false (by omega), Bool.false_and]

/-! ### The copy -/

theorem ramLoop_words {buf ram ram' : ℕ → UInt32} {m i : ℕ} (h : ramLoop buf m i ram = .ok ram')
    (k : ℕ) : ram' k = if i ≤ k ∧ k < i + m then buf k else ram k := by
  induction m generalizing i ram with
  | zero =>
    obtain rfl := Except.ok.inj h
    rw [if_neg (by omega)]
  | succ m ih =>
    rw [ramLoop] at h
    split at h
    · rw [ih h]
      rcases eq_or_ne k i with rfl | hne
      · rw [if_neg (by omega), if_pos (by omega), Function.update_self]
      · rw [Function.update_of_ne hne]
        have hiff : (i + 1 ≤ k ∧ k < i + 1 + m) ↔ i ≤ k ∧ k < i + (m + 1) := by omega
        simp only [hiff]
    · simp at h

theorem holdsCode_iff {uiSeed uiValue n : UInt32} (hn : n.toNat ≤ 11) (hpos : 1 ≤ uiSeed.toNat)
    (hlt : uiSeed.toNat < 2 ^ n.toNat) {bitBuff : ℕ → UInt8}
    {puiPrbsBuff ram prbs ram' : ℕ → UInt32}
    (h : setDataToRam bitBuff uiSeed uiValue n puiPrbsBuff ram = .ok (prbs, ram')) :
    HoldsCode ram' uiSeed uiValue n ↔ n.toNat ≤ 4 ∧ HoldsCode ram uiSeed uiValue n := by
  obtain ⟨ram₁, hloop, hpure⟩ := bind_eq_ok.mp h
  obtain ⟨rfl, rfl⟩ := Prod.mk.inj (pure_eq_ok.mp hpure)
  have hcopy := ramLoop_words hloop
  rw [ramWords, if_pos (by omega)] at hcopy
  rcases Nat.lt_or_ge n.toNat 5 with hshort | hlong
  · have hpow : 2 ^ n.toNat ≤ 2 ^ 4 := Nat.pow_le_pow_right (by decide) (by omega)
    have hsame : ram₁ = ram := by
      funext k
      rw [hcopy k, if_neg (by omega)]
    rw [hsame]
    exact ⟨fun h => ⟨by omega, h⟩, fun h => h.2⟩
  · refine iff_of_false ?_ (by omega)
    intro hcode
    obtain ⟨i, hi, hbit⟩ := exists_codeBit uiValue (by omega) hpos hlt
    have hin : i < 2 ^ n.toNat - 1 := by
      have := Nat.lt_two_pow_self (n := n.toNat)
      omega
    obtain ⟨d, hd⟩ := Nat.exists_eq_add_of_le hlong
    have hpow : 2 ^ n.toNat = 32 * 2 ^ d := by rw [hd, Nat.pow_add]
    have hread := hcode i hin
    rw [hbit, hcopy, if_pos (by omega), getLfsrUint_zero _ _ _ _ hlong hn hin] at hread
    exact absurd hread (by decide)

/-- CORRECT (code RAM): for every seed and polynomial `SetDataToRam` returns, and the RAM then holds
    the code exactly if the code is shorter than a word and was there before. -/
theorem setDataToRam_code (uiValue : UInt32) {uiSeed n : UInt32} (hn : n.toNat ≤ 11)
    (hpos : 1 ≤ uiSeed.toNat) (hlt : uiSeed.toNat < 2 ^ n.toNat) (bitBuff : ℕ → UInt8)
    (puiPrbsBuff ram : ℕ → UInt32) :
    ∃ prbs ram', setDataToRam bitBuff uiSeed uiValue n puiPrbsBuff ram = .ok (prbs, ram') ∧
      (HoldsCode ram' uiSeed uiValue n ↔ n.toNat ≤ 4 ∧ HoldsCode ram uiSeed uiValue n) := by
  obtain ⟨⟨prbs, ram'⟩, hset⟩ := setDataToRam_ok.mpr (Or.inl hn)
  exact ⟨prbs, ram', hset, holdsCode_iff hn hpos hlt hset⟩

/-- The code of seven bits with the polynomial x^7 + x + 1 and the seed 1. -/
theorem setDataToRam_code_bench : ∃ prbs ram', setDataToRam (fun _ => 0) 1 0x83 7 (fun _ => 0)
      (fun _ => 0) = .ok (prbs, ram') ∧
    (HoldsCode ram' 1 0x83 7 ↔ (7 : UInt32).toNat ≤ 4 ∧ HoldsCode (fun _ => 0) 1 0x83 7) :=
  setDataToRam_code 0x83 (by decide) (by decide) (by decide) _ _ _

/-- That code starts with a one, and the RAM with a zero. -/
theorem setDataToRam_zeros : ¬ ∀ (uiSeed uiValue n b : UInt32) (bitBuff : ℕ → UInt8)
    (puiPrbsBuff ram prbs ram' : ℕ → UInt32), 1 ≤ n.toNat → n.toNat ≤ 11 →
    checkValue uiValue n = 0 → 0 < b.toNat → b.toNat < n.toNat →
    getBitSet uiValue = (n.toUInt8, b.toUInt8) → uiValue.toNat = 2 ^ n.toNat + 2 ^ b.toNat + 1 →
    1 ≤ uiSeed.toNat → uiSeed.toNat < 2 ^ n.toNat →
    setDataToRam bitBuff uiSeed uiValue n puiPrbsBuff ram = .ok (prbs, ram') →
    HoldsCode ram' uiSeed uiValue n := by
  intro h
  have hset : ∃ x, setDataToRam (fun _ => 0) 1 0x83 7 (fun _ => 0) (fun _ => 0) = .ok x :=
    setDataToRam_ok.mpr (by decide)
  obtain ⟨⟨prbs, ram'⟩, hset⟩ := hset
  have hcode := h 1 0x83 7 1 _ _ _ _ _ (by decide) (by decide) (by decide) (by decide) (by decide)
    (by decide) (by decide) (by decide) (by decide) hset
  exact absurd ((holdsCode_iff (by decide) (by decide) (by decide) hset).mp hcode).1 (by decide)

end AcqBoard.App
