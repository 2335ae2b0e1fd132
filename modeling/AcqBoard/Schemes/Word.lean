import Mathlib.Algebra.Ring.Int.Defs
import Mathlib.Algebra.Ring.Nat
import Mathlib.Tactic.Common

/-! Machine words bit by bit, and as signed numbers. -/

namespace Schemes

theorem testBit_high (x : UInt32) {i : ℕ} (hi : 32 ≤ i) : x.toNat.testBit i = false :=
  Nat.testBit_lt_two_pow (lt_of_lt_of_le x.toNat_lt (Nat.pow_le_pow_right (by decide) hi))

theorem testBit_not (x : UInt32) {i : ℕ} (hi : i < 32) :
    (~~~x).toNat.testBit i = !x.toNat.testBit i := by
  rw [← UInt32.toNat_toBitVec, ← UInt32.toNat_toBitVec, UInt32.toBitVec_not,
    BitVec.testBit_toNat, BitVec.testBit_toNat, BitVec.getLsbD_not]
  simp [hi]

theorem testBit_shiftLeft (x s : UInt32) {i : ℕ} (hs : s.toNat < 32) (hi : i < 32) :
    (x <<< s).toNat.testBit i = (decide (s.toNat ≤ i) && x.toNat.testBit (i - s.toNat)) := by
  rw [UInt32.toNat_shiftLeft, Nat.mod_eq_of_lt hs, Nat.testBit_mod_two_pow, Nat.testBit_shiftLeft]
  simp [hi]

theorem testBit_shiftRight (x s : UInt32) (i : ℕ) (hs : s.toNat < 32) :
    (x >>> s).toNat.testBit i = x.toNat.testBit (s.toNat + i) := by
  rw [UInt32.toNat_shiftRight, Nat.mod_eq_of_lt hs, Nat.testBit_shiftRight]

/-- The mask of all but the low six bits rounds down to a multiple of 64. -/
theorem toNat_and_high (x : UInt32) : (x &&& 0xffffffc0).toNat = x.toNat / 64 * 64 := by
  have hmask : (0xffffffc0 : UInt32).toNat = (2 ^ 26 - 1) <<< 6 := rfl
  have hround : x.toNat / 64 * 64 = x.toNat >>> 6 <<< 6 := by
    rw [Nat.shiftLeft_eq, Nat.shiftRight_eq_div_pow]
  rw [hround, UInt32.toNat_and, hmask]
  refine Nat.eq_of_testBit_eq fun i => ?_
  rw [Nat.testBit_and, Nat.testBit_shiftLeft, Nat.testBit_two_pow_sub_one, Nat.testBit_shiftLeft,
    Nat.testBit_shiftRight]
  rcases Nat.lt_or_ge i 6 with hlt | hge
  · simp [Nat.not_le.mpr hlt]
  · rw [decide_eq_true hge, Bool.true_and, Bool.true_and, Nat.add_sub_cancel' hge]
    rcases Nat.lt_or_ge i 32 with hi | hi
    · rw [decide_eq_true (by omega), Bool.and_true]
    · rw [testBit_high x hi, Bool.false_and]

/-- An unsigned value as a signed one. -/
theorem toInt_toInt32 (x : UInt32) :
    x.toInt32.toInt = if x.toNat < 2 ^ 31 then (x.toNat : ℤ) else x.toNat - 2 ^ 32 := by
  have h : x.toInt32.toInt = x.toBitVec.toInt := rfl
  rw [h, BitVec.toInt_eq_toNat_cond, UInt32.toNat_toBitVec]
  split <;> split <;> omega

end Schemes
