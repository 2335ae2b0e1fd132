import Mathlib.Algebra.Ring.Nat
import Mathlib.Data.Nat.Notation
import Mathlib.Tactic.Common

/-! The code sequence: `lfsr.c`.

    `GetLfsrUint` is meant to fill a table of words with a pseudo-random bit sequence. In this
    version the generator call is commented out and every code bit is 0; only the packing of bits
    into words is left, and the bit after the last code bit is whatever the stack held. -/

namespace AcqBoard.Lfsr

def powerLoop : ℕ → UInt32 → UInt32
  | 0, uiRet => uiRet
  | i + 1, uiRet => powerLoop i (uiRet * 2)

def power (n : UInt32) : UInt32 := powerLoop n.toNat 1

theorem toNat_powerLoop (n : ℕ) (x : UInt32) :
    (powerLoop n x).toNat = x.toNat * 2 ^ n % 2 ^ 32 := by
  induction n generalizing x with
  | zero => simp [powerLoop, Nat.mod_eq_of_lt x.toNat_lt]
  | succ n ih =>
    have h2 : (2 : UInt32).toNat = 2 := rfl
    rw [powerLoop, ih, UInt32.toNat_mul, h2, Nat.mod_mul_mod, Nat.mul_assoc, ← Nat.pow_succ']

theorem toNat_power (n : UInt32) : (power n).toNat = 2 ^ n.toNat % 2 ^ 32 := by
  rw [power, toNat_powerLoop, UInt32.toNat_one, Nat.one_mul]

theorem toNat_power_small {n : UInt32} (h : n.toNat < 32) : (power n).toNat = 2 ^ n.toNat := by
  rw [toNat_power, Nat.mod_eq_of_lt (Nat.pow_lt_pow_right (by decide) h)]

theorem power_large {n : UInt32} (h : 32 ≤ n.toNat) : power n = 0 := by
  refine UInt32.toNat_inj.mp ?_
  obtain ⟨k, hk⟩ := Nat.exists_eq_add_of_le h
  rw [toNat_power, hk, Nat.pow_add, Nat.mul_mod_right]; rfl

/-- `for (i=len-1; i>=0; i--) uiHex = (uiHex<<1) | bits[i]`. -/
def bitToHex (bits : ℕ → UInt8) : ℕ → UInt32 → UInt32
  | 0, uiHex => uiHex
  | i + 1, uiHex => bitToHex bits i ((uiHex <<< 1) ||| (bits i).toUInt32)

/-! ### The generator

    These are the functions that the commented-out call was built from. `GetLsfr` is written for a
    register of seven bits; `lsfr` is its rule for any length. -/

/-- `CheckValue`: the polynomial has the terms 1 and x^n. -/
def checkValue (uiValue n : UInt32) : Int32 :=
  if uiValue &&& 1 ≠ 1 then -1
  else if (uiValue >>> n) &&& 1 ≠ 1 then -1
  else 0

/-- The loop of `GetBitSet` at bit `31 - i`, the highest set bit so far in `ucFirst`. -/
def bitSetLoop (uiValue : UInt32) : ℕ → UInt32 → UInt8 → UInt8 × UInt8
  | 0, _, ucFirst => (ucFirst, 0)
  | m + 1, i, ucFirst =>
    if 0x80000000 = 0x80000000 &&& (uiValue <<< i) then
      if ucFirst = 0 then bitSetLoop uiValue m (i + 1) (32 - i - 1).toUInt8
      else (ucFirst, (32 - i - 1).toUInt8)
    else bitSetLoop uiValue m (i + 1) ucFirst

/-- `GetBitSet`: the two highest set bits. -/
def getBitSet (uiValue : UInt32) : UInt8 × UInt8 := bitSetLoop uiValue 32 0 0

/-- One step of a register of `n` bits with the taps `ucFirst` and `ucSecond`: the bit put out, and
    the register after it. -/
def lsfr (n uiSeed ucFirst ucSecond : UInt32) : UInt8 × UInt32 :=
  let uiA := (uiSeed >>> (n - ucFirst)) &&& 0x1
  let uiB := (uiSeed >>> (n - ucSecond)) &&& 0x1
  let uiC := uiA ^^^ uiB
  ((uiSeed &&& 0x1).toUInt8, (uiSeed >>> 1) ||| (uiC <<< (n - 1)))

def getLsfr (uiSeed : UInt32) (ucFirst : UInt8) (ucSecond : UInt32) : UInt8 × UInt32 :=
  lsfr 7 uiSeed ucFirst.toUInt32 ucSecond

/-- The register of the polynomial `uiValue` after `i` steps. -/
def register (uiSeed uiValue n : UInt32) : ℕ → UInt32
  | 0 => uiSeed
  | i + 1 => (lsfr n (register uiSeed uiValue n i) (getBitSet uiValue).1.toUInt32
      (getBitSet uiValue).2.toUInt32).2

/-- The `i`-th bit of the code. -/
def codeBit (uiSeed uiValue n : UInt32) (i : ℕ) : Bool :=
  (lsfr n (register uiSeed uiValue n i) (getBitSet uiValue).1.toUInt32
    (getBitSet uiValue).2.toUInt32).1 = 1

example : getBitSet 0x83 = (7, 1) ∧ checkValue 0x83 7 = 0 := by decide

/-- `GetLfsrUint`: the words of `puiBuff` afterwards. `bitBuff` is the stack array before the call;
    seed and polynomial are only printed. -/
def getLfsrUint (bitBuff : ℕ → UInt8) (_uiSeed _uiValue : UInt32) (puiBuff : ℕ → UInt32)
    (n : UInt32) : ℕ → UInt32 :=
  if n > 11 then puiBuff
  else
    let uiNum := power n - 1
    let bits := fun i => if i < uiNum.toNat then 0 else bitBuff i
    fun j => if j < ((uiNum + 1) / 32).toNat then bitToHex (fun k => bits (j * 32 + k)) 32 0
      else puiBuff j

end AcqBoard.Lfsr
