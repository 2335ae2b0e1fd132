import Mathlib

/-! Binary sequences of maximal length.

    A linear recurrence of order `n` over two elements has `2^n - 1` solutions that are not zero. If one
    of them does not come back before `2^n - 1` places, its shifts are all of them, and everything that
    makes such a sequence useful as a code follows from that: the sum of the sequence and a shift of it
    is another shift of it, so it is as different from its shifts as it can be. -/

namespace Schemes
open Finset

/-! ### Signs -/

/-- The two elements as levels. -/
def level (x : ZMod 2) : ℤ := if x = 0 then 1 else -1

theorem level_add : ∀ x y : ZMod 2, level (x + y) = level x * level y := by decide

theorem level_mul_self : ∀ x : ZMod 2, level x * level x = 1 := by decide

/-- Among all words of a length each place is 0 as often as it is 1. -/
theorem sum_level {n : ℕ} (k : Fin n) : ∑ w : Fin n → ZMod 2, level (w k) = 0 := by
  have hflip : ∑ w : Fin n → ZMod 2, level (w k) = ∑ w : Fin n → ZMod 2, -level (w k) := by
    refine Fintype.sum_equiv (Equiv.addRight (Pi.single k 1)) _ _ fun w => ?_
    have hone : level 1 = -1 := rfl
    have hk : (w + Pi.single k 1 : Fin n → ZMod 2) k = w k + 1 := by
      rw [Pi.add_apply, Pi.single_eq_same]
    change level (w k) = -level ((w + Pi.single k 1 : Fin n → ZMod 2) k)
    rw [hk, level_add, hone]
    omega
  rw [Finset.sum_neg_distrib] at hflip
  omega

/-! ### Solutions and their shifts -/

def shift (τ : ℕ) (u : ℕ → ZMod 2) : ℕ → ZMod 2 := fun i => u (i + τ)

variable {E : LinearRecurrence (ZMod 2)} {u v : ℕ → ZMod 2}

theorem shift_add (σ τ : ℕ) (u : ℕ → ZMod 2) : shift σ (shift τ u) = shift (σ + τ) u :=
  funext fun i => congrArg u (Nat.add_assoc i σ τ)

theorem isSolution_shift (hu : E.IsSolution u) (τ : ℕ) : E.IsSolution (shift τ u) := by
  intro i
  have h := hu (i + τ)
  simp only [shift]
  rw [Nat.add_right_comm, h]
  exact Finset.sum_congr rfl fun k _ => by rw [Nat.add_right_comm]

theorem isSolution_add (hu : E.IsSolution u) (hv : E.IsSolution v) : E.IsSolution (u + v) :=
  E.solSpace.add_mem hu hv

/-- The first place counts in the recurrence, so that it can be run backwards. -/
def Reversible (E : LinearRecurrence (ZMod 2)) : Prop := ∃ h : 0 < E.order, E.coeffs ⟨0, h⟩ = 1

theorem eq_of_shift_one (hE : Reversible E) (hu : E.IsSolution u) (hv : E.IsSolution v)
    (h : shift 1 u = shift 1 v) : u = v := by
  obtain ⟨hpos, hone⟩ := hE
  have hnext : ∀ i, u (i + 1) = v (i + 1) := fun i => congrFun h i
  have hlater : ∀ i, 0 < i → u i = v i := by
    intro i hi
    obtain ⟨j, rfl⟩ := Nat.exists_eq_add_of_lt hi
    exact hnext (0 + j)
  have hu₀ := hu 0
  have hv₀ := hv 0
  rw [← Finset.add_sum_erase _ _ (Finset.mem_univ (⟨0, hpos⟩ : Fin E.order)), hone, one_mul] at hu₀ hv₀
  have hsum : ∑ k ∈ univ.erase (⟨0, hpos⟩ : Fin E.order), E.coeffs k * u (0 + k) =
      ∑ k ∈ univ.erase (⟨0, hpos⟩ : Fin E.order), E.coeffs k * v (0 + k) := by
    refine Finset.sum_congr rfl fun k hk => ?_
    have hk0 : (k : ℕ) ≠ 0 := fun h0 => (Finset.ne_of_mem_erase hk) (Fin.ext h0)
    rw [hlater _ (by omega)]
  have hfirst : u 0 = v 0 := by
    have hend := hlater (0 + E.order) (by omega)
    rw [hu₀, hv₀, hsum] at hend
    exact add_right_cancel hend
  funext i
  rcases Nat.eq_zero_or_pos i with rfl | hi
  · exact hfirst
  · exact hlater i hi

theorem eq_of_shift (hE : Reversible E) (hu : E.IsSolution u) (hv : E.IsSolution v) (τ : ℕ)
    (h : shift τ u = shift τ v) : u = v := by
  induction τ with
  | zero => exact h
  | succ τ ih =>
    rw [Nat.add_comm, ← shift_add, ← shift_add] at h
    exact ih (eq_of_shift_one hE (isSolution_shift hu τ) (isSolution_shift hv τ) h)

theorem isSolution_zero : E.IsSolution 0 := E.solSpace.zero_mem

theorem shift_ne_zero (hE : Reversible E) (hu : E.IsSolution u) (h0 : u ≠ 0) (τ : ℕ) :
    shift τ u ≠ 0 :=
  fun h => h0 (eq_of_shift hE hu isSolution_zero τ h)

/-! ### Windows -/

/-- The places of `u` from `i` on that the recurrence looks at. -/
def window (E : LinearRecurrence (ZMod 2)) (u : ℕ → ZMod 2) (i : ℕ) : Fin E.order → ZMod 2 :=
  fun k => u (k + i)

theorem eq_of_window (hu : E.IsSolution u) (hv : E.IsSolution v) {i j : ℕ}
    (h : window E u i = window E v j) : shift i u = shift j v := by
  refine (E.eq_iff_eqOn_range_order _ _ (isSolution_shift hu i) (isSolution_shift hv j)).mpr ?_
  intro k hk
  exact congrFun h ⟨k, Finset.mem_range.mp hk⟩

theorem shift_eq_iff (hu : E.IsSolution u) {τ : ℕ} :
    shift τ u = u ↔ window E u τ = window E u 0 := by
  exact ⟨fun h => funext fun k => congrFun h k, fun h => eq_of_window hu hu h⟩

theorem window_ne_zero (hE : Reversible E) (hu : E.IsSolution u) (h0 : u ≠ 0) (i : ℕ) :
    window E u i ≠ 0 := by
  intro h
  have hzero : shift i u = shift 0 0 := eq_of_window hu isSolution_zero h
  exact shift_ne_zero hE hu h0 i hzero

/-! ### Maximal length -/

/-- The length of the longest solutions. -/
def fullLength (E : LinearRecurrence (ZMod 2)) : ℕ := 2 ^ E.order - 1

/-- The solution does not come back early. -/
def Maximal (E : LinearRecurrence (ZMod 2)) (u : ℕ → ZMod 2) : Prop :=
  ∀ τ, 0 < τ → τ < fullLength E → shift τ u ≠ u

section
variable (hE : Reversible E) (hu : E.IsSolution u) (h0 : u ≠ 0) (hmax : Maximal E u)
include hE hu

theorem sub_of_shift_eq {i j : ℕ} (hij : i ≤ j) (h : shift i u = shift j u) : shift (j - i) u = u := by
  refine eq_of_shift hE (isSolution_shift hu _) hu i ?_
  rw [shift_add, Nat.add_sub_cancel' hij, h]

include hmax

theorem window_injOn : Set.InjOn (window E u) (range (fullLength E)) := by
  intro i hi j hj h
  have hi' := Finset.mem_range.mp hi
  have hj' := Finset.mem_range.mp hj
  have hshift := eq_of_window hu hu h
  by_contra hne
  rcases Nat.lt_or_gt_of_ne hne with hlt | hgt
  · exact hmax (j - i) (by omega) (by omega) (sub_of_shift_eq hE hu hlt.le hshift)
  · exact hmax (i - j) (by omega) (by omega) (sub_of_shift_eq hE hu hgt.le hshift.symm)

include h0

/-- The windows of one round are all words but zero. -/
theorem image_window : (range (fullLength E)).image (window E u) = univ.erase 0 := by
  refine Finset.eq_of_subset_of_card_le ?_ ?_
  · intro w hw
    obtain ⟨i, -, rfl⟩ := Finset.mem_image.mp hw
    exact Finset.mem_erase.mpr ⟨window_ne_zero hE hu h0 i, Finset.mem_univ _⟩
  · rw [Finset.card_image_of_injOn (window_injOn hE hu hmax), Finset.card_range,
      Finset.card_erase_of_mem (Finset.mem_univ _), Finset.card_univ, Fintype.card_fun, ZMod.card,
      Fintype.card_fin, fullLength]

/-- RULE (windows): every word but zero stands at exactly one place of a round. -/
theorem existsUnique_window {w : Fin E.order → ZMod 2} (hw : w ≠ 0) :
    ∃! i, i < fullLength E ∧ window E u i = w := by
  have hmem : w ∈ (range (fullLength E)).image (window E u) := by
    rw [image_window hE hu h0 hmax]
    exact Finset.mem_erase.mpr ⟨hw, Finset.mem_univ w⟩
  obtain ⟨i, hi, rfl⟩ := Finset.mem_image.mp hmem
  refine ⟨i, ⟨Finset.mem_range.mp hi, rfl⟩, ?_⟩
  rintro j ⟨hj, h⟩
  exact window_injOn hE hu hmax (Finset.mem_coe.mpr (Finset.mem_range.mpr hj))
    (Finset.mem_coe.mpr hi) h

/-- RULE (shifts): every solution but zero is a shift of the sequence. -/
theorem exists_shift (hv : E.IsSolution v) (hv0 : v ≠ 0) : ∃ k < fullLength E, v = shift k u := by
  have hw : window E v 0 ≠ 0 := window_ne_zero hE hv hv0 0
  obtain ⟨k, ⟨hk, h⟩, -⟩ := existsUnique_window hE hu h0 hmax hw
  exact ⟨k, hk, (eq_of_window hu hv h).symm⟩

theorem shift_fullLength : shift (fullLength E) u = u := by
  obtain ⟨k, hk, h⟩ := exists_shift hE hu h0 hmax (isSolution_shift hu (fullLength E))
    (shift_ne_zero hE hu h0 _)
  have hback := sub_of_shift_eq hE hu hk.le h.symm
  rcases Nat.eq_zero_or_pos k with rfl | hpos
  · exact h
  · exact absurd hback (hmax _ (by omega) (by omega))

theorem shift_mod (τ : ℕ) : shift (τ % fullLength E) u = shift τ u := by
  induction τ using Nat.strongRecOn with
  | ind τ ih =>
    rcases Nat.lt_or_ge τ (fullLength E) with hlt | hge
    · rw [Nat.mod_eq_of_lt hlt]
    · rcases Nat.eq_zero_or_pos (fullLength E) with hzero | hpos
      · rw [hzero, Nat.mod_zero]
      · rw [Nat.mod_eq_sub_mod hge, ih _ (by omega)]
        conv_rhs => rw [← Nat.sub_add_cancel hge, ← shift_add, shift_fullLength hE hu h0 hmax]

/-- Whether a recurrence has maximal solutions does not depend on which of them is taken. -/
theorem maximal_of_maximal (hv : E.IsSolution v) (hv0 : v ≠ 0) : Maximal E v := by
  obtain ⟨k, -, rfl⟩ := exists_shift hE hu h0 hmax hv hv0
  intro τ hpos hlt h
  refine hmax τ hpos hlt (eq_of_shift hE (isSolution_shift hu _) hu k ?_)
  rw [shift_add, Nat.add_comm, ← shift_add]
  exact h

/-- RULE (balance): a round has one 1 more than it has 0s. -/
theorem sum_level_round (k : ℕ) : ∑ i ∈ range (fullLength E), level (shift k u i) = -1 := by
  obtain ⟨hpos, -⟩ := id hE
  have hk := maximal_of_maximal hE hu h0 hmax (isSolution_shift hu k) (shift_ne_zero hE hu h0 k)
  have hsum := sum_level (⟨0, hpos⟩ : Fin E.order)
  have himage := image_window hE (isSolution_shift hu k) (shift_ne_zero hE hu h0 k) hk
  have hinj := window_injOn hE (isSolution_shift hu k) hk
  rw [← Finset.add_sum_erase _ _ (Finset.mem_univ (0 : Fin E.order → ZMod 2)), ← himage,
    Finset.sum_image fun i hi j hj h => hinj hi hj h] at hsum
  have hterm : ∀ i, level (window E (shift k u) i ⟨0, hpos⟩) = level (shift k u i) := by
    intro i
    rw [window, Nat.zero_add]
  have hzero : level ((0 : Fin E.order → ZMod 2) ⟨0, hpos⟩) = 1 := rfl
  rw [hzero, Finset.sum_congr rfl fun i _ => hterm i] at hsum
  omega

end

/-- Agreements of the sequence and its shift in one round, less disagreements. -/
def roundCorrelation (E : LinearRecurrence (ZMod 2)) (u : ℕ → ZMod 2) (τ : ℕ) : ℤ :=
  ∑ i ∈ range (fullLength E), level (u i) * level (u (i + τ))

/-- RULE (correlation): a solution but zero is maximal exactly if its correlation with each of its
    shifts but the whole rounds is -1. -/
theorem maximal_iff (hE : Reversible E) (hu : E.IsSolution u) (h0 : u ≠ 0) :
    Maximal E u ↔ ∀ τ, ¬ fullLength E ∣ τ → roundCorrelation E u τ = -1 := by
  constructor
  · intro hmax τ hτ
    have hne : shift τ u ≠ u := by
      rw [← shift_mod hE hu h0 hmax]
      rcases Nat.eq_zero_or_pos (fullLength E) with hzero | hpos
      · rw [hzero, Nat.mod_zero]
        obtain ⟨hord, -⟩ := hE
        have : 2 ^ 1 ≤ 2 ^ E.order := Nat.pow_le_pow_right (by decide) hord
        unfold fullLength at hzero
        omega
      · exact hmax _ (Nat.pos_of_ne_zero fun h => hτ (Nat.dvd_of_mod_eq_zero h)) (Nat.mod_lt _ hpos)
    have hsum0 : u + shift τ u ≠ 0 := by
      intro h
      refine hne (funext fun i => ?_)
      have hi := congrFun h i
      rw [Pi.add_apply, Pi.zero_apply] at hi
      exact (CharTwo.add_eq_zero.mp hi).symm
    obtain ⟨k, -, hk⟩ := exists_shift hE hu h0 hmax (isSolution_add hu (isSolution_shift hu τ)) hsum0
    rw [← sum_level_round hE hu h0 hmax k, ← hk]
    exact Finset.sum_congr rfl fun i _ => (level_add _ _).symm
  · intro h τ hpos hlt hback
    have hone : roundCorrelation E u τ = fullLength E := by
      have hterm : ∀ i, level (u i) * level (u (i + τ)) = 1 := by
        intro i
        rw [show u (i + τ) = u i from congrFun hback i, level_mul_self]
      rw [roundCorrelation, Finset.sum_congr rfl fun i _ => hterm i, Finset.sum_const,
        Finset.card_range, nsmul_one]
    have hneg := h τ fun hdvd => absurd (Nat.le_of_dvd hpos hdvd) (by omega)
    omega

end Schemes
