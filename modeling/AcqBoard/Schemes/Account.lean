import AcqBoard.Schemes.Run
import Mathlib

/-! Runs whose steps are paid for.

    A measure of the state rises by no more than the cost of the step, so over a run it rises by no
    more than what the run costs. A potential is such a measure: what it holds beside the count of
    interest is paid in advance for the steps that raise the count and cost nothing. -/

namespace Schemes

variable {σ ε φ : Type*} {step : σ → ε → Except φ σ} {ok : σ → ε → Prop}

/-- RULE (account): what every step adds to the measure is at most its cost, and so for a run. -/
theorem run_cost {κ : Type*} [AddCommMonoid κ] [PartialOrder κ] [IsOrderedAddMonoid κ] {M : σ → κ}
    {cost : ε → κ} (hstep : ∀ {s e t}, ok s e → step s e = .ok t → M t ≤ M s + cost e) {es : List ε}
    {s t : σ} (hm : Meets step ok s es) (h : run step s es = .ok t) :
    M t ≤ M s + (es.map cost).sum := by
  induction es generalizing s with
  | nil =>
    obtain rfl : s = t := by simpa using h
    simp
  | cons e es ih =>
    obtain ⟨u, hu, hrun⟩ := run_cons_ok.mp h
    calc M t ≤ M u + (es.map cost).sum := ih (hm.2 u hu) hrun
      _ ≤ M s + cost e + (es.map cost).sum := by gcongr; exact hstep hm.1 hu
      _ = M s + ((e :: es).map cost).sum := by rw [List.map_cons, List.sum_cons, add_assoc]

end Schemes
