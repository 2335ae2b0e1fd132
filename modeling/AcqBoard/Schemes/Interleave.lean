import AcqBoard.Schemes.Run

/-! Interleavings of several parties.

    A label names the party and its next atomic step, so an interleaving is a run over labels. A step
    can be undefined for two reasons: the party is not at the point where it takes the step, or the
    code of the step faults. -/

namespace Schemes

variable {φ : Type*} {α : Type*}

/-- Why a step of an interleaving is undefined. -/
inductive Stuck (φ : Type*) where
  | disabled
  | fault (f : φ)
  deriving DecidableEq

/-- A step that is taken only where `p` holds. -/
def enabled (p : Prop) [Decidable p] (x : Except (Stuck φ) α) : Except (Stuck φ) α :=
  if p then x else .error .disabled

/-- The code of a step, as a step of the interleaving. -/
def orFault (x : Except φ α) : Except (Stuck φ) α := x.mapError .fault

theorem enabled_eq_ok {p : Prop} [Decidable p] {x : Except (Stuck φ) α} {a : α} :
    enabled p x = .ok a ↔ p ∧ x = .ok a := by
  unfold enabled
  split <;> simp_all

theorem orFault_eq_ok {x : Except φ α} {a : α} : orFault x = .ok a ↔ x = .ok a := by
  cases x <;> simp [orFault, Except.mapError]

theorem enabled_eq_fault {p : Prop} [Decidable p] {x : Except (Stuck φ) α} {f : φ} :
    enabled p x = .error (.fault f) ↔ p ∧ x = .error (.fault f) := by
  unfold enabled
  split <;> simp_all

theorem orFault_eq_fault {x : Except φ α} {f : φ} :
    orFault x = .error (.fault f) ↔ x = .error f := by
  cases x <;> simp [orFault, Except.mapError]

end Schemes
