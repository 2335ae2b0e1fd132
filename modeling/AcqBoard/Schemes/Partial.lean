import Mathlib.Tactic.Common

/-! Partial computations.

    A computation that stops when it reads outside of its memory, or when its fuel runs out, is an
    `Option`. With more memory and more fuel it returns more often and never anything else: it extends
    the one with less. So whatever two of them return is the same as soon as one extends both. -/

namespace Schemes

variable {α β : Type}

/-- What the first computation returns, the second one returns as well. -/
def Extends (x y : Option α) : Prop := ∀ a, x = some a → y = some a

variable {x y : Option α} {f g : α → Option β}

theorem Extends.refl (x : Option α) : Extends x x := fun _ h => h

theorem extends_none (y : Option α) : Extends none y := fun _ h => nomatch h

theorem Extends.bind (h : Extends x y) (hf : ∀ a, Extends (f a) (g a)) :
    Extends (x >>= f) (y >>= g) := by
  intro b hb
  obtain ⟨a, ha, hb⟩ := Option.bind_eq_some_iff.mp hb
  exact Option.bind_eq_some_iff.mpr ⟨a, h a ha, hf a b hb⟩

theorem Extends.ite {p : Prop} [Decidable p] {x' y' : Option α} (h : Extends x y)
    (h' : Extends x' y') : Extends (if p then x else x') (if p then y else y') := by
  split
  · exact h
  · exact h'

theorem Extends.map (h : Extends x y) (f : α → β) : Extends (x.map f) (y.map f) := by
  intro b hb
  obtain ⟨a, ha, rfl⟩ := Option.map_eq_some_iff.mp hb
  rw [h a ha]
  rfl

/-- RULE (agreement): two computations with a common extension return the same. -/
theorem Extends.agree {z : Option α} {a b : α} (hx : Extends x z) (hy : Extends y z)
    (ha : x = some a) (hb : y = some b) : a = b :=
  Option.some.inj ((hx a ha).symm.trans (hy b hb))

end Schemes
