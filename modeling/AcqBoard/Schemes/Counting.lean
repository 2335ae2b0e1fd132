import Mathlib.Data.List.Iterate
import Mathlib.Logic.Function.Iterate

/-! A stream that counts, and a checker that looks for what is missing in it.

    The sender counts by a function `next`. Some of what it counts is lost on the way, so that the
    stream is a sequence of gaps with what arrives behind each. The checker knows the last element,
    expects its successor, and goes on from whatever it finds. What it reports is the gaps, but for
    those that lead back to where they started. -/

namespace Schemes

variable {α : Type*} (next : α → α)

/-- Some elements are lost, one arrives, and some `more` behind it. -/
structure Gap where
  lost : ℕ
  more : ℕ

/-- The last element that arrives. -/
def Gap.last (g : Gap) (c : α) : α := next^[g.more] (next^[g.lost + 1] c)

/-- What arrives behind `c`. -/
def arrivals : α → List Gap → List α
  | _, [] => []
  | c, g :: gs => List.iterate next (next^[g.lost + 1] c) (g.more + 1) ++ arrivals (g.last next c) gs

variable [DecidableEq α]

/-- What the checker reports: the element that it expects, and the one that it finds. -/
def breaks : α → List α → List (α × α)
  | _, [] => []
  | c, x :: xs => (if next c = x then [] else [(next c, x)]) ++ breaks x xs

/-- What there is to report: of each gap the first element lost and the first that arrives, unless
    they are the same. -/
def losses : α → List Gap → List (α × α)
  | _, [] => []
  | c, g :: gs => (if next^[g.lost] c = c then [] else [(next c, next^[g.lost + 1] c)]) ++
      losses (g.last next c) gs

section
variable {next} {c : α}

omit [DecidableEq α] in
theorem getLastD_append (xs ys : List α) :
    (xs ++ ys).getLastD c = ys.getLastD (xs.getLastD c) := by
  induction xs generalizing c with
  | nil => rfl
  | cons x xs ih => rw [List.cons_append, List.getLastD_cons, List.getLastD_cons, ih]

theorem breaks_append (xs ys : List α) :
    breaks next c (xs ++ ys) = breaks next c xs ++ breaks next (xs.getLastD c) ys := by
  induction xs generalizing c with
  | nil => rfl
  | cons x xs ih =>
    rw [List.cons_append, breaks, breaks, ih, List.getLastD_cons, List.append_assoc]

/-- Elements that follow each other are no news. -/
theorem breaks_iterate (m : ℕ) : breaks next c (List.iterate next (next c) m) = [] := by
  induction m generalizing c with
  | zero => rfl
  | succ m ih => rw [List.iterate, breaks, if_pos rfl, ih, List.append_nil]

omit [DecidableEq α] in
theorem getLastD_iterate (m : ℕ) : (List.iterate next (next c) m).getLastD c = next^[m] c := by
  induction m generalizing c with
  | zero => rfl
  | succ m ih => rw [List.iterate, List.getLastD_cons, ih, Function.iterate_succ_apply]

/-- The checker reports what there is to report, by induction on the gaps. -/
theorem breaks_arrivals (hinj : Function.Injective next) (gs : List Gap) :
    breaks next c (arrivals next c gs) = losses next c gs := by
  induction gs generalizing c with
  | nil => rfl
  | cons g gs ih =>
    have hback : next c = next^[g.lost + 1] c ↔ next^[g.lost] c = c := by
      rw [Function.iterate_succ_apply', hinj.eq_iff, eq_comm]
    rw [arrivals, List.iterate, List.cons_append, breaks, breaks_append, breaks_iterate,
      List.nil_append, getLastD_iterate, losses]
    simp only [hback]
    rw [← ih]
    rfl

omit [DecidableEq α] in
/-- Any stream is what arrives of the count, if the count comes past everything. -/
theorem exists_arrivals (hall : ∀ c x, ∃ n, next^[n + 1] c = x) (xs : List α) :
    ∃ gs, arrivals next c gs = xs := by
  induction xs generalizing c with
  | nil => exact ⟨[], rfl⟩
  | cons x xs ih =>
    obtain ⟨n, rfl⟩ := hall c x
    obtain ⟨gs, hgs⟩ := ih (c := next^[n + 1] c)
    exact ⟨⟨n, 0⟩ :: gs, congrArg (next^[n + 1] c :: ·) hgs⟩

end

end Schemes
