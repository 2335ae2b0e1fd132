import Mathlib.Data.List.Find
import Mathlib.Order.Defs.PartialOrder
import Mathlib.Tactic.Common

/-! Look-up of the first key below.

    A table is a list of keys and values over a preorder, and what is read at `x` is the value of its
    first entry with a key below `x`. With equality for an order this is an association list; with a
    coarser one an entry is also read at keys that are not its own, and hides the entries behind it
    there. `write_keeps_iff` says at which keys a write is noticed. -/

namespace Schemes

section
variable {α β : Type*} [Preorder α] [DecidableLE α] {l m r : List (α × β)} {k x y : α} {v : β}

def firstBelow (l : List (α × β)) (x : α) : Option β := (l.find? fun e => decide (e.1 ≤ x)).map (·.2)

@[simp] theorem firstBelow_nil (x : α) : firstBelow ([] : List (α × β)) x = none := rfl

theorem firstBelow_append (l r : List (α × β)) (x : α) :
    firstBelow (l ++ r) x = (firstBelow l x).or (firstBelow r x) := by
  rw [firstBelow, List.find?_append]
  cases h : l.find? fun e => decide (e.1 ≤ x) with
  | none => simp [firstBelow, h]
  | some e => simp [firstBelow, h]

theorem firstBelow_cons (k : α) (v : β) (r : List (α × β)) (x : α) :
    firstBelow ((k, v) :: r) x = if k ≤ x then some v else firstBelow r x := by
  rw [firstBelow, List.find?_cons]
  by_cases h : k ≤ x
  · simp [h]
  · simp [h, firstBelow]

theorem firstBelow_congr (h : ∀ e ∈ l, (e.1 ≤ x ↔ e.1 ≤ y)) : firstBelow l x = firstBelow l y :=
  congrArg (Option.map _) (List.find?_congr fun e he => decide_eq_decide.mpr (h e he))

theorem firstBelow_eq_none : firstBelow l x = none ↔ ∀ e ∈ l, ¬ e.1 ≤ x := by
  simp [firstBelow]

/-- The entry that is read. -/
theorem firstBelow_eq_some (h : firstBelow m x = some v) :
    ∃ l k r, m = l ++ (k, v) :: r ∧ firstBelow l x = none ∧ k ≤ x := by
  obtain ⟨⟨k, w⟩, hfind, rfl⟩ := Option.map_eq_some_iff.mp h
  obtain ⟨hk, l, r, rfl, hl⟩ := List.find?_eq_some_iff_append.mp hfind
  refine ⟨l, k, r, rfl, firstBelow_eq_none.mpr ?_, of_decide_eq_true hk⟩
  intro e he
  simpa using hl e he

theorem firstBelow_here (h : firstBelow l x = none) (hk : k ≤ x) (v : β) (r : List (α × β)) :
    firstBelow (l ++ (k, v) :: r) x = some v := by
  rw [firstBelow_append, h, firstBelow_cons, if_pos hk]
  rfl

/-- There is one entry that is read. -/
theorem firstBelow_split {l' r' : List (α × β)} {e e' : α × β} (h : l ++ e :: r = l' ++ e' :: r')
    (hl : firstBelow l x = none) (he : e.1 ≤ x) (hl' : firstBelow l' x = none) (he' : e'.1 ≤ x) :
    l = l' ∧ e = e' ∧ r = r' := by
  rcases List.append_eq_append_iff.mp h with ⟨s, rfl, hs⟩ | ⟨s, rfl, hs⟩
  · cases s with
    | nil => exact ⟨(List.append_nil l).symm, List.cons.inj hs⟩
    | cons d s =>
      obtain rfl : e = d := (List.cons.inj hs).1
      exact (firstBelow_eq_none.mp hl' e (by simp) he).elim
  · cases s with
    | nil =>
      obtain ⟨hd, ht⟩ := List.cons.inj hs
      exact ⟨List.append_nil l', hd.symm, ht.symm⟩
    | cons d s =>
      obtain rfl : e' = d := (List.cons.inj hs).1
      exact (firstBelow_eq_none.mp hl e' (by simp) he').elim

/-- Every entry of `m` has a key of `l` below its own. -/
def Shadows (l m : List (α × β)) : Prop := ∀ e ∈ m, ∃ d ∈ l, d.1 ≤ e.1

/-- What is shadowed is read nowhere. -/
theorem firstBelow_of_shadows (h : Shadows l (l ++ r)) (x : α) :
    firstBelow (l ++ r) x = firstBelow l x := by
  rw [firstBelow_append]
  cases hl : firstBelow l x with
  | some v => rfl
  | none =>
    have hr : firstBelow r x = none := firstBelow_eq_none.mpr fun e he hx => by
      obtain ⟨d, hd, hle⟩ := h e (List.mem_append_right l he)
      exact firstBelow_eq_none.mp hl d hd (le_trans hle hx)
    rw [hr]
    rfl

/-- It is enough to look at the keys of the table. -/
theorem shadows_of_firstBelow (h : ∀ e ∈ m, firstBelow l e.1 ≠ none) : Shadows l m := by
  intro e he
  by_contra hno
  exact h e he (firstBelow_eq_none.mpr fun d hd hle => hno ⟨d, hd, hle⟩)

theorem firstBelow_self {e : α × β} (he : e ∈ m) : firstBelow m e.1 ≠ none := fun h =>
  firstBelow_eq_none.mp h e he le_rfl

/-- A value written between `l` and `r`, in a new entry or in place of an old value: a key reads as
    before if and only if something in front of the entry is read there, or the entry is not, or the
    value was read there before. -/
theorem write_keeps_iff (h : m = l ++ r ∨ ∃ w, m = l ++ (k, w) :: r) :
    firstBelow (l ++ (k, v) :: r) x = firstBelow m x ↔
      (firstBelow l x = none → k ≤ x → firstBelow m x = some v) := by
  constructor
  · intro heq hl hk
    rw [← heq, firstBelow_here hl hk]
  · intro hsome
    cases hl : firstBelow l x with
    | some w =>
      rcases h with rfl | ⟨w', rfl⟩
      · rw [firstBelow_append, firstBelow_append, hl]
        rfl
      · rw [firstBelow_append, firstBelow_append, hl]
        rfl
    | none =>
      by_cases hk : k ≤ x
      · rw [firstBelow_here hl hk, hsome hl hk]
      · rcases h with rfl | ⟨w', rfl⟩
        · rw [firstBelow_append, firstBelow_append, firstBelow_cons, if_neg hk]
        · rw [firstBelow_append, firstBelow_append, firstBelow_cons, firstBelow_cons, if_neg hk,
            if_neg hk]

end

end Schemes
