import Mathlib.Tactic.Common
import Mathlib.Data.List.Induction

/-! Who owns what: a log of allocations, copies and frees.

    Several parties share an allocator. The log names the party behind each call of it, the address
    and the size it passes, so that a discipline between them is a statement about logs: nobody frees
    or reads what somebody else allocated, and everything allocated is freed once. An address may be
    allocated again after it is freed, so an allocation and the free that belongs to it are matched
    by what stands between them. -/

namespace Schemes

variable {ι α : Type*}

inductive Act (ι α : Type*) where
  | alloc (i : ι) (a : α) (n : ℕ)
  | copy (i : ι) (a : α) (n : ℕ)
  | free (i : ι) (a : α) (n : ℕ) (idle : Bool)  -- `idle`: nothing is under way on `a`
  deriving DecidableEq

/-- The action changes who owns `a`. -/
def Act.Hands (a : α) : Act ι α → Prop
  | .alloc _ b _ => a = b
  | .copy .. => False
  | .free _ b _ _ => a = b

def Untouched (a : α) (log : List (Act ι α)) : Prop := ∀ x ∈ log, ¬ x.Hands a

/-- At the end of the log `i` owns `n` bytes at `a`. -/
def Owns (log : List (Act ι α)) (i : ι) (a : α) (n : ℕ) : Prop :=
  ∃ pre mid, log = pre ++ .alloc i a n :: mid ∧ Untouched a mid

/-- The action is in order behind the log: what is allocated is owned by nobody, a copy is taken from
    what its party owns, and a free is of what its party owns, whole, with nothing under way. -/
def Permitted (log : List (Act ι α)) : Act ι α → Prop
  | .alloc _ a _ => ∀ i n, ¬ Owns log i a n
  | .copy i a n => ∃ m, n ≤ m ∧ Owns log i a m
  | .free i a n idle => idle = true ∧ Owns log i a n

/-- The discipline: every action is in order, and what a party in `done` allocated was freed, before
    anything else happened to it, by the party itself and with the size it has. -/
structure Lawful (done : ι → Prop) (log : List (Act ι α)) : Prop where
  permitted : ∀ {pre x post}, log = pre ++ x :: post → Permitted pre x
  freed : ∀ {pre i a n post}, log = pre ++ .alloc i a n :: post → done i →
    ∃ mid post', post = mid ++ .free i a n true :: post' ∧ Untouched a mid

/-- The discipline as an invariant of a growing log. -/
structure Kept (done : ι → Prop) (log : List (Act ι α)) : Prop where
  permitted : ∀ {pre x post}, log = pre ++ x :: post → Permitted pre x
  nothing : ∀ {i}, done i → ∀ a n, ¬ Owns log i a n

/-! ### Owning -/

/-- A log with one more action, cut at an action: at the last one or before it. -/
theorem cut_concat {β : Type*} {xs pre post : List β} {x y : β}
    (h : xs ++ [x] = pre ++ y :: post) :
    (xs = pre ∧ x = y) ∨ ∃ post', post = post' ++ [x] ∧ xs = pre ++ y :: post' := by
  induction post using List.reverseRecOn with
  | nil =>
    obtain ⟨hxs, hx⟩ := List.append_inj' h rfl
    exact Or.inl ⟨hxs, List.singleton_inj.mp hx⟩
  | append_singleton post z _ =>
    rw [← List.cons_append, ← List.append_assoc] at h
    obtain ⟨hxs, hx⟩ := List.append_inj' h rfl
    exact Or.inr ⟨post, by rw [List.singleton_inj.mp hx], hxs⟩

theorem untouched_concat {a : α} {log : List (Act ι α)} {x : Act ι α} :
    Untouched a (log ++ [x]) ↔ Untouched a log ∧ ¬ x.Hands a := by
  simp [Untouched, or_imp, forall_and]

variable {log : List (Act ι α)} {x : Act ι α} {i j : ι} {a : α} {n m : ℕ}

/-- A copy, or an action on another address, changes nothing. -/
theorem owns_concat (hx : ¬ x.Hands a) : Owns (log ++ [x]) i a n ↔ Owns log i a n := by
  constructor
  · rintro ⟨pre, mid, h, hmid⟩
    rcases cut_concat h with ⟨-, rfl⟩ | ⟨mid', rfl, rfl⟩
    · exact absurd rfl hx
    · exact ⟨pre, mid', rfl, (untouched_concat.mp hmid).1⟩
  · rintro ⟨pre, mid, rfl, hmid⟩
    exact ⟨pre, mid ++ [x], by simp, untouched_concat.mpr ⟨hmid, hx⟩⟩

theorem owns_alloc : Owns (log ++ [.alloc j a m]) i a n ↔ j = i ∧ m = n := by
  constructor
  · rintro ⟨pre, mid, h, hmid⟩
    rcases cut_concat h with ⟨-, h⟩ | ⟨mid', rfl, rfl⟩
    · cases h
      exact ⟨rfl, rfl⟩
    · exact absurd rfl (untouched_concat.mp hmid).2
  · rintro ⟨rfl, rfl⟩
    exact ⟨log, [], rfl, by simp [Untouched]⟩

theorem not_owns_free {idle : Bool} : ¬ Owns (log ++ [.free j a m idle]) i a n := by
  rintro ⟨pre, mid, h, hmid⟩
  rcases cut_concat h with ⟨-, h⟩ | ⟨mid', rfl, rfl⟩
  · cases h
  · exact absurd rfl (untouched_concat.mp hmid).2

theorem not_owns_nil : ¬ Owns ([] : List (Act ι α)) i a n := by
  rintro ⟨pre, mid, h, -⟩
  simp at h

/-- What the action leaves owned was owned before, or the action allocated it. -/
theorem owns_of_concat (h : Owns (log ++ [x]) i a n) :
    Owns log i a n ∨ x = .alloc i a n := by
  obtain ⟨pre, mid, hcut, hmid⟩ := h
  rcases cut_concat hcut with ⟨-, rfl⟩ | ⟨mid', rfl, rfl⟩
  · exact Or.inr rfl
  · exact Or.inl ⟨pre, mid', rfl, (untouched_concat.mp hmid).1⟩

/-- Nobody else owns what `i` owns, and `i` owns it with one size. -/
theorem Owns.unique (h : Owns log i a n) (h' : Owns log j a m) : i = j ∧ n = m := by
  induction log using List.reverseRecOn with
  | nil => exact absurd h not_owns_nil
  | append_singleton log x ih =>
    rcases owns_of_concat h with hlog | rfl
    · rcases owns_of_concat h' with hlog' | rfl
      · exact ih hlog hlog'
      · obtain ⟨rfl, rfl⟩ := owns_alloc.mp h
        exact ⟨rfl, rfl⟩
    · obtain ⟨rfl, rfl⟩ := owns_alloc.mp h'
      exact ⟨rfl, rfl⟩

/-! ### Growing logs -/

variable {done done' : ι → Prop}

theorem kept_nil : Kept done ([] : List (Act ι α)) :=
  ⟨fun h => by simp at h, fun _ _ _ => not_owns_nil⟩

/-- A permitted action keeps the discipline, if no party that is done takes it as an allocation. -/
theorem Kept.concat (h : Kept done log) (hx : Permitted log x)
    (hdone : ∀ {i a n}, x = .alloc i a n → ¬ done i) : Kept done (log ++ [x]) := by
  refine ⟨?_, ?_⟩
  · intro pre y post hcut
    rcases cut_concat hcut with ⟨rfl, rfl⟩ | ⟨post', -, hlog⟩
    · exact hx
    · exact h.permitted hlog
  · intro i hi a n howns
    rcases owns_of_concat howns with hlog | hx
    · exact h.nothing hi a n hlog
    · exact hdone hx hi

/-- A party that owns nothing may be done. -/
theorem Kept.done_of_nothing (h : Kept done log)
    (hdone : ∀ {i}, done' i → done i ∨ ∀ a n, ¬ Owns log i a n) : Kept done' log := by
  refine ⟨h.permitted, ?_⟩
  intro i hi
  rcases hdone hi with hi | hi
  · exact h.nothing hi
  · exact hi

/-- The first action that changes who owns `a`, if there is one. -/
theorem untouched_or_first (a : α) (log : List (Act ι α)) :
    Untouched a log ∨ ∃ mid x post, log = mid ++ x :: post ∧ Untouched a mid ∧ x.Hands a := by
  induction log with
  | nil => exact Or.inl (by simp [Untouched])
  | cons x log ih =>
    by_cases hx : x.Hands a
    · exact Or.inr ⟨[], x, log, rfl, by simp [Untouched], hx⟩
    · rcases ih with ih | ⟨mid, y, post, rfl, hmid, hy⟩
      · exact Or.inl (List.forall_mem_cons.mpr ⟨hx, ih⟩)
      · exact Or.inr ⟨x :: mid, y, post, rfl, List.forall_mem_cons.mpr ⟨hx, hmid⟩, hy⟩

/-- RULE (ledger): a log that keeps the invariant is lawful. -/
theorem Kept.lawful (h : Kept done log) : Lawful done log := by
  refine ⟨h.permitted, ?_⟩
  intro pre i a n post hcut hi
  rcases untouched_or_first a post with hpost | ⟨mid, x, post', rfl, hmid, hx⟩
  · exact absurd ⟨pre, post, hcut, hpost⟩ (h.nothing hi a n)
  have howns : Owns (pre ++ .alloc i a n :: mid) i a n := ⟨pre, mid, rfl, hmid⟩
  have hpermitted : Permitted (pre ++ .alloc i a n :: mid) x :=
    h.permitted (by rw [hcut, List.append_assoc, List.cons_append])
  cases x with
  | alloc j b m =>
    obtain rfl : a = b := hx
    exact absurd howns (hpermitted i n)
  | copy j b m => exact hx.elim
  | free j b m idle =>
    obtain rfl : a = b := hx
    obtain ⟨rfl, howns'⟩ := hpermitted
    obtain ⟨rfl, rfl⟩ := howns.unique howns'
    exact ⟨mid, post', rfl, hmid⟩

end Schemes
