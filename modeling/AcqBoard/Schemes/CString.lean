import Mathlib.Logic.Function.Basic
import Mathlib.Tactic.Common
import Mathlib.Data.Nat.Notation

/-! C strings in a buffer.

    A buffer gives every position a byte; the functions that scan it take the number of bytes they may
    look at. `Holds m p s` says that the string at `p` is `s`: its bytes, none of them NUL, and then a
    NUL. Cutting a string writes a NUL over one of its bytes and leaves two strings. -/

namespace Schemes

variable {m m' : ℕ → UInt8} {p n : ℕ} {c : UInt8} {s l r : List UInt8}

/-- The string at `p`, as far as it lies in the next `n` bytes. -/
def cstr (m : ℕ → UInt8) : ℕ → ℕ → List UInt8
  | _, 0 => []
  | p, n + 1 => if m p = 0 then [] else m p :: cstr m (p + 1) n

/-- The first `c` in the string at `p`. -/
def strchr (m : ℕ → UInt8) (c : UInt8) : ℕ → ℕ → Option ℕ
  | _, 0 => none
  | p, n + 1 => if m p = c then some p else if m p = 0 then none else strchr m c (p + 1) n

/-- The buffer with a NUL at `p`. -/
def nulAt (m : ℕ → UInt8) (p : ℕ) : ℕ → UInt8 := Function.update m p 0

/-- The buffer with the string `s` and its NUL written at `p`. -/
def load (m : ℕ → UInt8) : ℕ → List UInt8 → ℕ → UInt8
  | p, [] => nulAt m p
  | p, b :: s => Function.update (load m (p + 1) s) p b

def Holds (m : ℕ → UInt8) : ℕ → List UInt8 → Prop
  | p, [] => m p = 0
  | p, b :: s => m p = b ∧ b ≠ 0 ∧ Holds m (p + 1) s

theorem nulAt_self (m : ℕ → UInt8) (p : ℕ) : nulAt m p p = 0 := Function.update_self _ _ _

theorem nulAt_ne {q : ℕ} (h : q ≠ p) (m : ℕ → UInt8) : nulAt m p q = m q :=
  Function.update_of_ne h _ _

theorem cstr_of_holds : ∀ {s : List UInt8} {p n : ℕ}, Holds m p s → s.length < n → cstr m p n = s
  | _, _, 0, _, hn => absurd hn (Nat.not_lt_zero _)
  | [], p, _ + 1, h, _ => by
      have hz : m p = 0 := h
      rw [cstr, if_pos hz]
  | _ :: _, _, n + 1, ⟨hb, hne, h⟩, hn => by
      rw [cstr, hb, if_neg hne, cstr_of_holds h (Nat.lt_of_succ_lt_succ hn)]

theorem strchr_of_not_mem : ∀ {s : List UInt8} {p n : ℕ}, Holds m p s → c ∉ s → c ≠ 0 →
    strchr m c p n = none
  | _, _, 0, _, _, _ => rfl
  | [], p, _ + 1, h, _, hc => by
      have hz : m p = 0 := h
      have hp : ¬ m p = c := fun heq => hc (heq.symm.trans hz)
      rw [strchr, if_neg hp, if_pos hz]
  | _ :: _, _, n + 1, ⟨hb, hne, h⟩, hmem, hc => by
      rw [List.mem_cons, not_or] at hmem
      rw [strchr, hb, if_neg (Ne.symm hmem.1), if_neg hne, strchr_of_not_mem h hmem.2 hc]

theorem strchr_of_append : ∀ {l : List UInt8} {p n : ℕ}, Holds m p (l ++ c :: r) → c ∉ l →
    l.length < n → strchr m c p n = some (p + l.length)
  | _, _, 0, _, _, hn => absurd hn (Nat.not_lt_zero _)
  | [], _, _ + 1, ⟨hb, _⟩, _, _ => by rw [strchr, if_pos hb]; rfl
  | b :: l, p, n + 1, ⟨hb, hne, h⟩, hmem, hn => by
      rw [List.mem_cons, not_or] at hmem
      rw [strchr, hb, if_neg (Ne.symm hmem.1), if_neg hne,
        strchr_of_append h hmem.2 (Nat.lt_of_succ_lt_succ hn), List.length_cons]
      congr 1
      omega

/-- A string stays while its bytes and its NUL do. -/
theorem holds_congr (h : Holds m p s) (heq : ∀ q, p ≤ q → q ≤ p + s.length → m' q = m q) :
    Holds m' p s := by
  induction s generalizing p with
  | nil =>
    rw [Holds, heq p (Nat.le_refl p) (Nat.le_add_right p _)]
    exact h
  | cons b s ih =>
    obtain ⟨hb, hne, h⟩ := h
    rw [List.length_cons] at heq
    refine ⟨(heq p (Nat.le_refl p) (Nat.le_add_right p _)).trans hb, hne, ih h ?_⟩
    intro q h₁ h₂
    exact heq q (by omega) (by omega)

theorem add_length_cons (b : UInt8) (s : List UInt8) (p : ℕ) :
    p + (b :: s).length = p + 1 + s.length := by
  rw [List.length_cons]
  omega

/-- Another byte in a string. -/
theorem holds_set {i : ℕ} (h : Holds m p s) (hi : i < s.length) (hc : c ≠ 0) :
    Holds (Function.update m (p + i) c) p (s.set i c) := by
  induction s generalizing p i with
  | nil => simp at hi
  | cons b s ih =>
    obtain ⟨hb, hne, h⟩ := h
    cases i with
    | zero =>
      refine ⟨Function.update_self _ _ _, hc, holds_congr h ?_⟩
      intro q hq _
      exact Function.update_of_ne (by omega) _ _
    | succ i =>
      have hidx : p + (i + 1) = p + 1 + i := by omega
      rw [hidx]
      exact ⟨(Function.update_of_ne (by omega) _ _).trans hb, hne,
        ih h (Nat.lt_of_succ_lt_succ hi)⟩

/-- Cutting a string at one of its bytes: the part before it. -/
theorem holds_cut_left (h : Holds m p (l ++ c :: r)) : Holds (nulAt m (p + l.length)) p l := by
  induction l generalizing p with
  | nil => exact nulAt_self m p
  | cons b l ih =>
    obtain ⟨hb, hne, h⟩ := h
    rw [add_length_cons]
    exact ⟨(nulAt_ne (by omega) m).trans hb, hne, ih h⟩

theorem holds_append (h : Holds m p (l ++ s)) : Holds m (p + l.length) s := by
  induction l generalizing p with
  | nil => exact h
  | cons b l ih =>
    rw [add_length_cons]
    exact ih h.2.2

/-- The bytes of the first part of a string, read one by one. -/
theorem map_of_holds (h : Holds m p (l ++ s)) :
    ((List.range l.length).map fun i => m (p + i)) = l := by
  induction l generalizing p with
  | nil => rfl
  | cons b l ih =>
    obtain ⟨hb, -, h⟩ := h
    have htail : ((List.range l.length).map fun i => m (p + (i + 1))) = l := by
      refine (List.map_congr_left ?_).trans (ih h)
      intro i _
      rw [Nat.add_assoc, Nat.add_comm 1]
    rw [List.length_cons, List.range_succ_eq_map, List.map_cons, List.map_map, Nat.add_zero, hb]
    exact congrArg (b :: ·) htail

/-- Cutting a string at one of its bytes: the part behind it. -/
theorem holds_cut_right (h : Holds m p (l ++ c :: r)) :
    Holds (nulAt m (p + l.length)) (p + l.length + 1) r :=
  holds_congr (holds_append h).2.2 fun _ _ _ => nulAt_ne (by omega) m

theorem load_end (s : List UInt8) (p : ℕ) : load m p s (p + s.length) = 0 := by
  induction s generalizing p with
  | nil => exact nulAt_self m p
  | cons b s ih =>
    rw [add_length_cons]
    exact (Function.update_of_ne (by omega) _ _).trans (ih (p + 1))

theorem load_gt {q : ℕ} (h : p + s.length < q) : load m p s q = m q := by
  induction s generalizing p with
  | nil => exact nulAt_ne (by rw [List.length_nil] at h; omega) m
  | cons b s ih =>
    rw [add_length_cons] at h
    exact (Function.update_of_ne (by omega) _ _).trans (ih h)

theorem holds_load (h : (0 : UInt8) ∉ s) : Holds (load m p s) p s := by
  induction s generalizing p with
  | nil => exact nulAt_self m p
  | cons b s ih =>
    rw [List.mem_cons, not_or] at h
    refine ⟨Function.update_self _ _ _, Ne.symm h.1, holds_congr (ih h.2) ?_⟩
    intro q hq _
    exact Function.update_of_ne (by omega) _ _

/-- Writing a string byte by byte, each with a NUL behind it. -/
theorem load_concat (b : UInt8) (s : List UInt8) (p : ℕ) :
    Function.update (Function.update (load m p s) (p + s.length) b) (p + s.length + 1) 0 =
      load m p (s ++ [b]) := by
  induction s generalizing p with
  | nil =>
    simp only [List.length_nil, Nat.add_zero, List.nil_append, load, nulAt]
    rw [Function.update_idem, Function.update_comm (by omega)]
  | cons a s ih =>
    simp only [List.cons_append, load]
    rw [add_length_cons, ← ih (p + 1), Function.update_comm (a := p) (by omega),
      Function.update_comm (a := p) (by omega)]

end Schemes
