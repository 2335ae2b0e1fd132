import Mathlib.Algebra.Ring.Int.Defs
import Mathlib.Algebra.Ring.Nat
import Mathlib.Tactic.Common

/-! C text as bytes.

    A C string is the list of its bytes, the terminating NUL left out. `decimal` is what `%d` prints;
    two numbers never print alike and no number prints a separator, which is what makes a name that
    ends in a number tell the number. -/

namespace Schemes

/-- The byte of an ASCII character. -/
def byte (c : Char) : UInt8 := UInt8.ofNat c.toNat

/-- The bytes of an ASCII string literal. -/
def ascii (s : String) : List UInt8 := s.toList.map byte

/-- `strncmp`; behind the last byte of a string stands its NUL. -/
def strncmp : List UInt8 → List UInt8 → ℕ → ℤ
  | _, _, 0 => 0
  | s, t, n + 1 =>
    if s.headD 0 ≠ t.headD 0 then (s.headD 0).toNat - (t.headD 0).toNat
    else if s.headD 0 = 0 then 0
    else strncmp s.tail t.tail n

/-- What `%d` prints. -/
def decimal (x : ℤ) : List UInt8 :=
  (if x < 0 then [byte '-'] else []) ++ (Nat.toDigits 10 x.natAbs).map byte

theorem strncmp_comm {s t : List UInt8} {n : ℕ} : strncmp s t n = 0 ↔ strncmp t s n = 0 := by
  induction n generalizing s t with
  | zero => exact Iff.rfl
  | succ n ih =>
    rw [strncmp, strncmp]
    rcases eq_or_ne (s.headD 0) (t.headD 0) with h | h
    · rw [if_neg (not_not.mpr h), if_neg (not_not.mpr h.symm), h]
      split
      · exact Iff.rfl
      · exact ih
    · have hne : (s.headD 0).toNat ≠ (t.headD 0).toNat := fun heq => h (UInt8.toNat_inj.mp heq)
      rw [if_pos h, if_pos h.symm]
      omega

/-- A comparison over the whole length of one string only asks for a prefix of the other. -/
theorem strncmp_eq_zero {s t rest : List UInt8} (hs : 0 ∉ s) :
    strncmp (s ++ rest) t s.length = 0 ↔ s <+: t := by
  induction s generalizing t with
  | nil => exact iff_of_true rfl List.nil_prefix
  | cons a s ih =>
    rw [List.mem_cons, not_or] at hs
    rw [List.cons_append, List.length_cons, strncmp, List.headD_cons, List.tail_cons]
    cases t with
    | nil =>
      have ha : a ≠ List.headD ([] : List UInt8) 0 := Ne.symm hs.1
      have hnat : a.toNat ≠ (List.headD ([] : List UInt8) 0).toNat :=
        fun heq => ha (UInt8.toNat_inj.mp heq)
      rw [if_pos ha]
      exact iff_of_false (by omega) (by simp)
    | cons b t =>
      rw [List.headD_cons, List.tail_cons, List.cons_prefix_cons]
      rcases eq_or_ne a b with rfl | hab
      · rw [if_neg (not_not.mpr rfl), if_neg (Ne.symm hs.1), ih hs.2]
        simp
      · have hnat : a.toNat ≠ b.toNat := fun heq => hab (UInt8.toNat_inj.mp heq)
        rw [if_pos hab]
        exact iff_of_false (by omega) fun h => hab h.1

theorem toNat_byte_of_isDigit {c : Char} (hc : c.isDigit) :
    (byte c).toNat = c.toNat ∧ 48 ≤ c.toNat ∧ c.toNat ≤ 57 := by
  have h : 48 ≤ c.toNat ∧ c.toNat ≤ 57 := by
    rw [Char.isDigit, Bool.and_eq_true, decide_eq_true_eq, decide_eq_true_eq,
      ge_iff_le, UInt32.le_iff_toNat_le, UInt32.le_iff_toNat_le] at hc
    exact hc
  refine ⟨?_, h⟩
  rw [byte, UInt8.toNat_ofNat']
  omega

theorem digits_of_mem {n : ℕ} {b : UInt8} (hb : b ∈ (Nat.toDigits 10 n).map byte) :
    48 ≤ b.toNat ∧ b.toNat ≤ 57 := by
  obtain ⟨c, hc, rfl⟩ := List.mem_map.mp hb
  have hd := toNat_byte_of_isDigit (Nat.isDigit_of_mem_toDigits (by decide) (by decide) hc)
  rw [hd.1]; exact hd.2

theorem byte_inj {c d : Char} (hc : c.isDigit) (hd : d.isDigit) (h : byte c = byte d) : c = d := by
  have hn : c.toNat = d.toNat := by
    rw [← (toNat_byte_of_isDigit hc).1, ← (toNat_byte_of_isDigit hd).1, h]
  exact Char.toNat_inj.mp hn

theorem map_byte_inj : ∀ {cs ds : List Char}, (∀ c ∈ cs, c.isDigit) → (∀ d ∈ ds, d.isDigit) →
    cs.map byte = ds.map byte → cs = ds
  | [], [], _, _, _ => rfl
  | [], _ :: _, _, _, h => by simp at h
  | _ :: _, [], _, _, h => by simp at h
  | c :: cs, d :: ds, hc, hd, h => by
      simp only [List.map_cons, List.cons.injEq] at h
      rw [byte_inj (hc c (by simp)) (hd d (by simp)) h.1,
        map_byte_inj (fun x hx => hc x (by simp [hx])) (fun x hx => hd x (by simp [hx])) h.2]

theorem toDigits_inj {m n : ℕ} (h : Nat.toDigits 10 m = Nat.toDigits 10 n) : m = n := by
  rw [← Nat.ofDigitChars_ten_toDigits (n := m), h, Nat.ofDigitChars_ten_toDigits]

theorem map_toDigits_inj {m n : ℕ}
    (h : (Nat.toDigits 10 m).map byte = (Nat.toDigits 10 n).map byte) : m = n :=
  toDigits_inj (map_byte_inj
    (fun _ hc => Nat.isDigit_of_mem_toDigits (by decide) (by decide) hc)
    (fun _ hc => Nat.isDigit_of_mem_toDigits (by decide) (by decide) hc) h)

/-- The digits of a number do not begin with a minus sign. -/
theorem minus_ne_digits {n : ℕ} {l : List UInt8} :
    byte '-' :: l ≠ (Nat.toDigits 10 n).map byte := by
  intro h
  have hm : byte '-' ∈ (Nat.toDigits 10 n).map byte := by rw [← h]; exact List.mem_cons_self
  exact absurd (digits_of_mem hm).1 (by decide)

/-- Two numbers never print alike. -/
theorem decimal_inj {x y : ℤ} (h : decimal x = decimal y) : x = y := by
  unfold decimal at h
  by_cases hx : x < 0 <;> by_cases hy : y < 0
  · rw [if_pos hx, if_pos hy, List.append_cancel_left_eq] at h
    have := map_toDigits_inj h
    omega
  · rw [if_pos hx, if_neg hy] at h
    exact absurd h minus_ne_digits
  · rw [if_neg hx, if_pos hy] at h
    exact absurd h.symm minus_ne_digits
  · rw [if_neg hx, if_neg hy, List.append_cancel_left_eq] at h
    have := map_toDigits_inj h
    omega

/-- A number prints no byte but digits and a minus sign. -/
theorem not_mem_decimal {x : ℤ} {b : UInt8} (hm : b ≠ byte '-')
    (hd : b.toNat < 48 ∨ 57 < b.toNat) : b ∉ decimal x := by
  intro h
  rcases List.mem_append.mp h with h | h
  · split at h
    · exact hm (by simpa using h)
    · simp at h
  · have := digits_of_mem h
    omega

/-- What follows the last separator is determined by the whole. -/
theorem eq_of_append_sep {α : Type*} {x : α} {l₁ l₂ r₁ r₂ : List α}
    (h : l₁ ++ x :: r₁ = l₂ ++ x :: r₂) (h₁ : x ∉ r₁) (h₂ : x ∉ r₂) : r₁ = r₂ := by
  rcases List.append_eq_append_iff.mp h with ⟨t, _, ht⟩ | ⟨t, _, ht⟩
  · cases t with
    | nil => simpa using ht
    | cons y t =>
      simp only [List.cons_append, List.cons.injEq] at ht
      exact absurd (by rw [ht.2]; simp) h₁
  · cases t with
    | nil => simpa using ht.symm
    | cons y t =>
      simp only [List.cons_append, List.cons.injEq] at ht
      exact absurd (by rw [ht.2]; simp) h₂

/-! ### Cutting at a separator -/

theorem length_splitOn {α : Type*} [DecidableEq α] (c : α) (l : List α) :
    (l.splitOn c).length = l.count c + 1 := by
  induction l with
  | nil => rfl
  | cons x l ih =>
    rw [List.splitOn_cons_eq_if_modifyHead, List.count_cons]
    by_cases hx : (x == c) = true
    · rw [if_pos hx, if_pos hx, List.length_cons, ih]
    · rw [if_neg hx, if_neg hx, List.length_modifyHead, ih, Nat.add_zero]

/-- A text in front of one without a separator: the two meet in the last piece. -/
theorem splitOn_append_of_not_mem {α : Type*} [DecidableEq α] {c : α} {r : List α} (hr : c ∉ r)
    (l : List α) : ∃ pieces last, l.splitOn c = pieces ++ [last] ∧
      (l ++ r).splitOn c = pieces ++ [last ++ r] ∧ last <:+ l := by
  by_cases hl : c ∈ l
  · obtain ⟨as, bs, hrev, has⟩ := List.eq_append_cons_of_mem (List.mem_reverse.mpr hl)
    have heq : l = bs.reverse ++ c :: as.reverse := by
      rw [← List.reverse_reverse l, hrev]
      simp
    have hlast : c ∉ as.reverse := fun h => has (List.mem_reverse.mp h)
    refine ⟨bs.reverse.splitOn c, as.reverse, ?_, ?_, ?_⟩
    · rw [heq, List.splitOn_append_cons_self, List.splitOn_eq_singleton hlast]
    · rw [heq, List.append_assoc, List.cons_append, List.splitOn_append_cons_self,
        List.splitOn_eq_singleton (List.not_mem_append hlast hr)]
    · rw [heq]
      exact ⟨bs.reverse ++ [c], by simp⟩
  · refine ⟨[], l, List.splitOn_eq_singleton hl, ?_, List.suffix_refl l⟩
    exact List.splitOn_eq_singleton (List.not_mem_append hl hr)

end Schemes
