import AcqBoard.Schemes.Text
import Mathlib.Algebra.Order.Monoid.Unbundled.Pow
import Mathlib.Algebra.Order.Ring.Nat
import Mathlib.Data.List.Induction
import Mathlib.Tactic.Ring

/-! `sscanf` with the conversions `%d` and `%ld`, both 32 bits wide, and literal bytes. -/

namespace Schemes

/-- `isdigit` in the C locale. -/
def isDigit (b : UInt8) : Bool := 48 ≤ b && b ≤ 57

/-- `isspace` in the C locale. -/
def isSpace (b : UInt8) : Bool := b = 32 || (9 ≤ b && b ≤ 13)

/-- The number that decimal digits denote. -/
def digitsVal (ds : List UInt8) : ℕ := ds.foldl (fun n d => 10 * n + (d.toNat - 48)) 0

/-- One item of a format: `%d` with or without a field width, or a byte that must be there. -/
inductive Conv where
  | int (width : Option ℕ)
  | lit (b : UInt8)

/-- The sign of a number, which counts in the field width, and what follows it. -/
def scanSign : List UInt8 → Bool × List UInt8
  | 45 :: s => (true, s)
  | 43 :: s => (false, s)
  | s => (false, s)

/-- `%d`: the value, which saturates as that of `strtol`, and the rest of the input. -/
def scanInt (width : Option ℕ) (s : List UInt8) : Option (Int32 × List UInt8) :=
  let s := s.dropWhile isSpace
  let (neg, s') := scanSign s
  let field := match width with
    | some w => s'.take (w - (s.length - s'.length))
    | none => s'
  let ds := field.takeWhile isDigit
  if ds = [] then none else
    let v : ℤ := if neg then -(digitsVal ds : ℤ) else digitsVal ds
    some (Int32.ofInt (max (-2 ^ 31) (min v (2 ^ 31 - 1))), s'.drop ds.length)

/-- `sscanf`: the values of the conversions up to the first one that fails. -/
def sscanf : List Conv → List UInt8 → List Int32
  | [], _ => []
  | .int width :: cs, s =>
    match scanInt width s with
    | none => []
    | some (v, s) => v :: sscanf cs s
  | .lit _ :: _, [] => []
  | .lit b :: cs, a :: s => if a = b then sscanf cs s else []

/-- `%02d%02d%02d`. -/
def threePairs : List Conv := [.int (some 2), .int (some 2), .int (some 2)]

/-- The number of two digits. -/
def pairVal (a b : UInt8) : ℕ := 10 * (a.toNat - 48) + (b.toNat - 48)

theorem isDigit_iff {b : UInt8} : isDigit b = true ↔ 48 ≤ b.toNat ∧ b.toNat ≤ 57 := by
  rw [isDigit, Bool.and_eq_true, decide_eq_true_eq, decide_eq_true_eq, UInt8.le_iff_toNat_le,
    UInt8.le_iff_toNat_le]
  exact Iff.rfl

/-- A digit is no blank and no sign. -/
theorem scanSign_digit {a : UInt8} (ha : isDigit a = true) (s : List UInt8) :
    isSpace a = false ∧ scanSign (a :: s) = (false, a :: s) := by
  have h := isDigit_iff.mp ha
  constructor
  · have hne : a ≠ 32 := by rintro rfl; simp at h
    have hgt : ¬ a ≤ 13 := fun hle => by
      have : a.toNat ≤ 13 := UInt8.le_iff_toNat_le.mp hle
      omega
    simp [isSpace, hne, hgt]
  · unfold scanSign
    split
    · rename_i heq
      obtain ⟨rfl, -⟩ := List.cons.inj heq
      simp at h
    · rename_i heq
      obtain ⟨rfl, -⟩ := List.cons.inj heq
      simp at h
    · rfl

theorem pairVal_le {a b : UInt8} (ha : isDigit a = true) (hb : isDigit b = true) :
    pairVal a b ≤ 99 := by
  have h₁ := (isDigit_iff.mp ha).2
  have h₂ := (isDigit_iff.mp hb).2
  unfold pairVal
  omega

/-- `%02d` on two digits. -/
theorem scanInt_pair {a b : UInt8} (ha : isDigit a = true) (hb : isDigit b = true)
    (s : List UInt8) :
    scanInt (some 2) (a :: b :: s) = some (Int32.ofInt (pairVal a b), s) := by
  obtain ⟨hspace, hsign⟩ := scanSign_digit ha (b :: s)
  have hdrop : (a :: b :: s).dropWhile isSpace = a :: b :: s := by
    rw [List.dropWhile_cons_of_neg (by simp [hspace])]
  have hval : digitsVal [a, b] = pairVal a b := by simp [digitsVal, pairVal]
  have hle := pairVal_le ha hb
  have hsat : max (-2 ^ 31) (min (pairVal a b : ℤ) (2 ^ 31 - 1)) = pairVal a b := by omega
  simp only [scanInt, hdrop, hsign, Nat.sub_self, Nat.sub_zero, List.take_succ_cons, List.take_zero,
    List.takeWhile_cons, ha, hb, if_true, List.takeWhile_nil, reduceCtorEq, if_false, hval,
    Bool.false_eq_true, hsat, List.length_cons, List.length_nil, Nat.zero_add, List.drop_succ_cons,
    List.drop_zero]

/-- The bytes begin with six digits. -/
def sixDigits : List UInt8 → Bool
  | a :: b :: c :: d :: e :: f :: _ =>
    isDigit a && isDigit b && isDigit c && isDigit d && isDigit e && isDigit f
  | _ => false

/-- The three numbers that six digits denote. -/
def pairs : List UInt8 → ℕ × ℕ × ℕ
  | a :: b :: c :: d :: e :: f :: _ => (pairVal a b, pairVal c d, pairVal e f)
  | _ => (0, 0, 0)

/-- Six digits stay in front of whatever byte that is no digit cuts the rest. -/
theorem sixDigits_takeWhile {s : List UInt8} {c : UInt8} (hc : isDigit c = false)
    (h : sixDigits s = true) :
    sixDigits (s.takeWhile (· ≠ c)) = true ∧ pairs (s.takeWhile (· ≠ c)) = pairs s := by
  match s, h with
  | a :: b :: d :: e :: f :: g :: s, h =>
    have hd := h
    simp only [sixDigits, Bool.and_eq_true] at hd
    obtain ⟨⟨⟨⟨⟨ha, hb⟩, hd⟩, he⟩, hf⟩, hg⟩ := hd
    have hne : ∀ {x : UInt8}, isDigit x = true → decide (x ≠ c) = true := fun hx =>
      decide_eq_true fun heq => by simp [← heq, hx] at hc
    simp only [List.takeWhile_cons, hne ha, hne hb, hne hd, hne he, hne hf, hne hg, if_true]
    exact ⟨h, rfl⟩

theorem pairs_le {s : List UInt8} (h : sixDigits s = true) :
    (pairs s).1 ≤ 99 ∧ (pairs s).2.1 ≤ 99 ∧ (pairs s).2.2 ≤ 99 := by
  match s, h with
  | a :: b :: c :: d :: e :: f :: s, h =>
    simp only [sixDigits, Bool.and_eq_true] at h
    obtain ⟨⟨⟨⟨⟨ha, hb⟩, hc⟩, hd⟩, he⟩, hf⟩ := h
    exact ⟨pairVal_le ha hb, pairVal_le hc hd, pairVal_le he hf⟩

theorem headD_sixDigits {s : List UInt8} (h : sixDigits s = true) :
    isDigit (s.headD 0) = true := by
  match s, h with
  | a :: b :: c :: d :: e :: f :: s, h =>
    simp only [sixDigits, Bool.and_eq_true] at h
    exact h.1.1.1.1.1

theorem sscanf_sixDigits {s : List UInt8} (h : sixDigits s = true) :
    sscanf threePairs s = [Int32.ofInt (pairs s).1, Int32.ofInt (pairs s).2.1,
      Int32.ofInt (pairs s).2.2] := by
  match s, h with
  | a :: b :: c :: d :: e :: f :: s, h =>
    simp only [sixDigits, Bool.and_eq_true] at h
    obtain ⟨⟨⟨⟨⟨ha, hb⟩, hc⟩, hd⟩, he⟩, hf⟩ := h
    simp only [threePairs, sscanf, scanInt_pair ha hb, scanInt_pair hc hd, scanInt_pair he hf, pairs]

/-! ### Digits of every number -/

theorem digitsVal_concat (ds : List UInt8) (d : UInt8) :
    digitsVal (ds ++ [d]) = 10 * digitsVal ds + (d.toNat - 48) := by
  rw [digitsVal, List.foldl_append]
  rfl

/-- Leading digits weigh by the digits behind them. -/
theorem digitsVal_append (ds es : List UInt8) :
    digitsVal (ds ++ es) = digitsVal ds * 10 ^ es.length + digitsVal es := by
  induction es using List.reverseRecOn with
  | nil => simp [digitsVal]
  | append_singleton es e ih =>
    rw [← List.append_assoc, digitsVal_concat, digitsVal_concat, ih, List.length_append,
      List.length_singleton, pow_succ]
    ring

theorem digitsVal_lt {ds : List UInt8} (hd : ∀ d ∈ ds, isDigit d = true) :
    digitsVal ds < 10 ^ ds.length := by
  induction ds using List.reverseRecOn with
  | nil => simp [digitsVal]
  | append_singleton ds d ih =>
    have hlast := (isDigit_iff.mp (hd d (by simp))).2
    have hrest := ih fun a ha => hd a (by simp [ha])
    rw [digitsVal_concat, List.length_append, List.length_singleton, pow_succ]
    omega

/-- A number within a field width has as many digits at most. -/
theorem scanInt_lt {w : ℕ} (hw : w ≤ 9) {s rest : List UInt8} {v : Int32}
    (h : scanInt (some w) s = some (v, rest)) : -10 ^ w < v.toInt ∧ v.toInt < 10 ^ w := by
  obtain ⟨neg, s', hsign⟩ : ∃ neg s', scanSign (s.dropWhile isSpace) = (neg, s') := ⟨_, _, rfl⟩
  rw [scanInt, hsign] at h
  dsimp only at h
  generalize hds : (s'.take (w - ((s.dropWhile isSpace).length - s'.length))).takeWhile isDigit = ds
    at h
  split at h
  · cases h
  · obtain ⟨rfl, -⟩ := Prod.mk.inj (Option.some.inj h)
    have hlen : ds.length ≤ w := by
      rw [← hds]
      refine (List.takeWhile_prefix _).length_le.trans ?_
      rw [List.length_take]
      omega
    have hdigit : ∀ d ∈ ds, isDigit d = true := by
      rw [← hds]
      exact List.all_eq_true.mp List.all_takeWhile
    have hval : digitsVal ds < 10 ^ w :=
      (digitsVal_lt hdigit).trans_le (Nat.pow_le_pow_right (by decide) hlen)
    have hpow : 10 ^ w ≤ 1000000000 := Nat.pow_le_pow_right (by decide : 0 < 10) hw
    have hcast : ((10 ^ w : ℕ) : ℤ) = 10 ^ w := by push_cast; rfl
    rw [Int32.toInt_ofInt_of_le (by split <;> omega) (by split <;> omega), ← hcast]
    split <;> omega

/-- So it is with each of the numbers that `%02d%02d%02d` scans, of which there are three at most. -/
theorem sscanf_pairs : ∀ {n : ℕ} {s : List UInt8},
    (sscanf (List.replicate n (.int (some 2))) s).length ≤ n ∧
      ∀ v ∈ sscanf (List.replicate n (.int (some 2))) s, -100 < v.toInt ∧ v.toInt < 100
  | 0, _ => ⟨Nat.le_refl 0, fun _ hv => absurd hv List.not_mem_nil⟩
  | n + 1, s => by
      rw [List.replicate_succ, sscanf]
      cases h : scanInt (some 2) s with
      | none => exact ⟨Nat.zero_le _, fun _ hv => absurd hv List.not_mem_nil⟩
      | some r =>
        obtain ⟨v, rest⟩ := r
        obtain ⟨hlen, hrest⟩ := sscanf_pairs (n := n) (s := rest)
        have hv := scanInt_lt (by decide) h
        refine ⟨Nat.succ_le_succ hlen, ?_⟩
        intro u hu
        rcases List.mem_cons.mp hu with rfl | hu
        · exact hv
        · exact hrest u hu

/-- The nearest number of 32 bits. -/
def saturate (z : ℤ) : ℤ := max (-2 ^ 31) (min z (2 ^ 31 - 1))

theorem saturate_of_lt {n : ℕ} (h : n < 2 ^ 31) : saturate n = n := by
  unfold saturate
  omega

/-- Numbers of 32 bits are stored as they are. -/
theorem ofInt_saturate_inj {y z : ℤ}
    (h : (Int32.ofInt (saturate y)).toUInt32 = (Int32.ofInt (saturate z)).toUInt32) :
    saturate y = saturate z := by
  have hbound : ∀ x, -2 ^ 31 ≤ saturate x ∧ saturate x < 2 ^ 31 := by
    intro x
    unfold saturate
    omega
  have hint : Int32.ofInt (saturate y) = Int32.ofInt (saturate z) := by
    rw [← Int32.toInt32_toUInt32 (Int32.ofInt (saturate y)), h, Int32.toInt32_toUInt32]
  have htoInt := congrArg Int32.toInt hint
  rwa [Int32.toInt_ofInt_of_le (hbound y).1 (hbound y).2,
    Int32.toInt_ofInt_of_le (hbound z).1 (hbound z).2] at htoInt

/-- The digits are all that the field width allows, or what follows them is no digit. -/
def Ends (width : Option ℕ) (ds rest : List UInt8) : Prop :=
  width = some ds.length ∨ (∀ w ∈ width, ds.length ≤ w) ∧ isDigit (rest.headD 0) = false

/-- Digits in front of a byte that is none. -/
theorem takeWhile_digits {ds rest : List UInt8} (hd : ∀ d ∈ ds, isDigit d = true)
    (hr : isDigit (rest.headD 0) = false) : (ds ++ rest).takeWhile isDigit = ds := by
  rw [List.takeWhile_append_of_pos hd]
  cases rest with
  | nil => rw [List.takeWhile_nil, List.append_nil]
  | cons a rest =>
    rw [List.headD_cons] at hr
    rw [List.takeWhile_cons_of_neg (by simp [hr]), List.append_nil]

/-- `%d` behind its sign: the digits as far as the width goes. -/
theorem scanField {width : Option ℕ} {ds rest : List UInt8} (hd : ∀ d ∈ ds, isDigit d = true)
    (he : Ends width ds rest) : (match width with
      | some w => (ds ++ rest).take w
      | none => ds ++ rest).takeWhile isDigit = ds := by
  rcases he with rfl | ⟨hw, hr⟩
  · change ((ds ++ rest).take ds.length).takeWhile isDigit = ds
    have hall : (ds ++ []).takeWhile isDigit = ds := takeWhile_digits hd rfl
    rw [List.append_nil] at hall
    rw [List.take_left, hall]
  · cases width with
    | none => exact takeWhile_digits hd hr
    | some w =>
      change ((ds ++ rest).take w).takeWhile isDigit = ds
      rw [List.take_append, List.take_of_length_le (hw w rfl)]
      refine takeWhile_digits hd ?_
      cases rest with
      | nil => rw [List.take_nil]; rfl
      | cons a rest =>
        cases w - ds.length with
        | zero => rfl
        | succ n => exact hr

/-- `%d` on digits. -/
theorem scanInt_digits {width : Option ℕ} {ds rest : List UInt8} (hd : ∀ d ∈ ds, isDigit d = true)
    (hne : ds ≠ []) (he : Ends width ds rest) :
    scanInt width (ds ++ rest) = some (Int32.ofInt (saturate (digitsVal ds)), rest) := by
  obtain ⟨a, tail, rfl⟩ := List.exists_cons_of_ne_nil hne
  obtain ⟨hspace, hsign⟩ := scanSign_digit (hd a List.mem_cons_self) (tail ++ rest)
  have hdrop : (a :: tail ++ rest).dropWhile isSpace = a :: tail ++ rest := by
    rw [List.cons_append, List.dropWhile_cons_of_neg (by simp [hspace])]
  have hfield := scanField hd he
  rw [scanInt, hdrop, List.cons_append, hsign]
  simp only [Nat.sub_self, Nat.sub_zero, Bool.false_eq_true, if_false]
  rw [← List.cons_append, hfield, if_neg hne, List.drop_left]
  rfl

/-- `%d` without a width on a sign and digits. -/
theorem scanInt_minus {ds rest : List UInt8} (hd : ∀ d ∈ ds, isDigit d = true) (hne : ds ≠ [])
    (hr : isDigit (rest.headD 0) = false) :
    scanInt none (byte '-' :: ds ++ rest) = some (Int32.ofInt (saturate (-digitsVal ds)), rest) := by
  have hdrop : (byte '-' :: ds ++ rest).dropWhile isSpace = byte '-' :: ds ++ rest := rfl
  have hsign : scanSign (byte '-' :: ds ++ rest) = (true, ds ++ rest) := rfl
  rw [scanInt, hdrop, hsign]
  simp only [if_true]
  rw [takeWhile_digits hd hr, if_neg hne, List.drop_left]
  rfl

theorem scanInt_plus {ds rest : List UInt8} (hd : ∀ d ∈ ds, isDigit d = true) (hne : ds ≠ [])
    (hr : isDigit (rest.headD 0) = false) :
    scanInt none (byte '+' :: ds ++ rest) = some (Int32.ofInt (saturate (digitsVal ds)), rest) := by
  have hdrop : (byte '+' :: ds ++ rest).dropWhile isSpace = byte '+' :: ds ++ rest := rfl
  have hsign : scanSign (byte '+' :: ds ++ rest) = (false, ds ++ rest) := rfl
  rw [scanInt, hdrop, hsign]
  simp only [Bool.false_eq_true, if_false]
  rw [takeWhile_digits hd hr, if_neg hne, List.drop_left]
  rfl

end Schemes
