import AcqBoard.Ini.Store

/-! Integers in a profile: `read_profile_int`.

    The value goes through a buffer of 32 bytes to `atoi`. Every 32-bit integer that was written as
    `%d` prints it is read back; a longer text is cut behind its first 31 characters. -/

namespace AcqBoard.Ini
open Schemes

/-- `atoi`, which is `strtol` for the base 10 here: both types have 32 bits. -/
def atoi (s : List UInt8) : Int32 :=
  match scanInt none s with
  | some (v, _) => v
  | none => 0

def readProfileInt (sect key : List UInt8) (defaultValue : Int32) (file : File) :
    Except Fault Int32 := do
  let r ← readProfileString sect key (List.replicate 32 0) none file
  pure (if r.1 then atoi (strOf r.2) else defaultValue)

/-! ### When they return -/

section
variable {sect key value : List UInt8} {file : File} {loaded : Option (List UInt8 × ℕ)}

/-- `read_profile_string` returns on a file that is loaded exactly if the scanner stays in its buffer. -/
theorem readProfileString_returns (defaultValue : Option (List UInt8)) (hs : sect ≠ [])
    (hk : key ≠ []) (hv : value ≠ []) (hload : loadIniFile file = .ok loaded) :
    (∃ r, readProfileString sect key value defaultValue file = .ok r) ↔ FileStays sect key file := by
  have hne : ¬ (sect = [] ∨ key = [] ∨ value = []) := by simp [hs, hk, hv]
  unfold readProfileString
  rw [fileStays_iff hs hk hload, if_neg hne, loadAndParse, hload]
  cases loaded with
  | none => exact iff_of_true ⟨_, rfl⟩ ⟨_, rfl⟩
  | some l =>
    constructor
    · rintro ⟨r, hr⟩
      obtain ⟨_, hl, hr⟩ := bind_eq_ok.mp hr
      obtain rfl := Except.ok.inj hl
      obtain ⟨x, hx, -⟩ := bind_eq_ok.mp hr
      exact ⟨_, bind_eq_ok.mpr ⟨_, rfl, bind_eq_ok.mpr ⟨x, hx, rfl⟩⟩⟩
    · rintro ⟨x, hx⟩
      obtain ⟨_, hl, hx⟩ := bind_eq_ok.mp hx
      obtain rfl := Except.ok.inj hl
      obtain ⟨r, hr, -⟩ := bind_eq_ok.mp hx
      refine bind_returns ⟨_, rfl⟩ ?_
      rintro _ hl
      obtain rfl := Except.ok.inj hl
      refine bind_returns ⟨r, hr⟩ fun r' _ => ?_
      dsimp only
      split
      · exact ⟨_, rfl⟩
      · exact ⟨_, rfl⟩

/-- The value that was found ends inside the buffer. -/
theorem readProfileString_ends {defaultValue : Option (List UInt8)} {v : List UInt8}
    (h : readProfileString sect key value defaultValue file = .ok (true, v)) :
    (strOf v).length < value.length := by
  unfold readProfileString at h
  split at h
  · cases h
  rename_i hne
  have hpos : 0 < value.length := List.length_pos_iff.mpr fun hv => hne (Or.inr (Or.inr hv))
  obtain ⟨o, -, h⟩ := bind_eq_ok.mp h
  cases o with
  | none => cases (Prod.mk.inj (Except.ok.inj h)).1
  | some l =>
    obtain ⟨⟨found, f⟩, -, h⟩ := bind_eq_ok.mp h
    cases found with
    | false => cases (Prod.mk.inj (Except.ok.inj h)).1
    | true =>
      obtain ⟨-, rfl⟩ := Prod.mk.inj (Except.ok.inj h)
      generalize ht : (l.1.drop f.valueS.toNat).take
        (min (f.valueE - f.valueS) ((value.length : ℤ) - 1)).toNat = t
      have hlen : t.length < value.length := by
        rw [← ht, List.length_take]
        omega
      rw [strOf_zeros]
      exact lt_of_le_of_lt (List.takeWhile_prefix _).length_le hlen

theorem readProfileInt_returns {x : Int32} (hs : sect ≠ []) (hk : key ≠ [])
    (hload : loadIniFile file = .ok loaded) :
    (∃ n, readProfileInt sect key x file = .ok n) ↔ FileStays sect key file := by
  have hbuf : List.replicate 32 (0 : UInt8) ≠ [] := by simp
  exact (bind_returns_iff (readProfileString_returns none hs hk hbuf hload)
    fun _ => iff_true_intro ⟨_, rfl⟩).trans (and_iff_left trivial)

end

/-! ### What `%d` prints is what `atoi` reads -/

theorem digitsVal_map {cs : List Char} (hcs : ∀ c ∈ cs, c.isDigit) (n : ℕ) :
    (cs.map byte).foldl (fun n d => 10 * n + (d.toNat - 48)) n = Nat.ofDigitChars 10 cs n := by
  induction cs generalizing n with
  | nil => rw [Nat.ofDigitChars_nil]; rfl
  | cons c cs ih =>
    rw [List.map_cons, List.foldl_cons, Nat.ofDigitChars_cons,
      ih (fun d hd => hcs d (List.mem_cons_of_mem _ hd)),
      (toNat_byte_of_isDigit (hcs c List.mem_cons_self)).1]
    rfl

theorem digitsVal_toDigits (n : ℕ) : digitsVal ((Nat.toDigits 10 n).map byte) = n := by
  rw [digitsVal, digitsVal_map, Nat.ofDigitChars_ten_toDigits]
  exact fun c hc => Nat.isDigit_of_mem_toDigits (by decide) (by decide) hc

theorem isDigit_toDigits {n : ℕ} {b : UInt8} (hb : b ∈ (Nat.toDigits 10 n).map byte) :
    isDigit b = true := isDigit_iff.mpr (digits_of_mem hb)

theorem toDigits_ne (n : ℕ) : (Nat.toDigits 10 n).map byte ≠ [] := by
  intro h
  have hpos : 0 < (Nat.toDigits 10 n).length := Nat.length_toDigits_pos
  rw [List.map_eq_nil_iff.mp h] at hpos
  exact absurd hpos (Nat.lt_irrefl 0)

theorem saturate_toInt (x : Int32) : saturate x.toInt = x.toInt := by
  have hle := x.le_toInt
  have hlt := x.toInt_lt
  unfold saturate
  omega

theorem atoi_decimal (x : Int32) : atoi (decimal x.toInt) = x := by
  have hdigits : ∀ d ∈ (Nat.toDigits 10 x.toInt.natAbs).map byte, isDigit d = true :=
    fun d hd => isDigit_toDigits hd
  have hval := digitsVal_toDigits x.toInt.natAbs
  rcases lt_or_ge x.toInt 0 with hneg | hpos
  · have hend : isDigit (([] : List UInt8).headD 0) = false := rfl
    have hscan := scanInt_minus hdigits (toDigits_ne _) hend
    have habs : -(x.toInt.natAbs : ℤ) = x.toInt := by omega
    rw [hval, List.append_nil, habs, saturate_toInt, Int32.ofInt_toInt] at hscan
    have hdec : decimal x.toInt = byte '-' :: (Nat.toDigits 10 x.toInt.natAbs).map byte := by
      rw [decimal, if_pos hneg]
      rfl
    rw [atoi, hdec, hscan]
  · have hend : Ends none ((Nat.toDigits 10 x.toInt.natAbs).map byte) [] := Or.inr ⟨by simp, rfl⟩
    have hscan := scanInt_digits hdigits (toDigits_ne _) hend
    have habs : (x.toInt.natAbs : ℤ) = x.toInt := by omega
    rw [hval, List.append_nil, habs, saturate_toInt, Int32.ofInt_toInt] at hscan
    have hdec : decimal x.toInt = (Nat.toDigits 10 x.toInt.natAbs).map byte := by
      rw [decimal, if_neg (by omega)]
      rfl
    rw [atoi, hdec, hscan]

/-- An integer and its NUL fit into the buffer. -/
theorem length_decimal (x : Int32) : (decimal x.toInt).length ≤ 11 := by
  have hle := x.le_toInt
  have hlt := x.toInt_lt
  have hdigits : (Nat.toDigits 10 x.toInt.natAbs).length ≤ 10 :=
    (Nat.length_toDigits_le_iff (by decide) (by decide)).mpr (by omega)
  rw [decimal, List.length_append, List.length_map]
  split
  · rw [List.length_singleton]
    omega
  · rw [List.length_nil]
    omega

/-! ### Reading a table -/

theorem zero_notMem_strOf (s : List UInt8) : 0 ∉ strOf s := by
  intro h
  simpa using List.mem_takeWhile_imp h

theorem strOf_of_notMem {s : List UInt8} (h : 0 ∉ s) : strOf s = s := by
  rw [← strOf_filled_eq, strOf_filled h]

/-- The string in a buffer that a value was copied to: up to its first NUL. -/
theorem strOf_copied (v : List UInt8) (size : ℕ) :
    strOf (copied size v) = strOf (v.take (size - 1)) := by
  rw [copied]
  exact strOf_zeros _ _

theorem lastSaved_zero {x : Names} {ss : List Save} {v : List UInt8} (h : lastSaved x ss = some v) :
    0 ∉ v := by
  induction ss with
  | nil => cases h
  | cons s ss ih =>
    rcases Option.or_eq_some_iff.mp h with h | ⟨-, h⟩
    · exact ih h
    · obtain ⟨-, hv⟩ := Option.ite_none_right_eq_some.mp h
      rw [← Option.some.inj hv]
      exact s.update.value_zero

/-- An integer is read from the first 31 bytes of its value. -/
theorem readProfileInt_table {file : File} {m : Table} (h : HasTable file m) {x : Names}
    (hsect : x.sect ≠ []) (hkey : x.key ≠ []) (defaultValue : Int32) :
    readProfileInt x.sect x.key defaultValue file = .ok (match firstBelow m x with
      | some v => atoi (strOf (v.take 31))
      | none => defaultValue) := by
  have hne : ¬ (x.sect = [] ∨ x.key = [] ∨ List.replicate 32 (0 : UInt8) = []) := by
    simp [hsect, hkey]
  rw [readProfileInt, h]
  unfold readTable
  rw [if_neg hne]
  cases firstBelow m x with
  | none => rfl
  | some v =>
    change Except.ok (atoi (strOf (copied (List.replicate 32 (0 : UInt8)).length v))) = _
    rw [strOf_copied, List.length_replicate]

end AcqBoard.Ini
