import AcqBoard.Gps.Fields

/-! What the checksum of a frame detects.

    `gps_checksum` folds the bytes between the dollar sign and the first asterisk and compares two
    hexadecimal digits with the two bytes behind the asterisk. The fold keeps the difference of one
    byte, and the digits tell all bytes apart: no frame that is accepted stays so when one byte of its
    body or one of the two digits is another one. -/

namespace AcqBoard.Gps
open Schemes

def hexDigits : List UInt8 := ascii "0123456789ABCDEF"

/-- The upper-case two-digit hexadecimal form of a byte. -/
def upperHex (n : UInt8) : List UInt8 :=
  [hexDigits.getD (n.toNat / 16) 0, hexDigits.getD (n.toNat % 16) 0]

/-- The bytes strictly between the dollar sign and the first asterisk. -/
def bodyOf (t : List UInt8) : List UInt8 := (t.takeWhile (· ≠ byte '*')).tail

/-- The two characters after the first asterisk, as far as there are two. -/
def checkChars (t : List UInt8) : List UInt8 := ((t.dropWhile (· ≠ byte '*')).tail).take 2

/-- The two characters are those of the exclusive or of the body. -/
def Checksummed (t : List UInt8) : Prop :=
  checkChars t = upperHex ((bodyOf t).foldl (· ^^^ ·) 0)

instance (t : List UInt8) : Decidable (Checksummed t) :=
  inferInstanceAs (Decidable (checkChars t = upperHex ((bodyOf t).foldl (· ^^^ ·) 0)))

/-- `sbuff` holds a frame: at most 255 bytes from a dollar sign on, an asterisk among them. As `char`
    is unsigned, they need not be 7-bit bytes. -/
structure Framed (b : Sbuff) (t : List UInt8) : Prop where
  holds : Holds b.mem 0 t
  fits : t.length ≤ 255
  dollar : t.head? = some (byte '$')
  asterisk : byte '*' ∈ t

/-- One byte of a frame becomes another one: a byte of the body, or one of the two characters. -/
inductive Damage (t : List UInt8) : ℕ → UInt8 → Prop
  | body (k : ℕ) (v : UInt8) : 0 < k → k < (t.takeWhile (· ≠ byte '*')).length → t[k]? ≠ some v →
      v ≠ byte '*' → v ≠ 0 → Damage t k v
  | char (k : ℕ) (v : UInt8) : (t.takeWhile (· ≠ byte '*')).length < k →
      k ≤ (t.takeWhile (· ≠ byte '*')).length + 2 → t[k]? ≠ some v → Damage t k v

/-- `gps_checksum` returns 1, and the carriage return drops what is in the buffer. -/
def Rejected (b : Sbuff) : Prop :=
  gpsChecksum b = .ok true ∧ ∀ g x, g.sbuff = b → g.sIndex ≠ -1 →
    gpsByte g x 13 = .ok ({ g with sIndex := -1 }, [])

/-! ### The digits and the fold -/

theorem hexDigit_getD : ∀ n < 16, hexDigit n = hexDigits.getD n 0 := by decide

theorem hex2_eq_upperHex (n : UInt8) : hex2 n = upperHex n := by
  have hn := n.toNat_lt
  rw [hex2, upperHex, hexDigit_getD _ (by omega), hexDigit_getD _ (by omega)]

theorem hexDigits_inj : ∀ n < 16, ∀ m < 16,
    hexDigits.getD n 0 = hexDigits.getD m 0 → n = m := by decide

/-- The digits tell all bytes apart. -/
theorem upperHex_inj {m n : UInt8} (h : upperHex m = upperHex n) : m = n := by
  have hm := m.toNat_lt
  have hn := n.toNat_lt
  rw [upperHex, upperHex, List.cons.injEq, List.cons.injEq] at h
  have hhigh := hexDigits_inj _ (by omega) _ (by omega) h.1
  have hlow := hexDigits_inj _ (by omega) _ (by omega) h.2.1
  exact UInt8.toNat_inj.mp (by omega)

theorem foldl_xor_inj {l : List UInt8} : ∀ {a b : UInt8},
    l.foldl (· ^^^ ·) a = l.foldl (· ^^^ ·) b → a = b := by
  induction l with
  | nil => intro a b h; exact h
  | cons c l ih => intro a b h; exact (UInt8.xor_left_inj c).mp (ih h)

/-- The fold keeps the difference of one byte. -/
theorem foldl_xor_set {l : List UInt8} {i : ℕ} {v a : UInt8} (hi : i < l.length)
    (hv : l[i]? ≠ some v) : (l.set i v).foldl (· ^^^ ·) a ≠ l.foldl (· ^^^ ·) a := by
  induction l generalizing i a with
  | nil => simp at hi
  | cons c l ih =>
    cases i with
    | zero =>
      intro h
      rw [List.set_cons_zero, List.foldl_cons, List.foldl_cons] at h
      have hcv := (UInt8.xor_right_inj a).mp (foldl_xor_inj h)
      exact hv (by rw [hcv]; rfl)
    | succ i =>
      rw [List.set_cons_succ, List.foldl_cons, List.foldl_cons]
      exact ih (Nat.lt_of_succ_lt_succ hi) (by simpa using hv)

/-! ### `gps_checksum` -/

/-- A frame is accepted exactly if its characters are the checksum of its body. -/
theorem gpsChecksum_framed {b : Sbuff} {t : List UInt8} (h : Framed b t) :
    gpsChecksum b = .ok !(decide (Checksummed t)) := by
  have hfits := h.fits
  rw [gpsChecksum_holds h.holds (by omega) h.dollar, if_pos h.asterisk, checksumOk,
    hex2_eq_upperHex]
  congr 2
  exact decide_eq_decide.mpr eq_comm

theorem rejected_of_framed {b : Sbuff} {t : List UInt8} (h : Framed b t) (hbad : ¬ Checksummed t) :
    Rejected b := by
  have hsum : gpsChecksum b = .ok true := by
    rw [gpsChecksum_framed h, decide_eq_false hbad]
    rfl
  refine ⟨hsum, ?_⟩
  intro g x hg hidx
  rw [gpsByte, if_neg (by decide), if_neg hidx, if_pos rfl, frameEnd, hg, hsum]
  rfl

/-- The parts of a frame around its first asterisk. -/
theorem parts_append {l r : List UInt8} (hl : byte '*' ∉ l) :
    bodyOf (l ++ byte '*' :: r) = l.tail ∧ checkChars (l ++ byte '*' :: r) = r.take 2 := by
  have hne : ∀ a ∈ l, decide (a ≠ byte '*') = true := fun a ha =>
    decide_eq_true fun heq => hl (heq ▸ ha)
  constructor
  · rw [bodyOf, List.takeWhile_append_of_pos hne]
    simp
  · rw [checkChars, List.dropWhile_append_of_pos hne]
    simp

/-- An accepted frame, taken apart. -/
theorem exists_parts {t : List UInt8} (hhead : t.head? = some (byte '$')) (hstar : byte '*' ∈ t)
    (hok : Checksummed t) : ∃ m c d r, t = (byte '$' :: m) ++ byte '*' :: c :: d :: r ∧
      byte '*' ∉ byte '$' :: m ∧ (t.takeWhile (· ≠ byte '*')).length = m.length + 1 ∧
      [c, d] = upperHex (m.foldl (· ^^^ ·) 0) := by
  obtain ⟨l, r, rfl, hl, htake, -⟩ := exists_cut hstar
  obtain ⟨hbody, hchars⟩ := parts_append (r := r) hl
  rw [Checksummed, hbody, hchars] at hok
  match l, r with
  | [], r => exact absurd (Option.some.inj hhead) (by decide)
  | _ :: _, [] => simp [upperHex] at hok
  | _ :: _, [_] => simp [upperHex] at hok
  | a :: m, c :: d :: r =>
    obtain rfl : a = byte '$' := Option.some.inj hhead
    refine ⟨m, c, d, r, rfl, hl, ?_, hok⟩
    rw [htake, List.length_cons]

/-- Another byte in the body. -/
theorem rejected_body {b b' : Sbuff} {m r : List UInt8} {i : ℕ} {v : UInt8}
    (h : Framed b ((byte '$' :: m) ++ byte '*' :: r)) (hl : byte '*' ∉ byte '$' :: m)
    (hok : r.take 2 = upperHex (m.foldl (· ^^^ ·) 0)) (hi : i < m.length) (hne : m[i]? ≠ some v)
    (hstar : v ≠ byte '*') (hnul : v ≠ 0) (hb : b'.mem = Function.update b.mem (i + 1) v) :
    Rejected b' := by
  have hset : ((byte '$' :: m) ++ byte '*' :: r).set (i + 1) v =
      (byte '$' :: m.set i v) ++ byte '*' :: r := by
    rw [List.set_append_left _ _ (by rw [List.length_cons]; omega), List.set_cons_succ]
  have hl' : byte '*' ∉ byte '$' :: m.set i v := by
    rw [List.mem_cons, not_or] at hl ⊢
    refine ⟨hl.1, fun hmem => ?_⟩
    rcases List.mem_or_eq_of_mem_set hmem with hmem | heq
    · exact hl.2 hmem
    · exact hstar heq.symm
  have hframed : Framed b' ((byte '$' :: m.set i v) ++ byte '*' :: r) := by
    refine ⟨?_, by simpa using h.fits, rfl, by simp⟩
    have := holds_set (i := i + 1) h.holds (by simp; omega) hnul
    rwa [Nat.zero_add, ← hb, hset] at this
  refine rejected_of_framed hframed ?_
  obtain ⟨hbody, hchars⟩ := parts_append (r := r) hl'
  rw [Checksummed, hbody, hchars, hok, List.tail_cons]
  exact fun heq => foldl_xor_set hi hne (upperHex_inj heq).symm

/-- Other characters behind the asterisk. -/
theorem rejected_chars {b' : Sbuff} {m r s : List UInt8}
    (h : Framed b' ((byte '$' :: m) ++ byte '*' :: s)) (hl : byte '*' ∉ byte '$' :: m)
    (hok : r.take 2 = upperHex (m.foldl (· ^^^ ·) 0)) (hne : s.take 2 ≠ r.take 2) :
    Rejected b' := by
  refine rejected_of_framed h ?_
  obtain ⟨hbody, hchars⟩ := parts_append (r := s) hl
  rw [Checksummed, hbody, hchars, List.tail_cons, ← hok]
  exact hne

/-- One of the two characters replaced; a NUL ends the string there. -/
theorem rejected_char {b b' : Sbuff} {m r : List UInt8} {c d : UInt8} {j : ℕ} {v : UInt8}
    (h : Framed b ((byte '$' :: m) ++ byte '*' :: c :: d :: r)) (hl : byte '*' ∉ byte '$' :: m)
    (hok : [c, d] = upperHex (m.foldl (· ^^^ ·) 0)) (hj : j < 2) (hne : (c :: d :: r)[j]? ≠ some v)
    (hb : b'.mem = Function.update b.mem (m.length + 2 + j) v) : Rejected b' := by
  have hlen : (byte '$' :: m ++ byte '*' :: (c :: d :: r)).length = m.length + r.length + 4 := by
    simp; omega
  have hfits := h.fits
  rw [hlen] at hfits
  rcases eq_or_ne v 0 with rfl | hv
  · refine rejected_chars (s := (c :: d :: r).take j) (r := c :: d :: r) ⟨?_, ?_, rfl, by simp⟩ hl
      hok ?_
    · obtain ⟨a, rest, htail⟩ : ∃ a rest, c :: d :: r = (c :: d :: r).take j ++ a :: rest := by
        obtain rfl | rfl : j = 0 ∨ j = 1 := by omega
        · exact ⟨c, d :: r, rfl⟩
        · exact ⟨d, r, rfl⟩
      have hsplit : byte '$' :: m ++ byte '*' :: c :: d :: r =
          (byte '$' :: m ++ byte '*' :: (c :: d :: r).take j) ++ a :: rest := by
        rw [List.append_assoc]
        exact congrArg (fun u => byte '$' :: m ++ byte '*' :: u) htail
      have hholds := h.holds
      rw [hsplit] at hholds
      have := holds_cut_left hholds
      have hpos : 0 + (byte '$' :: m ++ byte '*' :: (c :: d :: r).take j).length =
          m.length + 2 + j := by simp; omega
      rw [hpos, nulAt, ← hb] at this
      exact this
    · simp; omega
    · intro heq
      have := congrArg List.length heq
      simp at this
      omega
  · refine rejected_chars (s := (c :: d :: r).set j v) (r := c :: d :: r) ⟨?_, ?_, rfl, by simp⟩ hl
      hok ?_
    · have := holds_set (i := m.length + 2 + j) h.holds (by simp; omega) hv
      rw [Nat.zero_add, ← hb, List.set_append_right _ _ (by simp; omega)] at this
      have hidx : m.length + 2 + j - (byte '$' :: m).length = j + 1 := by simp; omega
      rw [hidx, List.set_cons_succ] at this
      exact this
    · simp; omega
    · obtain rfl | rfl : j = 0 ∨ j = 1 := by omega
      · simpa [eq_comm] using hne
      · simpa [eq_comm] using hne

/-- CORRECT: a frame is accepted exactly if the two characters after its first asterisk are the
    upper-case hexadecimal form of the exclusive or of its body. With another byte in its body that is
    no asterisk and no NUL, or with another byte for one of the two characters, an accepted frame is
    rejected. -/
theorem checksum_detects {b : Sbuff} {t : List UInt8} (h : Framed b t) :
    (gpsChecksum b = .ok false ↔ Checksummed t) ∧
      (gpsChecksum b = .ok false → ∀ k v, Damage t k v → ∀ b' : Sbuff,
        b'.mem = Function.update b.mem k v → Rejected b') := by
  have hsum : gpsChecksum b = .ok false ↔ Checksummed t := by
    rw [gpsChecksum_framed h]
    simp
  refine ⟨hsum, ?_⟩
  intro hacc k v hdam b' hb
  obtain ⟨m, c, d, r, rfl, hl, hlen, hok⟩ := exists_parts h.dollar h.asterisk (hsum.mp hacc)
  cases hdam with
  | body hpos hlt hne hstar hnul =>
    rw [hlen] at hlt
    obtain ⟨i, rfl⟩ : ∃ i, k = i + 1 := ⟨k - 1, by omega⟩
    have hi : i < m.length := by omega
    rw [List.cons_append, List.getElem?_cons_succ, List.getElem?_append_left hi] at hne
    exact rejected_body h hl hok hi hne hstar hnul hb
  | char hlow hhigh hne =>
    rw [hlen] at hlow hhigh
    obtain ⟨j, rfl⟩ : ∃ j, k = m.length + 2 + j := ⟨k - (m.length + 2), by omega⟩
    have hidx : m.length + 2 + j - (byte '$' :: m).length = j + 1 := by simp; omega
    rw [List.getElem?_append_right (by simp; omega), hidx, List.getElem?_cons_succ] at hne
    exact rejected_char h hl hok (by omega) hne hb

/-- The exclusive or of a single letter is the letter. -/
def letterSbuff : Sbuff := Receiver.boot.sbuff.load (ascii "$A*41") (by decide)

/-- Another letter under the same two characters. -/
theorem checksum_detects_letter : ∃ b' : Sbuff,
    b'.mem = Function.update letterSbuff.mem 1 (byte 'B') ∧ Rejected b' := by
  have hframed : Framed letterSbuff (ascii "$A*41") :=
    ⟨holds_load (by decide), by decide, rfl, by decide⟩
  have hacc : gpsChecksum letterSbuff = .ok false :=
    (checksum_detects hframed).1.mpr (by decide)
  have hlast : Function.update letterSbuff.mem 1 (byte 'B') 255 = 0 :=
    (Function.update_of_ne (by decide) _ _).trans letterSbuff.last
  refine ⟨⟨_, hlast⟩, rfl, ?_⟩
  refine (checksum_detects hframed).2 hacc 1 (byte 'B') (Damage.body 1 (byte 'B') ?_ ?_ ?_ ?_ ?_) _
    rfl
  all_goals decide

end AcqBoard.Gps
