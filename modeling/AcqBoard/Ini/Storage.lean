import AcqBoard.Ini.Document

/-! Reading and writing a profile: `load_ini_file`, `read_profile_string` and `write_profile_string`.

    A file is the list of its bytes, or absent. `char` is unsigned on the board, so that a byte 0xFF
    is `(char)EOF` for the loading loop. `sprintf` gets the rest of the file as its format: what it
    prints for one with a `%` is a parameter, `conv`. -/

namespace AcqBoard.Ini
open Schemes

/-- `MAX_FILE_SIZE`. -/
def maxFileSize : ℕ := 1024 * 16

/-- `(char)EOF`. -/
def eof : UInt8 := 0xFF

@[simp] theorem eof_ne_lf : eof ≠ byte '\n' := by decide

@[simp] theorem eof_ne_equals : eof ≠ byte '=' := by decide

@[simp] theorem eof_ne_leftBarce : eof ≠ byte '[' := by decide

@[simp] theorem eof_ne_rightBrace : eof ≠ byte ']' := by decide

abbrev File := Option (List UInt8)

/-- A buffer of `MAX_FILE_SIZE` bytes that begins with `s`; the others are zero. -/
def filled (s : List UInt8) : List UInt8 := s ++ List.replicate (maxFileSize - s.length) 0

/-- The loading loop: the bytes still in the file and those already in the buffer. -/
def loadLoop : List UInt8 → List UInt8 → Except Fault (List UInt8)
  | [], buf => .ok buf
  | c :: s, buf =>
    if c = eof then .ok buf
    else if buf.length + 1 < maxFileSize then loadLoop s (buf ++ [c])
    else .error .assertion

/-- The buffer and `file_size`, if the file can be opened. -/
def loadIniFile : File → Except Fault (Option (List UInt8 × ℕ))
  | none => .ok none
  | some bytes => do
    let s ← loadLoop bytes []
    pure (some (filled s, s.length))

/-- `strncpy` into a buffer that held `value`. -/
def strncpy (value src : List UInt8) : List UInt8 :=
  (src ++ List.replicate value.length 0).take value.length

/-- The buffer of the caller held `value`; its length is `size`. -/
def readProfileString (sect key value : List UInt8) (defaultValue : Option (List UInt8))
    (file : File) : Except Fault (Bool × List UInt8) :=
  if sect = [] ∨ key = [] ∨ value = [] then .error .assertion
  else do
    let fallback := match defaultValue with
      | some d => strncpy value d
      | none => value
    match ← loadIniFile file with
    | none => pure (false, fallback)
    | some (buf, _) =>
      let (found, f) ← parseFile sect key buf
      if found then
        let cpcount := min (f.valueE - f.valueS) (value.length - 1)
        let s := (buf.drop f.valueS.toNat).take cpcount.toNat
        pure (true, s ++ List.replicate (value.length - s.length) 0)
      else pure (false, fallback)

/-- The string at the beginning of a buffer. -/
def strOf (buf : List UInt8) : List UInt8 := buf.takeWhile (· ≠ 0)

/-- `memcpy` into a buffer. -/
def blit (w : List UInt8) (pos : ℕ) (s : List UInt8) : Except Fault (List UInt8) :=
  if pos + s.length ≤ w.length then .ok (w.take pos ++ s ++ w.drop (pos + s.length))
  else .error .overrun

/-- `sprintf` with one argument that is an integer. -/
def sprintf (conv : List UInt8 → ℤ → Except Fault (List UInt8)) (fmt : List UInt8) (arg : ℤ) :
    Except Fault (List UInt8) :=
  if byte '%' ∈ fmt then conv fmt arg else .ok fmt

/-- `"[%s]\n%s=%s\n"`. -/
def newSection (sect key value : List UInt8) : List UInt8 :=
  byte '[' :: (sect ++ byte ']' :: byte '\n' :: (key ++ byte '=' :: (value ++ [byte '\n'])))

/-- `"%s=%s\n"`. -/
def newKey (key value : List UInt8) : List UInt8 := key ++ byte '=' :: (value ++ [byte '\n'])

/-- What `write_profile_string` puts into `w_buf`. -/
def newText (conv : List UInt8 → ℤ → Except Fault (List UInt8)) (sect key value buf : List UInt8)
    (fileSize : ℕ) (f : Spans) : Except Fault (List UInt8) :=
  if f.secS = -1 then
    if fileSize = 0 then blit (filled []) fileSize (newSection sect key value ++ [0])
    else do
      let w ← blit (filled []) 0 (buf.take fileSize)
      blit w fileSize (byte '\n' :: newSection sect key value ++ [0])
  else if f.keyS = -1 then do
    let secE := f.secE.toNat
    let w ← blit (filled []) 0 (buf.take secE)
    let w ← blit w secE (newKey key value ++ [0])
    let s ← sprintf conv (strOf (buf.drop secE)) (fileSize - secE)
    blit w (secE + key.length + value.length + 2) (s ++ [0])
  else do
    let valueS := f.valueS.toNat
    let valueE := f.valueE.toNat
    let w ← blit (filled []) 0 (buf.take valueS)
    let w ← blit w valueS value
    blit w (valueS + value.length) ((buf.drop valueE).take (fileSize - valueE))

/-- The file system at the moment of writing: `fopen` may fail, and `fputs` after some bytes. -/
structure Disk where
  fopenOk : Bool
  fputsFails : Option ℕ

/-- What `write_profile_string` finds: the buffer, `file_size` and the spans. A file that cannot be
    opened leaves the buffer empty and `sec_s` at -1. -/
def loadAndParse (sect key : List UInt8) (file : File) :
    Except Fault (List UInt8 × ℕ × Spans) := do
  match ← loadIniFile file with
  | none => pure (filled [], 0, {})
  | some (buf, fileSize) =>
    let (_, f) ← parseFile sect key buf
    pure (buf, fileSize, f)

def writeProfileString (conv : List UInt8 → ℤ → Except Fault (List UInt8))
    (sect key value : List UInt8) (file : File) (d : Disk) : Except Fault (Bool × File) :=
  if sect = [] ∨ key = [] then .error .assertion
  else do
    let (buf, fileSize, f) ← loadAndParse sect key file
    let w ← newText conv sect key value buf fileSize f
    if d.fopenOk = false then pure (false, file)
    else if 0 ∉ w then .error .overrun
    else match d.fputsFails with
      | some n => pure (false, some ((strOf w).take n))
      | none => pure (true, some (strOf w))

/-! ### Buffers -/

section
variable {s t : List UInt8}

theorem filled_end (h : s.length < maxFileSize) :
    filled s = s ++ 0 :: List.replicate (maxFileSize - s.length - 1) 0 := by
  obtain ⟨n, hn⟩ := Nat.exists_eq_add_one_of_ne_zero (Nat.sub_ne_zero_of_lt h)
  rw [filled, hn, List.replicate_succ, Nat.add_sub_cancel]

theorem filled_end_two (h : s.length + 1 < maxFileSize) :
    filled s = s ++ 0 :: 0 :: List.replicate (maxFileSize - s.length - 2) 0 := by
  obtain ⟨n, hn⟩ : ∃ n, maxFileSize - s.length = n + 2 := ⟨maxFileSize - s.length - 2, by omega⟩
  rw [filled, hn, List.replicate_succ, List.replicate_succ, Nat.add_sub_cancel]

theorem length_filled (h : s.length ≤ maxFileSize) : (filled s).length = maxFileSize := by
  rw [filled, List.length_append, List.length_replicate]
  omega

theorem blit_filled (h : s.length + t.length ≤ maxFileSize) :
    blit (filled s) s.length t = .ok (filled (s ++ t)) := by
  have hlen := length_filled (s := s) (by omega)
  have hdrop : (filled s).drop (s.length + t.length) =
      List.replicate (maxFileSize - (s ++ t).length) 0 := by
    rw [filled, ← List.drop_drop, List.drop_left, List.drop_replicate, List.length_append,
      Nat.sub_sub]
  rw [blit, if_pos (by omega), hdrop, filled, List.take_left]
  rfl

theorem blit_empty (h : t.length ≤ maxFileSize) : blit (filled []) 0 t = .ok (filled t) := by
  have hfits := blit_filled (s := []) (t := t) (by rw [List.length_nil]; omega)
  rw [List.nil_append, List.length_nil] at hfits
  exact hfits

theorem blit_filled_overrun (hs : s.length ≤ maxFileSize)
    (h : ¬ s.length + t.length ≤ maxFileSize) : blit (filled s) s.length t = .error .overrun := by
  rw [blit, length_filled hs, if_neg h]

theorem filled_concat (h : s.length < maxFileSize) : filled (s ++ [0]) = filled s := by
  rw [filled_end h, filled, List.length_append, List.length_singleton, Nat.sub_sub,
    List.append_assoc]
  rfl

theorem strOf_append (hs : 0 ∉ s) (t : List UInt8) : strOf (s ++ t) = s ++ strOf t := by
  refine List.takeWhile_append_of_pos ?_
  intro b hb
  exact decide_eq_true fun h => hs (h ▸ hb)

@[simp] theorem strOf_zero (s : List UInt8) : strOf (0 :: s) = [] := rfl

@[simp] theorem strOf_replicate (n : ℕ) : strOf (List.replicate n 0) = [] := by
  cases n <;> rfl

theorem strOf_filled (hs : 0 ∉ s) : strOf (filled s) = s := by
  rw [filled, strOf_append hs, strOf_replicate, List.append_nil]

theorem takeWhile_eof (hs : eof ∉ s) (t : List UInt8) :
    (s ++ t).takeWhile (· ≠ eof) = s ++ t.takeWhile (· ≠ eof) := by
  refine List.takeWhile_append_of_pos ?_
  intro b hb
  exact decide_eq_true fun h => hs (h ▸ hb)

theorem takeWhile_eof_self (hs : eof ∉ s) : s.takeWhile (· ≠ eof) = s := by
  simpa using takeWhile_eof hs []

/-- Zero bytes behind it add nothing to a string. -/
theorem strOf_zeros (s : List UInt8) (n : ℕ) : strOf (s ++ List.replicate n 0) = strOf s := by
  have hzero : ∀ n, (List.replicate n (0 : UInt8)).takeWhile (· ≠ 0) = [] := strOf_replicate
  rw [strOf, strOf, List.takeWhile_append]
  split
  · rename_i hall
    rw [hzero, List.append_nil, List.Sublist.eq_of_length (List.takeWhile_sublist _) hall]
  · rfl

theorem strOf_filled_eq (s : List UInt8) : strOf (filled s) = strOf s := strOf_zeros s _

/-- A byte 0xFF ends the file. -/
theorem takeWhile_eof_mem (hs : eof ∈ s) (t : List UInt8) :
    (s ++ t).takeWhile (· ≠ eof) = s.takeWhile (· ≠ eof) ∧
      (s.takeWhile (· ≠ eof)).length < s.length := by
  obtain ⟨a, b, rfl, ha⟩ := List.eq_append_cons_of_mem hs
  have htake : ∀ u, (a ++ eof :: u).takeWhile (· ≠ eof) = a := by
    intro u
    rw [takeWhile_eof ha, List.takeWhile_cons, if_neg (by simp), List.append_nil]
  rw [List.append_assoc, List.cons_append, htake, htake]
  simp

end

/-! ### Loading and reading -/

theorem loadLoop_eq {s buf : List UInt8}
    (h : buf.length + (s.takeWhile (· ≠ eof)).length < maxFileSize) :
    loadLoop s buf = .ok (buf ++ s.takeWhile (· ≠ eof)) := by
  induction s generalizing buf with
  | nil => rw [loadLoop, List.takeWhile_nil, List.append_nil]
  | cons c s ih =>
    rw [loadLoop]
    rcases eq_or_ne c eof with hc | hc
    · rw [if_pos hc, List.takeWhile_cons, if_neg (by simp [hc]), List.append_nil]
    · rw [List.takeWhile_cons, if_pos (by simp [hc]), List.length_cons] at h
      rw [if_neg hc, if_pos (by omega), List.takeWhile_cons, if_pos (by simp [hc]),
        ih (by rw [List.length_append, List.length_singleton]; omega), List.append_assoc]
      rfl

theorem loadIniFile_eq {bytes : List UInt8}
    (h : (bytes.takeWhile (· ≠ eof)).length < maxFileSize) :
    loadIniFile (some bytes) = .ok (some (filled (bytes.takeWhile (· ≠ eof)),
      (bytes.takeWhile (· ≠ eof)).length)) := by
  rw [loadIniFile, loadLoop_eq (by simpa using h)]
  rfl

theorem loadLoop_lt {s buf t : List UInt8} (hbuf : buf.length < maxFileSize)
    (h : loadLoop s buf = .ok t) : buf.length + (s.takeWhile (· ≠ eof)).length < maxFileSize := by
  induction s generalizing buf with
  | nil => simpa using hbuf
  | cons c s ih =>
    rw [loadLoop] at h
    rcases eq_or_ne c eof with hc | hc
    · rw [List.takeWhile_cons, if_neg (by simp [hc])]
      exact hbuf
    · rw [if_neg hc] at h
      split at h
      · rename_i hfits
        have hrest := ih (by rw [List.length_append]; exact hfits) h
        rw [List.length_append, List.length_singleton] at hrest
        rw [List.takeWhile_cons, if_pos (by simp [hc]), List.length_cons]
        omega
      · exact nomatch h

/-- A file that is loaded: its text is shorter than the buffer, and stands in it. -/
theorem loadIniFile_ok {bytes buf : List UInt8} {size : ℕ}
    (h : loadIniFile (some bytes) = .ok (some (buf, size))) :
    buf = filled (bytes.takeWhile (· ≠ eof)) ∧ size = (bytes.takeWhile (· ≠ eof)).length ∧
      (bytes.takeWhile (· ≠ eof)).length < maxFileSize := by
  have hlen : (bytes.takeWhile (· ≠ eof)).length < maxFileSize := by
    obtain ⟨t, ht, -⟩ := bind_eq_ok.mp h
    have hlt := loadLoop_lt (by decide) ht
    rw [List.length_nil, Nat.zero_add] at hlt
    exact hlt
  rw [loadIniFile_eq hlen] at h
  obtain ⟨rfl, rfl⟩ := Prod.mk.inj (Option.some.inj (Except.ok.inj h))
  exact ⟨rfl, rfl, hlen⟩

section
variable {sect key value : List UInt8} {defaultValue : Option (List UInt8)}
  {bytes : List UInt8} {f : Spans}

/-- The string that is read: the text between the spans, if the buffer has room for it. -/
theorem readProfileString_found {a s b : List UInt8} (hs : sect ≠ []) (hk : key ≠ [])
    (hload : bytes.takeWhile (· ≠ eof) = a ++ (s ++ b)) (hlen : (a ++ (s ++ b)).length < maxFileSize)
    (hp : parseFile sect key (filled (a ++ (s ++ b))) = .ok (true, f))
    (hvs : f.valueS = a.length) (hve : f.valueE = (a.length + s.length : ℕ))
    (hz : 0 ∉ s) (hv : s.length < value.length) :
    ∃ out, readProfileString sect key value defaultValue (some bytes) = .ok (true, out) ∧
      strOf out = s := by
  have hne : value ≠ [] := by
    rintro rfl
    exact absurd hv (Nat.not_lt_zero _)
  have hcount : (min (f.valueE - f.valueS) (value.length - 1)).toNat = s.length := by
    rw [hvs, hve]
    omega
  have htext : ((filled (a ++ (s ++ b))).drop f.valueS.toNat).take s.length = s := by
    rw [hvs, Int.toNat_natCast, filled, List.append_assoc, List.append_assoc, List.drop_left,
      List.take_left]
  refine ⟨s ++ List.replicate (value.length - s.length) 0, ?_, ?_⟩
  · unfold readProfileString
    rw [if_neg (by simp [hs, hk, hne]), loadIniFile_eq (by rw [hload]; exact hlen),
      hload]
    simp only [bind, Except.bind, hp, if_true, hcount, htext, pure, Except.pure]
  · rw [strOf_append hz, strOf_replicate, List.append_nil]

theorem readProfileString_missing {t : List UInt8} (hload : bytes.takeWhile (· ≠ eof) = t)
    (hlen : t.length < maxFileSize) (hp : parseFile sect key (filled t) = .ok (false, f))
    {out : List UInt8} :
    readProfileString sect key value defaultValue (some bytes) ≠ .ok (true, out) := by
  intro h
  unfold readProfileString at h
  split at h
  · simp at h
  · rw [loadIniFile_eq (by rw [hload]; exact hlen), hload] at h
    simp [bind, Except.bind, hp, pure, Except.pure] at h

end

/-! ### Writing -/

section
variable {conv : List UInt8 → ℤ → Except Fault (List UInt8)} {sect key value old w : List UInt8}
  {f : Spans} {found : Bool} {file file' : File} {d : Disk}

/-- A write that succeeds leaves the string in `w_buf`. -/
theorem writeProfileString_ok (hold : file.getD [] = old) (heof : eof ∉ old)
    (hlen : old.length < maxFileSize) (hp : parseFile sect key (filled old) = .ok (found, f))
    (hnone : old = [] → f = {})
    (h : writeProfileString conv sect key value file d = .ok (true, file')) :
    ∃ w, newText conv sect key value (filled old) old.length f = .ok w ∧
      file' = some (strOf w) := by
  have hload : loadAndParse sect key file = .ok (filled old, old.length, f) := by
    cases file with
    | none =>
      obtain rfl : [] = old := hold
      rw [hnone rfl]
      rfl
    | some bytes =>
      obtain rfl : bytes = old := hold
      have hall : bytes.takeWhile (· ≠ eof) = bytes := by
        simpa using takeWhile_eof heof []
      rw [loadAndParse, loadIniFile_eq (by rw [hall]; exact hlen), hall]
      simp only [bind, Except.bind, hp, pure, Except.pure]
  unfold writeProfileString at h
  split at h
  · simp at h
  · rw [hload] at h
    obtain ⟨r, hr, h⟩ := bind_eq_ok.mp h
    obtain rfl := Except.ok.inj hr
    obtain ⟨w, hw, h⟩ := bind_eq_ok.mp h
    refine ⟨w, hw, ?_⟩
    split at h
    · simp [pure, Except.pure] at h
    split at h
    · simp at h
    split at h
    · simp [pure, Except.pure] at h
    · simpa [pure, Except.pure, eq_comm] using h

theorem not_mem_newKey {b : UInt8} (heq : b ≠ byte '=') (hnl : b ≠ byte '\n') (hk : b ∉ key)
    (hv : b ∉ value) : b ∉ newKey key value := by
  simp [newKey, hk, hv, heq, hnl]

theorem zero_not_mem_newSection (hs : 0 ∉ sect) (hk : 0 ∉ key) (hv : 0 ∉ value) :
    0 ∉ newSection sect key value := by
  have h₁ : (0 : UInt8) ≠ byte '[' := by decide
  have h₂ : (0 : UInt8) ≠ byte ']' := by decide
  have h₃ : (0 : UInt8) ≠ byte '\n' := by decide
  have hnew : 0 ∉ newKey key value := not_mem_newKey (by decide) h₃ hk hv
  simpa [newSection, newKey, hs, h₁, h₂, h₃] using hnew

/-- A string and its NUL, written behind the text in the buffer. -/
theorem blit_string {s t : List UInt8} (hs : s.length ≤ maxFileSize)
    (h : blit (filled s) s.length (t ++ [0]) = .ok w) :
    w = filled (s ++ t) ∧ (s ++ t).length < maxFileSize := by
  have hfits : s.length + (t ++ [0]).length ≤ maxFileSize := by
    by_contra hno
    rw [blit_filled_overrun hs hno] at h
    exact nomatch h
  have hlt : (s ++ t).length < maxFileSize := by
    rw [List.length_append, List.length_singleton] at hfits
    rw [List.length_append]
    omega
  rw [blit_filled hfits, ← List.append_assoc, filled_concat hlt] at h
  exact ⟨(Except.ok.inj h).symm, hlt⟩

/-- The text before the position, copied into the empty buffer. -/
theorem blit_take (hold : old.length < maxFileSize) {n : ℕ} (hn : n ≤ old.length) :
    blit (filled []) 0 ((filled old).take n) = .ok (filled (old.take n)) := by
  have htake : (filled old).take n = old.take n := List.take_append_of_le_length hn
  rw [htake]
  exact blit_empty (by rw [List.length_take]; omega)

/-- Without the section, a new one goes behind the text. -/
theorem newText_append (hsec : f.secS = -1) (hlen : old.length < maxFileSize)
    (h : newText conv sect key value (filled old) old.length f = .ok w) :
    ∃ t, t = (if old = [] then newSection sect key value
      else old ++ byte '\n' :: newSection sect key value) ∧ w = filled t ∧
      t.length < maxFileSize := by
  rw [newText, if_pos hsec] at h
  refine ⟨_, rfl, ?_⟩
  cases old with
  | nil =>
    rw [if_pos List.length_nil] at h
    rw [if_pos rfl]
    have hstring := blit_string (s := []) (Nat.zero_le _) h
    rw [List.nil_append] at hstring
    exact hstring
  | cons b s =>
    rw [if_neg (by simp)] at h
    obtain ⟨v, hv, h⟩ := bind_eq_ok.mp h
    rw [blit_take hlen (Nat.le_refl _), List.take_length] at hv
    obtain rfl := Except.ok.inj hv
    exact blit_string hlen.le h

/-- Where the scanner finds no section, a disk that works makes the write succeed. -/
theorem writeProfileString_newSection (hs : sect ≠ []) (hk : key ≠ []) (hold : file.getD [] = old)
    (heof : eof ∉ old) (hp : parseFile sect key (filled old) = .ok (found, f)) (hsec : f.secS = -1)
    (hlen : (old ++ byte '\n' :: newSection sect key value).length < maxFileSize)
    (hz : 0 ∉ old ++ byte '\n' :: newSection sect key value) :
    writeProfileString conv sect key value file ⟨true, none⟩ = .ok (true, some
      (if old = [] then newSection sect key value
        else old ++ byte '\n' :: newSection sect key value)) := by
  obtain ⟨g, hload, hg⟩ : ∃ g, loadAndParse sect key file = .ok (filled old, old.length, g) ∧
      g.secS = -1 := by
    cases file with
    | none =>
      obtain rfl : [] = old := hold
      exact ⟨{}, rfl, rfl⟩
    | some bytes =>
      obtain rfl : bytes = old := hold
      have hall : bytes.takeWhile (· ≠ eof) = bytes := by
        simpa using takeWhile_eof heof []
      rw [List.length_append] at hlen
      rw [loadAndParse, loadIniFile_eq (by rw [hall]; omega), hall]
      exact ⟨f, by simp only [bind, Except.bind, hp, pure, Except.pure], hsec⟩
  obtain ⟨t, ht, hnew, hzt, hfit⟩ : ∃ t, t = (if old = [] then newSection sect key value
      else old ++ byte '\n' :: newSection sect key value) ∧
        newText conv sect key value (filled old) old.length g = .ok (filled t) ∧ 0 ∉ t ∧
          t.length < maxFileSize := by
    refine ⟨_, rfl, ?_⟩
    rw [newText, if_pos hg]
    cases old with
    | nil =>
      rw [List.nil_append, List.length_cons] at hlen
      rw [if_pos List.length_nil, if_pos rfl]
      refine ⟨?_, fun hm => hz (List.mem_append_right _ (List.mem_cons_of_mem _ hm)), by omega⟩
      rw [List.length_nil, blit_empty (by rw [List.length_append, List.length_singleton]; omega),
        filled_concat (by omega)]
    | cons b s =>
      rw [if_neg (by simp), if_neg (by simp)]
      refine ⟨?_, hz, hlen⟩
      have hlen' := hlen
      rw [List.length_append] at hlen'
      rw [blit_take (by omega) (Nat.le_refl _), List.take_length]
      simp only [bind, Except.bind]
      rw [blit_filled (by rw [List.length_append, List.length_singleton]; omega),
        ← List.append_assoc, filled_concat hlen]
  have hzw : 0 ∈ filled t := by
    rw [filled_end hfit]
    simp
  rw [← ht, writeProfileString, if_neg (by simp [hs, hk]), hload]
  simp only [bind, Except.bind, hnew]
  rw [if_neg (by simp), if_neg (not_not.mpr hzw), strOf_filled hzt]
  rfl

/-- Without the key, it goes where the section begins. -/
theorem newText_insert (hsec : f.secS ≠ -1) (hkey : f.keyS = -1) (hlen : old.length < maxFileSize)
    {n : ℕ} (hn : f.secE = n) (hle : n ≤ old.length)
    (h : newText conv sect key value (filled old) old.length f = .ok w) :
    ∃ s, sprintf conv (strOf ((filled old).drop n)) (old.length - n) = .ok s ∧
      w = filled (old.take n ++ newKey key value ++ s) ∧
      (old.take n ++ newKey key value ++ s).length < maxFileSize := by
  have htake : (old.take n).length = n := by rw [List.length_take, Nat.min_eq_left hle]
  rw [newText, if_neg hsec, if_pos hkey, hn] at h
  dsimp only at h
  rw [Int.toNat_natCast, blit_take hlen hle] at h
  obtain ⟨v, hv, h⟩ := bind_eq_ok.mp h
  obtain rfl := Except.ok.inj hv
  obtain ⟨v, hv, h⟩ := bind_eq_ok.mp h
  have hv' : blit (filled (old.take n)) (old.take n).length (newKey key value ++ [0]) = .ok v := by
    rw [htake]
    exact hv
  obtain ⟨rfl, hlt⟩ := blit_string (by omega) hv'
  obtain ⟨s, hs, h⟩ := bind_eq_ok.mp h
  have hpos : n + key.length + value.length + 2 = (old.take n ++ newKey key value).length := by
    rw [List.length_append, htake, newKey]
    simp only [List.length_append, List.length_cons, List.length_nil]
    omega
  rw [hpos] at h
  exact ⟨s, hs, blit_string hlt.le h⟩

/-- Behind a header that the end of the text cuts off, the new key comes after the NUL. -/
theorem newText_lost (hsec : f.secS ≠ -1) (hkey : f.keyS = -1) (hold : 0 ∉ old)
    (hlen : old.length + 1 < maxFileSize) (hn : f.secE = (old.length + 1 : ℕ))
    (h : newText conv sect key value (filled old) old.length f = .ok w) : strOf w = old := by
  have htake : (filled old).take (old.length + 1) = old ++ [0] := by
    rw [filled_end (by omega), List.take_append, List.take_of_length_le (by omega),
      Nat.add_sub_cancel_left]
    rfl
  have hone : (old ++ [0]).length = old.length + 1 := by simp
  rw [newText, if_neg hsec, if_pos hkey, hn] at h
  dsimp only at h
  rw [Int.toNat_natCast, htake] at h
  rw [blit_empty (by rw [hone]; omega)] at h
  obtain ⟨v, hv, h⟩ := bind_eq_ok.mp h
  obtain rfl := Except.ok.inj hv
  obtain ⟨v, hv, h⟩ := bind_eq_ok.mp h
  have hv' : blit (filled (old ++ [0])) (old ++ [0]).length (newKey key value ++ [0]) = .ok v := by
    rw [hone]
    exact hv
  obtain ⟨rfl, hlt⟩ := blit_string (by omega) hv'
  obtain ⟨s, -, h⟩ := bind_eq_ok.mp h
  have hpos : old.length + 1 + key.length + value.length + 2 =
      (old ++ [0] ++ newKey key value).length := by
    rw [List.length_append, hone, newKey]
    simp only [List.length_append, List.length_cons, List.length_nil]
    omega
  rw [hpos] at h
  obtain ⟨rfl, -⟩ := blit_string hlt.le h
  rw [filled, List.append_assoc, List.append_assoc, List.append_assoc, strOf_append hold]
  simp

/-- With the key, the value is replaced. -/
theorem newText_replace {a s b : List UInt8} (hsec : f.secS ≠ -1) (hkey : f.keyS ≠ -1)
    (hold : old = a ++ (s ++ b)) (hvs : f.valueS = a.length)
    (hve : f.valueE = (a.length + s.length : ℕ)) (hlen : old.length < maxFileSize)
    (hnew : (a ++ (value ++ b)).length < maxFileSize)
    (h : newText conv sect key value (filled old) old.length f = .ok w) :
    w = filled (a ++ (value ++ b)) := by
  have htake : old.take a.length = a := by rw [hold, List.take_left]
  have hdrop : ((filled old).drop (a.length + s.length)).take (old.length - (a.length + s.length)) =
      b := by
    have hassoc : filled old = a ++ s ++ (b ++ List.replicate (maxFileSize - old.length) 0) := by
      rw [filled, hold]
      simp only [List.append_assoc]
    have hrest : old.length - (a ++ s).length = b.length := by
      rw [hold]
      simp only [List.length_append]
      omega
    rw [hassoc, ← List.length_append, List.drop_left, hrest, List.take_left]
  simp only [List.length_append] at hnew
  rw [newText, if_neg hsec, if_neg hkey, hvs, hve] at h
  dsimp only at h
  rw [Int.toNat_natCast, Int.toNat_natCast, hdrop, blit_take hlen (by rw [hold]; simp), htake] at h
  obtain ⟨v, hv, h⟩ := bind_eq_ok.mp h
  obtain rfl := Except.ok.inj hv
  rw [blit_filled (by omega)] at h
  obtain ⟨v, hv, h⟩ := bind_eq_ok.mp h
  obtain rfl := Except.ok.inj hv
  rw [← List.length_append, blit_filled (by rw [List.length_append]; omega)] at h
  rw [← Except.ok.inj h, List.append_assoc]

end

end AcqBoard.Ini
