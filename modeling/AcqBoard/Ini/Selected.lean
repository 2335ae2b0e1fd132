import AcqBoard.Ini.Bounds

/-! What `read_profile_string` leaves in the buffer of its caller.

    The function has three exits and copies in two ways:

        an entry                   memcpy of what fits, and a NUL
        no entry, or no file       strncpy of the default

    `strncpy` writes no NUL if the default is as long as the buffer, so that only shorter defaults make
    a string of it. Values are cut off at the last byte. -/

namespace AcqBoard.Ini
open Schemes

/-- The text between the offsets of a value. -/
def Spans.value (f : Spans) (buf : List UInt8) : List UInt8 :=
  (buf.drop f.valueS.toNat).take (f.valueE - f.valueS).toNat

/-- What the function is to deliver, by what it returns. -/
def Selects (sect key d : List UInt8) (file : File) : Bool → List UInt8 → Prop
  | true, text => ∃ buf size f, loadIniFile file = .ok (some (buf, size)) ∧
      parseFile sect key buf = .ok (true, f) ∧ text = f.value buf
  | false, text => text = d

/-- The buffer holds a string, and that is as much of the selected text as fits. -/
def Truncates (sect key value d : List UInt8) (file : File) : Prop :=
  ∃ found out text, readProfileString sect key value (some d) file = .ok (found, out) ∧
    Selects sect key d file found text ∧
      out.length = value.length ∧ 0 ∈ out ∧ strOf out = text.take (value.length - 1)

/-- When the buffer gets its string: the text of the file has an entry, or the default is shorter than
    the buffer and the scanner does not leave its own. -/
def Delivers (sect key value d : List UInt8) : File → Prop
  | none => d.length < value.length
  | some bytes =>
    let s := bytes.takeWhile (· ≠ eof)
    HasMatch sect key s ∨
      d.length < value.length ∧ Stays sect key s

section
variable {sect key value d bytes buf s : List UInt8} {size : ℕ} {f : Spans} {its : List Item}

/-! ### The copies -/

theorem length_strncpy (value d : List UInt8) : (strncpy value d).length = value.length := by
  rw [strncpy, List.length_take, List.length_append, List.length_replicate]
  omega

/-- `strncpy` of a string that is shorter than the buffer. -/
theorem strncpy_short (hd : 0 ∉ d) (h : d.length < value.length) :
    0 ∈ strncpy value d ∧ strOf (strncpy value d) = d.take (value.length - 1) := by
  obtain ⟨n, hn⟩ : ∃ n, value.length - d.length = n + 1 := ⟨value.length - d.length - 1, by omega⟩
  have hcopy : strncpy value d = d ++ List.replicate (n + 1) 0 := by
    rw [strncpy, List.take_append, List.take_of_length_le h.le, hn, List.take_replicate,
      Nat.min_eq_left (by omega)]
  rw [hcopy]
  refine ⟨List.mem_append_right d (List.mem_replicate.mpr ⟨Nat.succ_ne_zero n, rfl⟩), ?_⟩
  rw [strOf_append hd, strOf_replicate, List.append_nil, List.take_of_length_le (by omega)]

/-- `strncpy` of a longer one writes no NUL. -/
theorem strncpy_long (hd : 0 ∉ d) (h : value.length ≤ d.length) : 0 ∉ strncpy value d := by
  rw [strncpy, List.take_append_of_le_length h]
  exact fun hz => hd (List.mem_of_mem_take hz)

/-- `memset` and `memcpy` of what fits. -/
theorem copied_value (hs : 0 ∉ s) (hv : value ≠ []) :
    let t := s.take (value.length - 1)
    let out := t ++ List.replicate (value.length - t.length) 0
    out.length = value.length ∧ 0 ∈ out ∧ strOf out = t := by
  intro t out
  have hpos : 0 < value.length := List.length_pos_iff.mpr hv
  have hlen : t.length ≤ value.length - 1 := List.length_take_le _ _
  have hz : 0 ∉ t := fun h => hs (List.mem_of_mem_take h)
  refine ⟨?_, List.mem_append_right t (List.mem_replicate.mpr ⟨by omega, rfl⟩), ?_⟩
  · rw [List.length_append, List.length_replicate]
    omega
  · rw [strOf_append hz, strOf_replicate, List.append_nil]

/-! ### The exits -/

theorem readProfileString_none (hs : sect ≠ []) (hk : key ≠ []) (hv : value ≠ []) :
    readProfileString sect key value (some d) none = .ok (false, strncpy value d) := by
  rw [readProfileString, if_neg (by simp [hs, hk, hv])]
  rfl

theorem readProfileString_false (hs : sect ≠ []) (hk : key ≠ []) (hv : value ≠ [])
    (hload : loadIniFile (some bytes) = .ok (some (buf, size)))
    (hp : parseFile sect key buf = .ok (false, f)) :
    readProfileString sect key value (some d) (some bytes) = .ok (false, strncpy value d) := by
  rw [readProfileString, if_neg (by simp [hs, hk, hv]), hload]
  simp only [bind, Except.bind, hp]
  rfl

theorem readProfileString_true (hs : sect ≠ []) (hk : key ≠ []) (hv : value ≠ [])
    (hload : loadIniFile (some bytes) = .ok (some (buf, size)))
    (hp : parseFile sect key buf = .ok (true, f)) (hf : f.valueS ≤ f.valueE) :
    readProfileString sect key value (some d) (some bytes) =
      let t := (f.value buf).take (value.length - 1)
      .ok (true, t ++ List.replicate (value.length - t.length) 0) := by
  have hpos : 0 < value.length := List.length_pos_iff.mpr hv
  have hcount : (min (f.valueE - f.valueS) (value.length - 1)).toNat =
      min (value.length - 1) (f.valueE - f.valueS).toNat := by omega
  rw [readProfileString, if_neg (by simp [hs, hk, hv]), hload]
  simp only [bind, Except.bind, hp, if_true, hcount, Spans.value, List.take_take]
  rfl

/-- A parse that leaves the buffer. -/
theorem readProfileString_error (hload : loadIniFile (some bytes) = .ok (some (buf, size)))
    (hp : ∀ r, parseFile sect key buf ≠ .ok r) (r : Bool × List UInt8) :
    readProfileString sect key value (some d) (some bytes) ≠ .ok r := by
  intro h
  rw [readProfileString] at h
  split at h
  · cases h
  · rw [hload] at h
    cases hparse : parseFile sect key buf with
    | error e =>
      simp only [bind, Except.bind, hparse] at h
      cases h
    | ok r' => exact hp r' hparse

/-! ### What is delivered -/

/-- Both paths without an entry end in the same copy. -/
theorem truncates_false {file : File} (hd : 0 ∉ d)
    (h : readProfileString sect key value (some d) file = .ok (false, strncpy value d)) :
    Truncates sect key value d file ↔ d.length < value.length := by
  constructor
  · rintro ⟨found, out, text, hread, -, -, hz, -⟩
    rw [h] at hread
    obtain ⟨-, rfl⟩ := Prod.mk.inj (Except.ok.inj hread)
    by_contra hno
    exact strncpy_long hd (Nat.le_of_not_lt hno) hz
  · intro hlt
    obtain ⟨hz, hstr⟩ := strncpy_short hd hlt
    exact ⟨false, _, d, h, rfl, length_strncpy value d, hz, hstr⟩

/-- The path with an entry. -/
theorem truncates_true (hs : sect ≠ []) (hk : key ≠ []) (hv : value ≠ [])
    (hload : loadIniFile (some bytes) = .ok (some (filled s, s.length)))
    (hlen : s.length < maxFileSize) (hm : HasMatch sect key s) :
    Truncates sect key value d (some bytes) := by
  obtain ⟨its, hits, hb, hverdict⟩ := hm
  obtain ⟨f, hr⟩ := hasMatch_walk hverdict
  have hp := parseFile_stops hs hk hits hr (List.replicate (maxFileSize - s.length - 1) 0)
  obtain ⟨a, t, b, hsplit, hz, hvs, hve⟩ := value_of_error kept_start hits hr
  have hlast := filled_items hlen hb
  rw [← hlast] at hp
  rw [hsplit, List.append_assoc, List.append_assoc] at hlast
  dsimp only at hvs hve
  have hvalue : f.value (filled s) = t := by
    have hcount : (f.valueE - f.valueS).toNat = t.length := by omega
    have hstart : f.valueS.toNat = a.length := by omega
    rw [Spans.value, hcount, hstart, hlast, List.drop_left, List.take_left]
  have hread := readProfileString_true (d := d) hs hk hv hload hp (by omega)
  rw [hvalue] at hread
  obtain ⟨hout, hnul, hstr⟩ := copied_value hz hv
  exact ⟨true, _, t, hread, ⟨_, _, f, hload, hp, hvalue.symm⟩, hout, hnul, hstr⟩

/-- CORRECT: the buffer gets the selected text, cut off at its last byte, exactly if the file has an
    entry, or the default is shorter than the buffer and the scanner comes back. -/
theorem readProfileString_truncates_iff {file : File} {loaded : Option (List UInt8 × ℕ)}
    (hs : sect ≠ []) (hk : key ≠ []) (hv : value ≠ []) (hd : 0 ∉ d)
    (hload : loadIniFile file = .ok loaded) :
    Truncates sect key value d file ↔ Delivers sect key value d file := by
  cases file with
  | none => exact truncates_false hd (readProfileString_none hs hk hv)
  | some bytes =>
    obtain ⟨l, hl, hpair⟩ := bind_eq_ok.mp hload
    obtain rfl := Except.ok.inj hpair
    obtain ⟨hbuf, hsize, hlen⟩ := loadIniFile_ok hload
    rw [hbuf, hsize] at hload
    rw [Delivers]
    generalize bytes.takeWhile (· ≠ eof) = s at hload hlen ⊢
    rcases Classical.em (HasMatch sect key s) with hm | hm
    · exact iff_of_true (truncates_true hs hk hv hload hlen hm) (Or.inl hm)
    rcases Classical.em (Stays sect key s) with hstays | hleaves
    · obtain ⟨f, hp⟩ := parseFile_missing hs hk hlen hm hstays
      rw [truncates_false hd (readProfileString_false hs hk hv hload hp)]
      exact ⟨fun h => Or.inr ⟨h, hstays⟩, fun h => (h.resolve_left hm).1⟩
    · refine iff_of_false ?_ fun h => hleaves (h.resolve_left hm).2
      rintro ⟨found, out, text, hread, -⟩
      exact readProfileString_error hload (fun r hr => hleaves (stays_of_parse hs hk hlen hr)) _ hread

/-- A default of two bytes in a buffer of three. -/
theorem readProfileString_truncates_default :
    Truncates (ascii "a") (ascii "k") [1, 1, 1] (ascii "no") none :=
  (readProfileString_truncates_iff (by decide) (by decide) (by decide) (by decide) rfl).mpr
    (show (ascii "no").length < 3 by decide)

/-- In a buffer of two there is no NUL behind it. -/
theorem readProfileString_unterminated :
    ¬ Truncates (ascii "a") (ascii "k") [1, 1] (ascii "no") none := by
  rintro ⟨found, out, text, hread, -, -, hz, -⟩
  obtain ⟨-, rfl⟩ := Prod.mk.inj (Except.ok.inj hread)
  exact absurd hz (by decide)

end

end AcqBoard.Ini
