import AcqBoard.App.Limits
import AcqBoard.App.Settings

/-! `Configuration()` from its file.

    Whether it runs to its end is decided in two places. The scanner of `inifile.c` is called for
    twelve keys, and leaves its buffer on a file that fills it and has no entry for one of them. What it
    reads goes unchecked into array indices, a loop bound and a divisor. -/

namespace AcqBoard.App
open Schemes

/-- `Configuration()` with the file it reads. -/
def configurationIni (b : Board) (file : Ini.File) (uiSeconds : UInt32) (bitBuff : ℕ → UInt8) :
    Except (Ini.Fault ⊕ Fault) Board := do
  let p ← (readProfile file b.sdDataDir).mapError .inl
  (configuration b p uiSeconds bitBuff).mapError .inr

/-- The scanner stays in its buffer for every key that `Configuration` reads. -/
def SettingsStay (file : Ini.File) : Prop :=
  ∀ key ∈ settingKeys, Ini.FileStays coinfiguration (ascii key) file

/-! ### The reads -/

section
variable {file : Ini.File} {loaded : Option (List UInt8 × ℕ)}
  (hload : Ini.loadIniFile file = .ok loaded)
include hload

theorem readSetting_returns {key : String} (hkey : ascii key ≠ []) :
    (∃ x, readSetting key file = .ok x) ↔ Ini.FileStays coinfiguration (ascii key) file :=
  Ini.readProfileInt_returns (by decide) hkey hload

theorem readDirectory_returns (dir : DataDir) : (∃ d, readDirectory file dir = .ok d) ↔
    Ini.FileStays coinfiguration (ascii "DataDirectory") file := by
  have hlen : dir.buffer.length = 64 := by
    have hfits := dir.fits
    rw [DataDir.buffer, List.length_append, List.length_replicate]
    omega
  have hbuf : dir.buffer ≠ [] := List.ne_nil_of_length_pos (by omega)
  rw [← Ini.readProfileString_returns none (by decide) (by decide) hbuf hload]
  constructor
  · rintro ⟨d, hd⟩
    obtain ⟨r, hr, -⟩ := bind_eq_ok.mp hd
    exact ⟨r, hr⟩
  · rintro ⟨⟨found, value⟩, hr⟩
    cases found with
    | false => exact ⟨none, bind_eq_ok.mpr ⟨_, hr, rfl⟩⟩
    | true =>
      have hends := Ini.readProfileString_ends hr
      rw [hlen] at hends
      refine ⟨some ⟨Ini.strOf value, hends, Ini.zero_notMem_strOf value⟩,
        bind_eq_ok.mpr ⟨_, hr, ?_⟩⟩
      change (DataDir.ofBuffer value).map some = _
      rw [DataDir.ofBuffer, dif_pos hends]
      rfl

/-- All reads return exactly if the scanner stays in its buffer for every key. -/
theorem readProfile_returns (dir : DataDir) :
    (∃ p, readProfile file dir = .ok p) ↔ SettingsStay file := by
  have hkey : ∀ key ∈ settingKeys, ascii key ≠ [] := by decide
  rw [SettingsStay]
  simp only [settingKeys, List.forall_mem_cons, List.not_mem_nil, false_imp_iff, implies_true,
    and_true] at hkey ⊢
  obtain ⟨k₁, k₂, k₃, k₄, k₅, k₆, k₇, k₈, k₉, k₁₀, k₁₁, -⟩ := hkey
  unfold readProfile
  refine bind_returns_iff (readSetting_returns hload k₁) fun _ => ?_
  refine bind_returns_iff (readSetting_returns hload k₂) fun _ => ?_
  refine bind_returns_iff (readSetting_returns hload k₃) fun _ => ?_
  refine bind_returns_iff (readSetting_returns hload k₄) fun _ => ?_
  refine bind_returns_iff (readSetting_returns hload k₅) fun _ => ?_
  refine bind_returns_iff (readSetting_returns hload k₆) fun _ => ?_
  refine bind_returns_iff (readSetting_returns hload k₇) fun _ => ?_
  refine bind_returns_iff (readSetting_returns hload k₈) fun _ => ?_
  refine bind_returns_iff (readSetting_returns hload k₉) fun _ => ?_
  refine bind_returns_iff (readSetting_returns hload k₁₀) fun _ => ?_
  refine bind_returns_iff (readSetting_returns hload k₁₁) fun _ => ?_
  exact (bind_returns_iff (readDirectory_returns hload dir) fun _ => iff_true_intro ⟨_, rfl⟩).trans
    (and_iff_left trivial)

/-- CORRECT (`Configuration`): on every board, with every file that is loaded and at every time, it runs
    to its end exactly if the scanner stays in its buffer for the twelve keys and what is read is in
    bounds. -/
theorem configuration_defined (b : Board) (uiSeconds : UInt32) (bitBuff : ℕ → UInt8) :
    (∃ c, configurationIni b file uiSeconds bitBuff = .ok c) ↔
      SettingsStay file ∧ ∀ p, readProfile file b.sdDataDir = .ok p →
        InBounds (p.dataDirectory.getD b.sdDataDir) p := by
  rw [← readProfile_returns hload b.sdDataDir]
  constructor
  · rintro ⟨c, h⟩
    obtain ⟨p, hp, h⟩ := bind_eq_ok.mp h
    have hread := mapError_eq_ok.mp hp
    refine ⟨⟨p, hread⟩, fun q hq => ?_⟩
    obtain rfl := Except.ok.inj (hread.symm.trans hq)
    exact (configuration_iff_inBounds b p uiSeconds bitBuff).mp ⟨c, mapError_eq_ok.mp h⟩
  · rintro ⟨⟨p, hp⟩, hbounds⟩
    obtain ⟨c, hc⟩ := (configuration_iff_inBounds b p uiSeconds bitBuff).mpr (hbounds p hp)
    exact ⟨c, bind_eq_ok.mpr ⟨p, mapError_eq_ok.mpr hp, mapError_eq_ok.mpr hc⟩⟩

end

/-! ### Two files -/

/-- A file with a directory and the code exponent `n`, at 78.125 kHz and no impulse width. -/
def lengthFile (n : Int32) : Ini.Document where
  tokens := [.header coinfiguration, .line [] (byte '\n'),
    .line (ascii "DataDirectory" ++ byte '=' :: ascii "DATA") (byte '\n'),
    .line (ascii "SequenceLength" ++ byte '=' :: (decimalChars n).bytes) (byte '\n')]
  tail := .line []

section
variable (n : Int32)

theorem valid_lengthFile : (lengthFile n).Valid := by
  have hname : ∀ b ∈ coinfiguration, b ≠ byte ']' ∧ b ≠ 0 := by decide +kernel
  have hkey : ∀ b ∈ ascii "SequenceLength", Ini.newline b = false ∧ b ≠ 0 := by decide +kernel
  have heq : Ini.newline (byte '=') = false ∧ byte '=' ≠ 0 := by decide
  have hempty : Ini.Plain false [] := ⟨by simp, by simp⟩
  have hdir : Ini.Plain true (ascii "DataDirectory" ++ byte '=' :: ascii "DATA") :=
    ⟨by decide +kernel, fun _ => by decide⟩
  have hlength : Ini.Plain true
      (ascii "SequenceLength" ++ byte '=' :: (decimalChars n).bytes) := by
    refine ⟨List.forall_mem_append.mpr ⟨hkey, List.forall_mem_cons.mpr
      ⟨heq, (decimalChars n).plain⟩⟩, fun _ => ?_⟩
    change some (byte 'S') ≠ some (byte '[')
    decide
  exact ⟨⟨⟨rfl, hname⟩, ⟨rfl, hempty⟩, ⟨rfl, hdir⟩, ⟨rfl, hlength⟩, trivial⟩, by simp, by simp⟩

theorem table_lengthFile : (lengthFile n).table =
    [(setting "DataDirectory", ascii "DATA"), (setting "SequenceLength", (decimalChars n).bytes)] := by
  have hdir := Ini.entryOf_entry coinfiguration (k := ascii "DataDirectory") (by decide) (by decide)
    (by decide) (ascii "DATA")
  have hlength := Ini.entryOf_entry coinfiguration (k := ascii "SequenceLength") (by decide) (by decide)
    (by decide) (decimalChars n).bytes
  have hempty : Ini.entryOf (some coinfiguration) [] = none := Ini.entryOf_none (by simp)
  have hlines : (lengthFile n).lines = (lengthFile n).tokens ++ [.line [] (byte '\n')] := rfl
  rw [Ini.Document.table, hlines]
  simp only [lengthFile, List.cons_append, List.nil_append, Ini.tableOf, hdir, hlength, hempty]
  rfl

/-- The file is loaded, and read as it says. -/
theorem hasTable_lengthFile : (∃ loaded, Ini.loadIniFile (some (lengthFile n).bytes) = .ok loaded) ∧
    Ini.HasTable (some (lengthFile n).bytes)
      [(setting "DataDirectory", ascii "DATA"), (setting "SequenceLength", (decimalChars n).bytes)] := by
  have hbytes : (lengthFile n).bytes = ascii "[Coinfiguration]\nDataDirectory=DATA\nSequenceLength=" ++
      decimal n.toInt ++ ascii "\n" := by
    simp [Ini.Document.bytes, lengthFile, Ini.bytesOf, Ini.Token.bytes, Ini.Tail.bytes, decimalChars,
      coinfiguration, ascii]
  have heof : Ini.eof ∉ (lengthFile n).bytes := by
    rw [hbytes, List.mem_append, List.mem_append, not_or, not_or]
    exact ⟨⟨by decide, not_mem_decimal (by decide) (by decide)⟩, by decide⟩
  have hlen : (lengthFile n).bytes.length < Ini.maxFileSize := by
    have hdigits := Ini.length_decimal n
    have hhead : (ascii "[Coinfiguration]\nDataDirectory=DATA\nSequenceLength=").length = 51 := by decide
    have hlast : (ascii "\n").length = 1 := rfl
    rw [hbytes, List.length_append, List.length_append, hhead, hlast, Ini.maxFileSize]
    omega
  have hall := Ini.takeWhile_eof_self heof
  refine ⟨⟨_, Ini.loadIniFile_eq (by rw [hall]; exact hlen)⟩, ?_⟩
  rw [← table_lengthFile n]
  refine Ini.Document.hasTable (valid_lengthFile n) ?_ hall hlen fun h => absurd rfl h
  have hdir : Ini.Flush (ascii "DataDirectory" ++ byte '=' :: ascii "DATA") := by
    intro b hb
    obtain rfl : byte 'D' = b := Option.some.inj hb
    decide
  have hlength : Ini.Flush (ascii "SequenceLength" ++ byte '=' :: (decimalChars n).bytes) := by
    intro b hb
    obtain rfl : byte 'S' = b := Option.some.inj hb
    decide
  intro t ht
  simp only [Ini.Document.lines, lengthFile, Ini.Tail.lines, List.cons_append, List.nil_append,
    List.mem_cons, List.not_mem_nil, or_false] at ht
  rcases ht with rfl | rfl | rfl | rfl | rfl
  · trivial
  · exact Ini.flush_nil
  · exact hdir
  · exact hlength
  · exact Ini.flush_nil

/-- What `Configuration` reads from it. -/
theorem readProfile_lengthFile (dir : DataDir) : ∃ p d,
    readProfile (some (lengthFile n).bytes) dir = .ok p ∧ p.dataDirectory = some d ∧ d.bytes ≠ [] ∧
      p.sequenceLength = n ∧ p.adcSamplingRates = 0 ∧ p.impulseWidth = 0 := by
  refine ⟨_, ⟨ascii "DATA", by decide, by decide⟩, readProfile_table (hasTable_lengthFile n).2 dir, rfl,
    by decide, ?_, rfl, rfl⟩
  have hlen := Ini.length_decimal n
  have hzero : 0 ∉ decimal n.toInt := not_mem_decimal (by decide) (by decide)
  change Ini.atoi (Ini.strOf ((decimal n.toInt).take 31)) = n
  rw [List.take_of_length_le (by omega), Ini.strOf_of_notMem hzero, Ini.atoi_decimal]

end

/-- A code exponent of 1. -/
theorem configuration_defined_one : ∃ c,
    configurationIni benchBoard (some (lengthFile 1).bytes) 0 (fun _ => 0) = .ok c := by
  obtain ⟨loaded, hload⟩ := (hasTable_lengthFile 1).1
  obtain ⟨p, d, hp, hdir, hne, hlength, hrate, hwidth⟩ := readProfile_lengthFile 1 benchBoard.sdDataDir
  refine (configuration_defined hload benchBoard 0 fun _ => 0).mpr
    ⟨(readProfile_returns hload _).mp ⟨p, hp⟩, ?_⟩
  intro q hq
  obtain rfl := Except.ok.inj (hp.symm.trans hq)
  rw [hdir]
  exact ⟨hne, by rw [hrate]; decide, by rw [hlength]; decide, by rw [hlength, hwidth]; decide⟩

/-- A code exponent of 12, which `GetLfsrUint` refuses: the copy loop still runs over 128 words. -/
theorem configuration_reads_past_table : ¬ ∀ (b : Board) (file : Ini.File)
    (loaded : Option (List UInt8 × ℕ)) (uiSeconds : UInt32) (bitBuff : ℕ → UInt8),
    Ini.loadIniFile file = .ok loaded → ∃ c, configurationIni b file uiSeconds bitBuff = .ok c := by
  intro h
  obtain ⟨loaded, hload⟩ := (hasTable_lengthFile 12).1
  obtain ⟨p, d, hp, -, -, hlength, -⟩ := readProfile_lengthFile 12 benchBoard.sdDataDir
  obtain ⟨c, hc⟩ := h benchBoard _ loaded 0 (fun _ => 0) hload
  obtain ⟨q, hq, hc⟩ := bind_eq_ok.mp hc
  obtain rfl := Except.ok.inj (hp.symm.trans (mapError_eq_ok.mp hq))
  have hbounds := (inBounds_of_ok (mapError_eq_ok.mp hc)).length
  rw [hlength] at hbounds
  exact absurd hbounds (by decide)

end AcqBoard.App
