import AcqBoard.App.Handlers
import AcqBoard.Ini.Numbers

/-! The settings of an acquisition in `Configuration.ini`.

    `Configuration` reads eleven integers and a directory from one section of the file. This module
    reads them through `inifile.c` as it is, and shows that whatever was saved last is what an
    acquisition starts with. -/

namespace AcqBoard.App
open Schemes

/-! ### What `Configuration` reads -/

/-- The section of the settings. -/
def coinfiguration : List UInt8 := ascii "Coinfiguration"

/-- The names of a setting. -/
def setting (key : String) : Ini.Names := ⟨coinfiguration, ascii key⟩

def readSetting (key : String) (file : Ini.File) : Except Ini.Fault Int32 :=
  Ini.readProfileInt coinfiguration (ascii key) 0 file

/-- The string in `s_SdDataDIR`, if it ends inside its 64 bytes. -/
def DataDir.ofBuffer (s : List UInt8) : Except Ini.Fault DataDir :=
  if h : (Ini.strOf s).length < 64 then .ok ⟨Ini.strOf s, h, Ini.zero_notMem_strOf s⟩
  else .error .overrun

/-- `DataDirectory` is read over the string that is there. -/
def readDirectory (file : Ini.File) (sSdDataDIR : DataDir) : Except Ini.Fault (Option DataDir) := do
  let (diReadCheck, value) ←
    Ini.readProfileString coinfiguration (ascii "DataDirectory") sSdDataDIR.buffer none file
  if diReadCheck then (DataDir.ofBuffer value).map some else pure none

/-- The reads of `Configuration`, in its order. -/
def readProfile (file : Ini.File) (sSdDataDIR : DataDir) : Except Ini.Fault Profile := do
  let workMode ← readSetting "WorkMode" file
  let syncMode ← readSetting "SyncMode" file
  let fullScalRange ← readSetting "FullScalRange" file
  let lpfFilter ← readSetting "LpfFilter" file
  let inputSource ← readSetting "InputSource" file
  let impulseWidth ← readSetting "ImpulseWidth" file
  let adcSamplingRates ← readSetting "AdcSamplingRates" file
  let sequenceLength ← readSetting "SequenceLength" file
  let generationPolymerization ← readSetting "GenerationPolymerization" file
  let initialValue ← readSetting "InitialValue" file
  let savePosition ← readSetting "SavePosition" file
  let dataDirectory ← readDirectory file sSdDataDIR
  pure { workMode, syncMode, fullScalRange, lpfFilter, inputSource, impulseWidth, adcSamplingRates,
         sequenceLength, generationPolymerization, initialValue, savePosition, dataDirectory }

/-- The integers of a profile under their keys. -/
def Profile.ints (p : Profile) : List (String × Int32) :=
  [("WorkMode", p.workMode), ("SyncMode", p.syncMode), ("FullScalRange", p.fullScalRange),
    ("LpfFilter", p.lpfFilter), ("InputSource", p.inputSource), ("ImpulseWidth", p.impulseWidth),
    ("AdcSamplingRates", p.adcSamplingRates), ("SequenceLength", p.sequenceLength),
    ("GenerationPolymerization", p.generationPolymerization), ("InitialValue", p.initialValue),
    ("SavePosition", p.savePosition)]

/-- `AcqStart` with the file it reads. -/
def acqStartIni (b : Board) (file : Ini.File) (uiSeconds : UInt32) (bitBuff : ℕ → UInt8) :
    Except (Ini.Fault ⊕ Fault) Board := do
  let p ← (readProfile file b.sdDataDir).mapError .inl
  (acqStart b p uiSeconds bitBuff).mapError .inr

/-! ### The profile of a table -/

def tableInt (m : Ini.Table) (key : String) : Int32 :=
  match firstBelow m (setting key) with
  | some v => Ini.atoi (Ini.strOf (v.take 31))
  | none => 0

theorem length_strOf_take (v : List UInt8) : (Ini.strOf (v.take 63)).length < 64 := by
  have hle : (Ini.strOf (v.take 63)).length ≤ (v.take 63).length :=
    (List.takeWhile_prefix _).length_le
  rw [List.length_take] at hle
  omega

def tableDir (m : Ini.Table) : Option DataDir :=
  (firstBelow m (setting "DataDirectory")).map fun v =>
    ⟨Ini.strOf (v.take 63), length_strOf_take v, Ini.zero_notMem_strOf _⟩

def Profile.ofTable (m : Ini.Table) : Profile where
  workMode := tableInt m "WorkMode"
  syncMode := tableInt m "SyncMode"
  fullScalRange := tableInt m "FullScalRange"
  lpfFilter := tableInt m "LpfFilter"
  inputSource := tableInt m "InputSource"
  impulseWidth := tableInt m "ImpulseWidth"
  adcSamplingRates := tableInt m "AdcSamplingRates"
  sequenceLength := tableInt m "SequenceLength"
  generationPolymerization := tableInt m "GenerationPolymerization"
  initialValue := tableInt m "InitialValue"
  savePosition := tableInt m "SavePosition"
  dataDirectory := tableDir m

section
variable {file : Ini.File} {m : Ini.Table} (h : Ini.HasTable file m)
include h

theorem readSetting_table {key : String} (hkey : ascii key ≠ []) :
    readSetting key file = .ok (tableInt m key) := by
  have hsect : coinfiguration ≠ [] := by decide
  exact Ini.readProfileInt_table h (x := setting key) hsect hkey 0

theorem readDirectory_table (dir : DataDir) : readDirectory file dir = .ok (tableDir m) := by
  have hlen : dir.buffer.length = 64 := by
    have hfits := dir.fits
    rw [DataDir.buffer, List.length_append, List.length_replicate]
    omega
  have hne : ¬ (coinfiguration = [] ∨ ascii "DataDirectory" = [] ∨ dir.buffer = []) := by
    rintro (h | h | h)
    · exact absurd h (by decide)
    · exact absurd h (by decide)
    · rw [h] at hlen
      cases hlen
  unfold readDirectory tableDir setting
  rw [h]
  unfold Ini.readTable
  rw [if_neg hne]
  cases firstBelow m ⟨coinfiguration, ascii "DataDirectory"⟩ with
  | none => rfl
  | some v =>
    change (DataDir.ofBuffer (Ini.copied dir.buffer.length v)).map some = _
    have hstr := Ini.strOf_copied v 64
    rw [hlen, DataDir.ofBuffer, dif_pos (by rw [hstr]; exact length_strOf_take v)]
    simp only [hstr, Except.map, Option.map_some]

/-- A file is read by its table. -/
theorem readProfile_table (dir : DataDir) : readProfile file dir = .ok (Profile.ofTable m) := by
  unfold readProfile
  rw [readSetting_table h (by decide), readSetting_table h (by decide),
    readSetting_table h (by decide), readSetting_table h (by decide),
    readSetting_table h (by decide), readSetting_table h (by decide),
    readSetting_table h (by decide), readSetting_table h (by decide),
    readSetting_table h (by decide), readSetting_table h (by decide),
    readSetting_table h (by decide), readDirectory_table h dir]
  rfl

end

/-! ### What saves make of a profile -/

section
variable (ss : List Ini.Save)

/-- An integer setting after the saves. -/
def savedInt (key : String) (x : Int32) : Int32 :=
  match Ini.lastSaved (setting key) ss with
  | some v => Ini.atoi (v.take 31)
  | none => x

/-- The directory after the saves. -/
def savedDir (dir : Option DataDir) : Option DataDir :=
  match h : Ini.lastSaved (setting "DataDirectory") ss with
  | some v => some ⟨v.take 63, by simp, fun h₀ => Ini.lastSaved_zero h (List.mem_of_mem_take h₀)⟩
  | none => dir

def Profile.saved (p : Profile) : Profile where
  workMode := savedInt ss "WorkMode" p.workMode
  syncMode := savedInt ss "SyncMode" p.syncMode
  fullScalRange := savedInt ss "FullScalRange" p.fullScalRange
  lpfFilter := savedInt ss "LpfFilter" p.lpfFilter
  inputSource := savedInt ss "InputSource" p.inputSource
  impulseWidth := savedInt ss "ImpulseWidth" p.impulseWidth
  adcSamplingRates := savedInt ss "AdcSamplingRates" p.adcSamplingRates
  sequenceLength := savedInt ss "SequenceLength" p.sequenceLength
  generationPolymerization := savedInt ss "GenerationPolymerization" p.generationPolymerization
  initialValue := savedInt ss "InitialValue" p.initialValue
  savePosition := savedInt ss "SavePosition" p.savePosition
  dataDirectory := savedDir ss p.dataDirectory

/-- Every setting of the profile was saved, as `%d` prints it. -/
structure Profile.SavedBy (p : Profile) : Prop where
  ints : ∀ k ∈ p.ints, Ini.lastSaved (setting k.1) ss = some (decimal k.2.toInt)
  dir : ∃ d, p.dataDirectory = some d ∧ Ini.lastSaved (setting "DataDirectory") ss = some d.bytes

end

section
variable {ss : List Ini.Save} {file file' : Ini.File}

theorem savedInt_decimal {key : String} {x : Int32}
    (h : Ini.lastSaved (setting key) ss = some (decimal x.toInt)) (y : Int32) :
    savedInt ss key y = x := by
  have hlen := Ini.length_decimal x
  simp only [savedInt, h]
  rw [List.take_of_length_le (by omega), Ini.atoi_decimal]

theorem savedDir_bytes {d : DataDir}
    (h : Ini.lastSaved (setting "DataDirectory") ss = some d.bytes) (dir : Option DataDir) :
    savedDir ss dir = some d := by
  have hlen := d.fits
  unfold savedDir
  split
  · rename_i v hv
    obtain rfl := Option.some.inj (hv.symm.trans h)
    cases d
    simp only [Option.some.injEq, DataDir.mk.injEq]
    exact List.take_of_length_le (by dsimp only at hlen ⊢; omega)
  · rename_i hv
    rw [h] at hv
    cases hv

/-- A profile that was saved is what there is afterwards, whatever there was before. -/
theorem Profile.SavedBy.saved_eq {q : Profile} (h : q.SavedBy ss) (p : Profile) : p.saved ss = q := by
  obtain ⟨hints, d, hdir, hd⟩ := h
  have hint : ∀ key x y, (key, x) ∈ q.ints → savedInt ss key y = x :=
    fun key x y hin => savedInt_decimal (hints (key, x) hin) y
  cases q
  simp only [Profile.saved, Profile.mk.injEq]
  refine ⟨hint _ _ _ ?_, hint _ _ _ ?_, hint _ _ _ ?_, hint _ _ _ ?_, hint _ _ _ ?_, hint _ _ _ ?_,
    hint _ _ _ ?_, hint _ _ _ ?_, hint _ _ _ ?_, hint _ _ _ ?_, hint _ _ _ ?_, ?_⟩
  case refine_12 =>
    dsimp only at hdir
    rw [savedDir_bytes hd, hdir]
  all_goals simp [Profile.ints]

theorem tableInt_saved {m m' : Ini.Table} {key : String}
    (h : firstBelow m' (setting key) =
      (Ini.lastSaved (setting key) ss).or (firstBelow m (setting key))) :
    tableInt m' key = savedInt ss key (tableInt m key) := by
  rw [tableInt, h, savedInt]
  cases hlast : Ini.lastSaved (setting key) ss with
  | none => rfl
  | some v =>
    have hzero : 0 ∉ v.take 31 := fun h₀ => Ini.lastSaved_zero hlast (List.mem_of_mem_take h₀)
    dsimp only [Option.some_or]
    rw [Ini.strOf_of_notMem hzero]

theorem tableDir_saved {m m' : Ini.Table}
    (h : firstBelow m' (setting "DataDirectory") = (Ini.lastSaved (setting "DataDirectory") ss).or
      (firstBelow m (setting "DataDirectory"))) :
    tableDir m' = savedDir ss (tableDir m) := by
  rw [tableDir, h]
  unfold savedDir
  split
  · rename_i v hv
    have hzero : 0 ∉ v.take 63 := fun h₀ => Ini.lastSaved_zero hv (List.mem_of_mem_take h₀)
    simp only [hv, Option.some_or, Option.map_some, Ini.strOf_of_notMem hzero]
  · rename_i hv
    rw [hv, Option.none_or, tableDir]

/-- The keys that `Configuration` reads. -/
def settingKeys : List String :=
  ["WorkMode", "SyncMode", "FullScalRange", "LpfFilter", "InputSource", "ImpulseWidth",
    "AdcSamplingRates", "SequenceLength", "GenerationPolymerization", "InitialValue",
    "SavePosition", "DataDirectory"]

theorem ofTable_saved {m m' : Ini.Table} (h : ∀ key ∈ settingKeys, firstBelow m' (setting key) =
      (Ini.lastSaved (setting key) ss).or (firstBelow m (setting key))) :
    Profile.ofTable m' = (Profile.ofTable m).saved ss := by
  simp only [Profile.ofTable, Profile.saved, Profile.mk.injEq]
  refine ⟨tableInt_saved (h _ ?_), tableInt_saved (h _ ?_), tableInt_saved (h _ ?_),
    tableInt_saved (h _ ?_), tableInt_saved (h _ ?_), tableInt_saved (h _ ?_),
    tableInt_saved (h _ ?_), tableInt_saved (h _ ?_), tableInt_saved (h _ ?_),
    tableInt_saved (h _ ?_), tableInt_saved (h _ ?_), tableDir_saved (h _ ?_)⟩
  all_goals simp [settingKeys]

theorem acqStartIni_table {m : Ini.Table} (h : Ini.HasTable file m) (b : Board) (uiSeconds : UInt32)
    (bitBuff : ℕ → UInt8) : acqStartIni b file uiSeconds bitBuff =
      (acqStart b (Profile.ofTable m) uiSeconds bitBuff).mapError .inr := by
  rw [acqStartIni, readProfile_table h]
  rfl

end

/-- The text of an integer. -/
def decimalChars (x : Int32) : Ini.Chars where
  bytes := decimal x.toInt
  plain := by
    intro b hb
    have hmem : b = byte '-' ∨ isDigit b = true := by
      rcases List.mem_append.mp hb with h | h
      · split at h
        · exact Or.inl (by simpa using h)
        · cases h
      · exact Or.inr (Ini.isDigit_toDigits h)
    rcases hmem with rfl | hdigit
    · decide
    · have hplain : ∀ c, isDigit c = true → Ini.newline c = false ∧ c ≠ 0 := by
        intro c hc
        constructor
        · by_contra hnl
          rw [Bool.not_eq_false, Ini.newline, Bool.or_eq_true, decide_eq_true_eq,
            decide_eq_true_eq] at hnl
          rcases hnl with rfl | rfl
          · cases hc
          · cases hc
        · rintro rfl
          cases hc
      exact hplain b hdigit

def saveSetting (key : Ini.Key) (value : Ini.Chars) : Ini.Save :=
  ⟨⟨.ofBytes coinfiguration (by decide) (by decide), key, value⟩, true⟩

/-- `benchProfile`, setting by setting. -/
def benchSaves : List Ini.Save :=
  [saveSetting (.ofBytes (ascii "WorkMode") (by decide) (by decide) (by decide)) (decimalChars 2),
    saveSetting (.ofBytes (ascii "SyncMode") (by decide) (by decide) (by decide)) (decimalChars 0),
    saveSetting (.ofBytes (ascii "FullScalRange") (by decide) (by decide) (by decide))
      (decimalChars 3000000),
    saveSetting (.ofBytes (ascii "LpfFilter") (by decide) (by decide) (by decide)) (decimalChars 0),
    saveSetting (.ofBytes (ascii "InputSource") (by decide) (by decide) (by decide))
      (decimalChars 1),
    saveSetting (.ofBytes (ascii "ImpulseWidth") (by decide) (by decide) (by decide))
      (decimalChars 1000000),
    saveSetting (.ofBytes (ascii "AdcSamplingRates") (by decide) (by decide) (by decide))
      (decimalChars 0),
    saveSetting (.ofBytes (ascii "SequenceLength") (by decide) (by decide) (by decide))
      (decimalChars 1),
    saveSetting (.ofBytes (ascii "GenerationPolymerization") (by decide) (by decide) (by decide))
      (decimalChars 3),
    saveSetting (.ofBytes (ascii "InitialValue") (by decide) (by decide) (by decide))
      (decimalChars 1),
    saveSetting (.ofBytes (ascii "SavePosition") (by decide) (by decide) (by decide))
      (decimalChars 1),
    saveSetting (.ofBytes (ascii "DataDirectory") (by decide) (by decide) (by decide))
      (.ofBytes (ascii "DATA") (by decide))]

theorem distinct_settings : Ini.Distinct (· ∈ settingKeys.map setting) := by
  constructor
  · intro x y hx hy _
    obtain ⟨_, -, rfl⟩ := List.mem_map.mp hx
    obtain ⟨_, -, rfl⟩ := List.mem_map.mp hy
    rfl
  · have h : ∀ a ∈ settingKeys, ∀ b ∈ settingKeys, ascii a <+: ascii b → a = b := by decide
    intro x y hx hy hle
    obtain ⟨a, ha, rfl⟩ := List.mem_map.mp hx
    obtain ⟨b, hb, rfl⟩ := List.mem_map.mp hy
    rw [h a ha b hb hle.2]

theorem clear_benchSaves : ∀ s ∈ benchSaves, s.update.Clear (· ∈ settingKeys.map setting) := by
  have h : ∀ s ∈ benchSaves, s.update.names ∈ settingKeys.map setting ∧
      Ini.Harmless s.update.sect.bytes ∧ Ini.Harmless s.update.key.bytes ∧
      Ini.Harmless s.update.value.bytes := by decide
  intro s hs
  obtain ⟨hused, hsect, hkey, hvalue⟩ := h s hs
  exact ⟨hused, hsect, hkey, hvalue⟩

end AcqBoard.App
