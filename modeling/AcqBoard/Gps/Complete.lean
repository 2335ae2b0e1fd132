import AcqBoard.Gps.Fields

/-! When the processing of a frame completes.

    Neither result of `strchr` for an asterisk is checked, nor the index into `cmd_list`, nor whether
    the frame has the fields that its handler reads. An entry that the frame does not set is one of an
    earlier frame, or null. -/

namespace AcqBoard.Gps
open Schemes

/-- The entry `j` of `cmd_list` as the handlers find it. -/
def entryAt (g : Receiver) (f : FrameText) (j : ℕ) : Option ℕ :=
  if j < f.fields.length then some (offset f.fields j) else g.cmdList j

/-- The entries that `gps_gpgga` reads are set. -/
def GpggaReady (g : Receiver) (f : FrameText) : Prop :=
  entryAt g f 7 ≠ none ∧ entryAt g f 9 ≠ none

/-- The entries that `gps_gprmc` reads are set: 1 to 7, and 9 if entry 7 points to a digit. -/
def GprmcReady (g : Receiver) (f : FrameText) : Prop :=
  (∀ j, 1 ≤ j → j ≤ 7 → entryAt g f j ≠ none) ∧
    ∀ p, entryAt g f 7 = some p → isDigit (((g.loaded f).sbuff.cstr p).headD 0) = true →
      entryAt g f 9 ≠ none

/-- The condition: the frame has an asterisk, and if its checksum is right, it has one in its last
    field, at most 64 fields, and every entry that the handler of its header reads is set. -/
def Completes (g : Receiver) (f : FrameText) : Prop :=
  byte '*' ∈ f.text ∧
    (checksumOk f.text = true →
      f.fields.length ≤ 64 ∧ byte '*' ∈ f.last ∧
        (f.fields.length ≠ 1 →
          (f.piece 0 = ascii "$GPGGA" → GpggaReady g f) ∧
          (f.piece 0 = ascii "$GPRMC" → GprmcReady g f)))

/-! ### The handlers -/

theorem field_ok {g : Receiver} {j : ℕ} : (∃ s, g.field j = .ok s) ↔ g.cmdList j ≠ none := by
  unfold Receiver.field
  cases g.cmdList j <;> simp

theorem field_of_entry {g : Receiver} {j p : ℕ} (h : g.cmdList j = some p) :
    g.field j = .ok (g.sbuff.cstr p) := by
  rw [Receiver.field, h]

/-- `gps_gpgga` changes nothing that `gps_gprmc` reads. -/
theorem gpsGpgga_ok {g h : Receiver} (hok : gpsGpgga g = .ok h) :
    h.sbuff = g.sbuff ∧ h.cmdList = g.cmdList ∧ h.tmTime = g.tmTime := by
  obtain ⟨header, -, hok⟩ := bind_eq_ok.mp hok
  split at hok
  · rw [← pure_eq_ok.mp hok]
    exact ⟨rfl, rfl, rfl⟩
  · obtain ⟨used, -, hok⟩ := bind_eq_ok.mp hok
    obtain ⟨height, -, hok⟩ := bind_eq_ok.mp hok
    rw [← pure_eq_ok.mp hok]
    exact ⟨rfl, rfl, rfl⟩

theorem gpsGpgga_completes {g : Receiver} {header : List UInt8} (h₀ : g.field 0 = .ok header) :
    (∃ h, gpsGpgga g = .ok h) ↔
      (header = ascii "$GPGGA" → g.cmdList 7 ≠ none ∧ g.cmdList 9 ≠ none) := by
  rw [gpsGpgga, h₀]
  simp only [bind, Except.bind]
  by_cases hh : header = ascii "$GPGGA"
  · rw [if_neg (not_not.mpr hh)]
    constructor
    · rintro ⟨h, hok⟩ -
      obtain ⟨used, h₇, hok⟩ := bind_eq_ok.mp hok
      obtain ⟨height, h₉, -⟩ := bind_eq_ok.mp hok
      exact ⟨field_ok.mp ⟨_, h₇⟩, field_ok.mp ⟨_, h₉⟩⟩
    · intro hset
      obtain ⟨used, h₇⟩ := field_ok.mpr (hset hh).1
      obtain ⟨height, h₉⟩ := field_ok.mpr (hset hh).2
      simp only [h₇, h₉]
      exact ⟨_, rfl⟩
  · rw [if_pos hh]
    exact iff_of_true ⟨g, rfl⟩ (fun h => absurd h hh)

theorem gprmcDate_completes {g : Receiver} {speed : List UInt8} :
    (∃ d, gprmcDate g speed = .ok d) ↔
      (isDigit (speed.headD 0) = true → g.cmdList 9 ≠ none) := by
  unfold gprmcDate
  cases hd : isDigit (speed.headD 0) with
  | true =>
    simp only [if_true, forall_const]
    rw [← field_ok]
    constructor
    · rintro ⟨d, h⟩
      obtain ⟨date, h₉, -⟩ := bind_eq_ok.mp h
      exact ⟨date, h₉⟩
    · rintro ⟨date, h₉⟩
      rw [h₉]
      exact ⟨some date, rfl⟩
  | false => simp [pure, Except.pure]

theorem gpsGprmc_completes {g : Receiver} {x : Env} {header : List UInt8}
    (h₀ : g.field 0 = .ok header) :
    (∃ r, gpsGprmc g x = .ok r) ↔
      (header = ascii "$GPRMC" → (∀ j, 1 ≤ j → j ≤ 7 → g.cmdList j ≠ none) ∧
        ∀ p, g.cmdList 7 = some p → isDigit ((g.sbuff.cstr p).headD 0) = true →
          g.cmdList 9 ≠ none) := by
  rw [gpsGprmc, h₀]
  simp only [bind, Except.bind]
  by_cases hh : header = ascii "$GPRMC"
  · rw [if_neg (not_not.mpr hh)]
    constructor
    · rintro ⟨r, hok⟩ -
      obtain ⟨time, h₁, hok⟩ := bind_eq_ok.mp hok
      obtain ⟨speed, h₇, hok⟩ := bind_eq_ok.mp hok
      obtain ⟨date, h₉, hok⟩ := bind_eq_ok.mp hok
      obtain ⟨latitude, h₃, hok⟩ := bind_eq_ok.mp hok
      obtain ⟨longitude, h₅, hok⟩ := bind_eq_ok.mp hok
      obtain ⟨ns, h₄, hok⟩ := bind_eq_ok.mp hok
      obtain ⟨ew, h₆, hok⟩ := bind_eq_ok.mp hok
      obtain ⟨status, h₂, -⟩ := bind_eq_ok.mp hok
      refine ⟨?_, ?_⟩
      · intro j hlow hhigh
        obtain rfl | rfl | rfl | rfl | rfl | rfl | rfl : j = 1 ∨ j = 2 ∨ j = 3 ∨ j = 4 ∨ j = 5 ∨
          j = 6 ∨ j = 7 := by omega
        · exact field_ok.mp ⟨_, h₁⟩
        · exact field_ok.mp ⟨_, h₂⟩
        · exact field_ok.mp ⟨_, h₃⟩
        · exact field_ok.mp ⟨_, h₄⟩
        · exact field_ok.mp ⟨_, h₅⟩
        · exact field_ok.mp ⟨_, h₆⟩
        · exact field_ok.mp ⟨_, h₇⟩
      · intro p hp
        rw [field_of_entry hp] at h₇
        obtain rfl := Except.ok.inj h₇
        exact gprmcDate_completes.mp ⟨_, h₉⟩
    · intro hset
      obtain ⟨hset, hdate⟩ := hset hh
      obtain ⟨time, h₁⟩ := field_ok.mpr (hset 1 (by omega) (by omega))
      obtain ⟨status, h₂⟩ := field_ok.mpr (hset 2 (by omega) (by omega))
      obtain ⟨latitude, h₃⟩ := field_ok.mpr (hset 3 (by omega) (by omega))
      obtain ⟨ns, h₄⟩ := field_ok.mpr (hset 4 (by omega) (by omega))
      obtain ⟨longitude, h₅⟩ := field_ok.mpr (hset 5 (by omega) (by omega))
      obtain ⟨ew, h₆⟩ := field_ok.mpr (hset 6 (by omega) (by omega))
      obtain ⟨p, hp⟩ := Option.ne_none_iff_exists'.mp (hset 7 (by omega) (by omega))
      obtain ⟨date, h₉⟩ := gprmcDate_completes.mpr (hdate p hp)
      simp only [h₁, h₂, h₃, h₄, h₅, h₆, field_of_entry hp, h₉]
      exact ⟨_, rfl⟩
  · rw [if_pos hh]
    exact iff_of_true ⟨_, rfl⟩ (fun h => absurd h hh)

/-! ### The frame -/

theorem Laid.entry {g h : Receiver} {f : FrameText} (hl : Laid g f h) (j : ℕ) :
    h.cmdList j = entryAt g f j := by
  unfold entryAt
  split
  · exact (hl.own j (by omega)).1
  · exact hl.old j (by omega)

theorem Laid.field {g h : Receiver} {f : FrameText} (hl : Laid g f h) {j : ℕ}
    (hj : j < f.fields.length) : h.field j = .ok (f.piece j) := by
  rw [field_of_entry (hl.own j hj).1, (hl.own j hj).2]

/-- The first byte of a string is the byte there, as far as the buffer goes. -/
theorem headD_cstr (b : Sbuff) (p : ℕ) : (b.cstr p).headD 0 = if p < 256 then b.mem p else 0 := by
  unfold Sbuff.cstr
  split
  · obtain ⟨n, hn⟩ : ∃ n, 256 - p = n + 1 := ⟨255 - p, by omega⟩
    rw [hn, Schemes.cstr]
    split
    · rename_i hz
      exact hz.symm
    · rfl
  · have hn : 256 - p = 0 := by omega
    rw [hn]
    rfl

/-- Cutting a frame moves no digit. -/
theorem Laid.isDigit {g h : Receiver} {f : FrameText} (hl : Laid g f h) (p : ℕ) :
    isDigit ((h.sbuff.cstr p).headD 0) = isDigit (((g.loaded f).sbuff.cstr p).headD 0) := by
  rw [headD_cstr, headD_cstr]
  split
  · exact hl.digit p
  · rfl

/-- The two handlers complete exactly if every entry that the one of the header reads is set. -/
theorem handlers_complete {g h : Receiver} {x : Env} {f : FrameText} (hl : Laid g f h) :
    (∃ r, gpsGpgga h >>= (gpsGprmc · x) = .ok r) ↔
      (f.piece 0 = ascii "$GPGGA" → GpggaReady g f) ∧
        (f.piece 0 = ascii "$GPRMC" → GprmcReady g f) := by
  have h₀ := hl.field f.fields_pos
  have hgga := gpsGpgga_completes h₀
  have hrmc : ∀ h', gpsGpgga h = .ok h' → ((∃ r, gpsGprmc h' x = .ok r) ↔
      (f.piece 0 = ascii "$GPRMC" → GprmcReady g f)) := by
    intro h' hok
    obtain ⟨hbuff, hlist, -⟩ := gpsGpgga_ok hok
    have h₀' : h'.field 0 = .ok (f.piece 0) := by
      rw [Receiver.field, hlist, hbuff]
      exact h₀
    rw [gpsGprmc_completes h₀', hbuff, hlist]
    simp only [hl.entry, hl.isDigit]
    rfl
  simp only [hl.entry] at hgga
  constructor
  · rintro ⟨r, hr⟩
    obtain ⟨h', hok, hr⟩ := bind_eq_ok.mp hr
    exact ⟨hgga.mp ⟨h', hok⟩, (hrmc h' hok).mp ⟨r, hr⟩⟩
  · rintro ⟨h₁, h₂⟩
    obtain ⟨h', hok⟩ := hgga.mpr h₁
    obtain ⟨r, hr⟩ := (hrmc h' hok).mpr h₂
    exact ⟨r, bind_eq_ok.mpr ⟨h', hok, hr⟩⟩

theorem gpsProcFrame_completes {g : Receiver} {x : Env} {f : FrameText} :
    (∃ r, gpsProcFrame (g.loaded f) x = .ok r) ↔
      f.fields.length ≤ 64 ∧ byte '*' ∈ f.last ∧ (f.fields.length ≠ 1 →
        (f.piece 0 = ascii "$GPGGA" → GpggaReady g f) ∧
          (f.piece 0 = ascii "$GPRMC" → GprmcReady g f)) := by
  obtain ⟨hfull, hnull, hcut⟩ := gpsProcFrame_loaded g f
  by_cases hn : f.fields.length ≤ 64
  · by_cases hstar : byte '*' ∈ f.last
    · obtain ⟨h, hl, heq⟩ := hcut hn hstar
      rw [heq]
      by_cases hone : f.fields.length = 1
      · rw [if_pos hone]
        exact iff_of_true ⟨_, rfl⟩ ⟨hn, hstar, fun hne => absurd hone hne⟩
      · rw [if_neg hone, handlers_complete hl]
        exact ⟨fun hc => ⟨hn, hstar, fun _ => hc⟩, fun hc => hc.2.2 hone⟩
    · rw [hnull hn hstar]
      exact iff_of_false (by simp) (fun hc => hstar hc.2.1)
  · rw [hfull (by omega)]
    exact iff_of_false (by simp) (fun hc => hn hc.1)

/-- The condition is enough. -/
theorem procGps_returns (x : Env) {g : Receiver} {f : FrameText} (h : Completes g f) :
    ∃ r, procGps g (f.input x) = .ok r := by
  obtain ⟨hstar, hproc⟩ := h
  rw [procGps_input, frameEnd, gpsChecksum_loaded, if_pos hstar]
  simp only [bind, Except.bind]
  cases hok : checksumOk f.text with
  | false => exact ⟨_, rfl⟩
  | true =>
    obtain ⟨r, hr⟩ := (gpsProcFrame_completes (x := x)).mpr (hproc hok)
    simp only [Bool.not_true, Bool.false_eq_true, if_false, hr]
    exact ⟨_, rfl⟩

/-- The condition is needed. -/
theorem completes_of_procGps {g : Receiver} {x : Env} {f : FrameText} {r : Receiver × List Int32}
    (h : procGps g (f.input x) = .ok r) : Completes g f := by
  rw [procGps_input, frameEnd, gpsChecksum_loaded] at h
  split at h
  · rename_i hstar
    refine ⟨hstar, fun hok => ?_⟩
    rw [hok] at h
    simp only [bind, Except.bind, Bool.not_true, Bool.false_eq_true, if_false] at h
    obtain ⟨s, hs, -⟩ := bind_eq_ok.mp h
    exact gpsProcFrame_completes.mp ⟨s, hs⟩
  · simp [bind, Except.bind] at h

/-- CORRECT: for every frame, from every state of the parser, the processing of the frame completes,
    with no null pointer dereferenced and no write behind `cmd_list`, exactly under the condition. -/
theorem frame_completes_iff (g : Receiver) (x : Env) (f : FrameText) :
    (∃ r, procGps g (f.input x) = .ok r) ↔ Completes g f := by
  constructor
  · rintro ⟨r, hr⟩
    exact completes_of_procGps hr
  · exact procGps_returns x

/-- A frame of ten fields and an asterisk in the last one completes from every state. -/
theorem completes_of_ten (g : Receiver) {f : FrameText} (htext : byte '*' ∈ f.text)
    (hstar : byte '*' ∈ f.last) (hlow : 10 ≤ f.fields.length) (hhigh : f.fields.length ≤ 64) :
    Completes g f := by
  have hset : ∀ j ≤ 9, entryAt g f j ≠ none := by
    intro j hj
    rw [entryAt, if_pos (by omega)]
    simp
  refine ⟨htext, fun _ => ⟨hhigh, hstar, fun _ => ⟨fun _ => ?_, fun _ => ⟨?_, ?_⟩⟩⟩⟩
  · exact ⟨hset 7 (by omega), hset 9 (by omega)⟩
  · exact fun j _ hj => hset j (by omega)
  · exact fun _ _ _ => hset 9 (by omega)

/-- A frame without an asterisk. -/
theorem frame_fails_without_asterisk : ¬ ∀ (g : Receiver) (x : Env) (f : FrameText),
    ∃ r, procGps g (f.input x) = .ok r := by
  intro h
  obtain ⟨r, hr⟩ := h Receiver.boot benchEnv ⟨[byte 'A'], by decide, plain_of_all (by decide)⟩
  cases hr

end AcqBoard.Gps
