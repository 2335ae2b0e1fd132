import AcqBoard.Gps.Clock

/-! Which bytes of a frame reach the handlers.

    `gps_checksum` covers the text up to the first asterisk of the buffer. `gps_proc_frame` cuts the
    whole buffer at its commas and then looks for an asterisk in the last piece only, so what stands
    behind the checksum is cut into fields too as soon as there is a comma in it. A frame without any
    comma is no packet: it is left before `cmd_count` is set. -/

namespace AcqBoard.Gps
open Schemes

/-- The text from the dollar sign up to the first asterisk, which the checksum covers. -/
def FrameText.covered (f : FrameText) : List UInt8 := f.text.takeWhile (· ≠ byte '*')

/-- Its fields. -/
def FrameText.coveredFields (f : FrameText) : List (List UInt8) := f.covered.splitOn (byte ',')

/-- The strings at `cmd_list[0..cmd_count-1]`. -/
def Receiver.strings (g : Receiver) : List (Option (List UInt8)) :=
  (List.range g.cmdCount).map fun j => (g.cmdList j).map g.sbuff.cstr

/-- The law: `gps_proc_frame` cuts the frame into exactly the fields that the checksum covers, leaves
    them as its handlers return, and a comma between each two of them gives the text back. -/
def LeavesCovered (g : Receiver) (f : FrameText) : Prop :=
  (∃ r, cutFrame (g.loaded f) = .ok r ∧ r.1.strings = f.coveredFields.map some) ∧
    (∀ x r, gpsProcFrame (g.loaded f) x = .ok r → r.1.strings = f.coveredFields.map some) ∧
    [byte ','].intercalate f.coveredFields = f.covered

/-- The condition: no comma stands behind the first asterisk, and there is one before it, or
    `cmd_count` was 1 already. -/
def CommasCovered (g : Receiver) (f : FrameText) : Prop :=
  byte ',' ∉ f.text.dropWhile (· ≠ byte '*') ∧ (byte ',' ∈ f.text ∨ g.cmdCount = 1)

/-! ### The strings -/

/-- The pieces as the handlers find them. -/
def FrameText.pieces (f : FrameText) : List (List UInt8) := (List.range f.fields.length).map f.piece

/-- A state that holds the frame and counts its fields. -/
theorem strings_of_laid {g h : Receiver} {f : FrameText} (hl : Laid g f h)
    (hc : h.cmdCount = f.fields.length) : h.strings = f.pieces.map some := by
  rw [Receiver.strings, FrameText.pieces, hc, List.map_map]
  refine List.map_congr_left ?_
  intro j hj
  obtain ⟨hentry, hstr⟩ := hl.own j (List.mem_range.mp hj)
  rw [hentry, Option.map_some, hstr]
  rfl

theorem length_strings (g : Receiver) : g.strings.length = g.cmdCount := by
  simp [Receiver.strings]

theorem strings_congr {g h : Receiver} (hb : h.sbuff = g.sbuff) (hl : h.cmdList = g.cmdList)
    (hc : h.cmdCount = g.cmdCount) : h.strings = g.strings := by
  rw [Receiver.strings, Receiver.strings, hb, hl, hc]

/-- Without a comma behind the first asterisk the pieces are the covered fields. -/
theorem pieces_eq_coveredFields {f : FrameText} (hstar : byte '*' ∈ f.text)
    (hc : byte ',' ∉ f.text.dropWhile (· ≠ byte '*')) :
    byte '*' ∈ f.last ∧ f.fields.length = f.coveredFields.length ∧ f.pieces = f.coveredFields := by
  obtain ⟨l, r, ht, hl, htake, hdrop⟩ := exists_cut hstar
  rw [hdrop] at hc
  obtain ⟨front, last, hcov, hfields, hsuf⟩ := splitOn_append_of_not_mem hc l
  have hcov' : f.coveredFields = front ++ [last] := by
    rw [FrameText.coveredFields, FrameText.covered, htake, hcov]
  have hf : f.fields = front ++ [last ++ byte '*' :: r] := by rw [FrameText.fields, ht, hfields]
  have hlen : f.fields.length = front.length + 1 := by rw [hf]; simp
  have hlast : (f.fields.getD front.length []) = last ++ byte '*' :: r := by
    rw [hf, List.getD_eq_getElem?_getD, List.getElem?_append_right (Nat.le_refl _), Nat.sub_self]
    rfl
  have hnot : ∀ a ∈ last, decide (a ≠ byte '*') = true := fun a ha =>
    decide_eq_true fun heq => hl (heq ▸ hsuf.subset ha)
  refine ⟨?_, ?_, ?_⟩
  · rw [FrameText.last, hlen, Nat.add_sub_cancel, hlast]
    simp
  · rw [hlen, hcov']
    simp
  · rw [FrameText.pieces, hcov', hlen, List.range_succ, List.map_append, List.map_singleton]
    congr 1
    · refine List.ext_getElem (by simp) ?_
      intro j hj hj'
      rw [List.getElem_map, List.getElem_range, FrameText.piece, if_neg (by omega), hf,
        List.getD_eq_getElem?_getD, List.getElem?_append_left hj', List.getElem?_eq_getElem hj']
      rfl
    · rw [FrameText.piece, if_pos hlen.symm, hlast, List.takeWhile_append_of_pos hnot]
      simp

/-- A comma behind the first asterisk makes more pieces than there are covered fields. -/
theorem coveredFields_lt {f : FrameText} (hc : byte ',' ∈ f.text.dropWhile (· ≠ byte '*')) :
    f.coveredFields.length < f.fields.length := by
  have hsum : f.text.count (byte ',') = f.covered.count (byte ',') +
      (f.text.dropWhile (· ≠ byte '*')).count (byte ',') := by
    rw [FrameText.covered, ← List.count_append, List.takeWhile_append_dropWhile]
  have hpos := List.count_pos_iff.mpr hc
  rw [FrameText.coveredFields, FrameText.fields, length_splitOn, length_splitOn]
  omega

/-! ### The handlers leave the strings -/

theorem gpsGpgga_strings {g h : Receiver} (hok : gpsGpgga g = .ok h) : h.strings = g.strings := by
  obtain ⟨header, -, hok⟩ := bind_eq_ok.mp hok
  split at hok
  · rw [← pure_eq_ok.mp hok]
  · obtain ⟨used, -, hok⟩ := bind_eq_ok.mp hok
    obtain ⟨height, -, hok⟩ := bind_eq_ok.mp hok
    rw [← pure_eq_ok.mp hok]
    exact strings_congr rfl rfl rfl

theorem gpsGprmc_strings {g : Receiver} {x : Env} {r : Receiver × List Int32}
    (hok : gpsGprmc g x = .ok r) : r.1.strings = g.strings := by
  obtain ⟨header, -, hok⟩ := bind_eq_ok.mp hok
  split at hok
  · rw [← pure_eq_ok.mp hok]
  · obtain ⟨time, -, hok⟩ := bind_eq_ok.mp hok
    obtain ⟨speed, -, hok⟩ := bind_eq_ok.mp hok
    obtain ⟨date, -, hok⟩ := bind_eq_ok.mp hok
    obtain ⟨latitude, -, hok⟩ := bind_eq_ok.mp hok
    obtain ⟨longitude, -, hok⟩ := bind_eq_ok.mp hok
    obtain ⟨ns, -, hok⟩ := bind_eq_ok.mp hok
    obtain ⟨ew, -, hok⟩ := bind_eq_ok.mp hok
    obtain ⟨status, -, hok⟩ := bind_eq_ok.mp hok
    rw [← pure_eq_ok.mp hok]
    exact strings_congr rfl rfl rfl

/-- What `gps_proc_frame` leaves is what it cut. -/
theorem gpsProcFrame_strings {g : Receiver} {x : Env} {c : Receiver × Bool}
    {r : Receiver × List Int32} (hcut : cutFrame g = .ok c) (hok : gpsProcFrame g x = .ok r) :
    r.1.strings = c.1.strings := by
  rw [gpsProcFrame, hcut] at hok
  simp only [bind, Except.bind] at hok
  split at hok
  · obtain ⟨h, hgga, hrmc⟩ := bind_eq_ok.mp hok
    rw [gpsGprmc_strings hrmc, gpsGpgga_strings hgga]
  · rw [← pure_eq_ok.mp hok]

/-! ### The frame -/

/-- The condition is needed: cut at other commas than the covered ones, the strings are too many. -/
theorem covered_of_leaves {g : Receiver} {f : NmeaFrame} (hn : f.text.count (byte ',') < 64)
    (h : LeavesCovered g f.toFrameText) : CommasCovered g f.toFrameText := by
  obtain ⟨⟨c, hcut, hstr⟩, -, -⟩ := h
  have hlen : f.fields.length = f.text.count (byte ',') + 1 := length_splitOn _ _
  have hcount : c.1.cmdCount = f.coveredFields.length := by
    rw [← length_strings, hstr, List.length_map]
  by_cases hstar : byte '*' ∈ f.last
  · obtain ⟨h, hl, -, -, hc, hcut'⟩ := cutFrame_loaded g (by omega) hstar
    obtain rfl := Except.ok.inj (hcut.symm.trans hcut')
    rw [hcount] at hc
    split at hc
    · rename_i hone
      have hnone : byte ',' ∉ f.text := List.count_eq_zero.mp (by omega)
      have hcov := List.count_eq_zero.mpr fun h =>
        hnone ((List.takeWhile_sublist (· ≠ byte '*')).mem h)
      refine ⟨fun h => hnone ((List.dropWhile_sublist _).mem h), Or.inr ?_⟩
      rw [← hc, FrameText.coveredFields, length_splitOn, FrameText.covered, hcov]
    · refine ⟨fun h => ?_, Or.inl (List.count_pos_iff.mp (by omega))⟩
      have := coveredFields_lt h
      omega
  · rw [(cutFrame_fails g f.toFrameText).2 (by omega) hstar] at hcut
    cases hcut

/-- The condition is enough. -/
theorem leaves_of_covered {g : Receiver} {f : NmeaFrame} (hn : f.text.count (byte ',') < 64)
    (h : CommasCovered g f.toFrameText) : LeavesCovered g f.toFrameText := by
  obtain ⟨hbehind, hsome⟩ := h
  have hlen : f.fields.length = f.text.count (byte ',') + 1 := length_splitOn _ _
  obtain ⟨hstar, hfields, hpieces⟩ := pieces_eq_coveredFields f.asterisk hbehind
  obtain ⟨h, hl, -, -, hc, hcut⟩ := cutFrame_loaded g (by omega) hstar
  have hcount : h.cmdCount = f.fields.length := by
    rw [hc]
    split
    · rename_i hone
      rcases hsome with hmem | hg
      · have := List.count_pos_iff.mpr hmem
        omega
      · rw [hg, hone]
    · rfl
  have hstr : h.strings = f.coveredFields.map some := by
    rw [strings_of_laid hl hcount, hpieces]
  refine ⟨⟨_, hcut, hstr⟩, ?_, List.intercalate_splitOn _⟩
  intro x r hok
  rw [gpsProcFrame_strings hcut hok]
  exact hstr

/-- CORRECT: for every accepted frame of fewer than 64 commas, from every state of the receiver,
    `gps_proc_frame` leaves exactly the covered fields in `cmd_list[0..cmd_count-1]` if and only if the
    condition holds. -/
theorem leaves_covered_iff (g : Receiver) (f : NmeaFrame) (hn : f.text.count (byte ',') < 64) :
    LeavesCovered g f.toFrameText ↔ CommasCovered g f.toFrameText := by
  constructor
  · exact covered_of_leaves hn
  · exact leaves_of_covered hn

/-- A frame with all its commas before the checksum. -/
theorem leaves_covered_fix : LeavesCovered Receiver.boot fixFrame.toFrameText :=
  (leaves_covered_iff Receiver.boot fixFrame (by decide)).mpr ⟨by decide, Or.inl (by decide)⟩

/-- A frame whose altitude stands behind the checksum. -/
def forgedFrame : NmeaFrame where
  body := ascii "GPGGA,,,,,,,06*7C,,57.1*"
  fits := by decide
  plain := plain_of_all (by decide)
  asterisk := by decide
  valid := by decide

/-- On that frame a field reaches `gps_gpgga` that no checksum covers. -/
theorem leaves_uncovered : ¬ ∀ (g : Receiver) (f : NmeaFrame), f.text.count (byte ',') < 64 →
    LeavesCovered g f.toFrameText := by
  intro h
  have hbehind := (covered_of_leaves (by decide) (h Receiver.boot forgedFrame (by decide))).1
  exact hbehind (by decide)

end AcqBoard.Gps
