import AcqBoard.Gps.Reassembly

/-! The fields of a frame: what `gps_checksum` and the loop of `gps_proc_frame` make of its text.

    On the text the fields are the pieces between the commas. In the buffer the loop writes a NUL over
    every comma and enters where each piece begins; an entry behind the last field keeps its value from
    an earlier frame, and points to whatever the buffer holds there now. -/

namespace AcqBoard.Gps
open Schemes

/-- The bytes between a dollar sign and a carriage return, as many as `sbuff` has room for. -/
structure FrameText where
  body : List UInt8
  fits : body.length + 1 < 256
  plain : ∀ b ∈ body, b ≠ byte '$' ∧ b ≠ 13 ∧ b ≠ 0

/-- A text is plain when each of its bytes is. -/
theorem plain_of_all {body : List UInt8}
    (h : body.all (fun b => b != byte '$' && (b != 13 && b != 0)) = true) :
    ∀ b ∈ body, b ≠ byte '$' ∧ b ≠ 13 ∧ b ≠ 0 := by
  intro b hb
  simpa only [Bool.and_eq_true, bne_iff_ne] using List.all_eq_true.mp h b hb

/-- The text in the buffer. -/
def FrameText.text (f : FrameText) : List UInt8 := byte '$' :: f.body

/-- The bytes on the line, all of them finding the same surroundings. -/
def FrameText.input (f : FrameText) (x : Env) : List (UInt8 × Env) :=
  f.text.map (·, x) ++ [(13, x)]

/-- The pieces between the commas. -/
def FrameText.fields (f : FrameText) : List (List UInt8) := f.text.splitOn (byte ',')

/-- Where the `j`-th of the pieces begins. -/
def offset (fs : List (List UInt8)) (j : ℕ) : ℕ := ((fs.take j).map (·.length + 1)).sum

/-- Whether the two digits behind the asterisk are the checksum of the bytes before it. -/
def checksumOk (t : List UInt8) : Bool :=
  decide (hex2 ((t.takeWhile (· ≠ byte '*')).tail.foldl (· ^^^ ·) 0) =
    ((t.dropWhile (· ≠ byte '*')).tail).take 2)

theorem FrameText.noNul (f : FrameText) : (0 : UInt8) ∉ f.text := by
  rw [FrameText.text, List.mem_cons, not_or]
  exact ⟨by decide, fun h => (f.plain 0 h).2.2 rfl⟩

theorem FrameText.length_text (f : FrameText) : f.text.length = f.body.length + 1 := rfl

/-- The state at the carriage return. -/
def Receiver.loaded (g : Receiver) (f : FrameText) : Receiver := g.collected f.text f.fits

theorem holds_loaded (g : Receiver) (f : FrameText) :
    Holds (g.loaded f).sbuff.mem 0 f.text := holds_load f.noNul

/-- `proc_gps` on a whole frame. -/
theorem procGps_input (g : Receiver) (x : Env) (f : FrameText) :
    procGps g (f.input x) = frameEnd (g.loaded f) x := by
  have htext := procGps_text g x f.fits fun b hb => ⟨(f.plain b hb).1, (f.plain b hb).2.1⟩
  have hidx : (g.loaded f).sIndex ≠ -1 := by
    change ((f.text.length : ℕ) : ℤ) ≠ -1
    omega
  have hend : procGps (g.loaded f) [(13, x)] = frameEnd (g.loaded f) x := by
    rw [procGps, gpsByte_end hidx]
    cases frameEnd (g.loaded f) x with
    | error e => rfl
    | ok r => simp [bind, Except.bind, procGps, pure, Except.pure]
  rw [FrameText.input, FrameText.text, procGps_append htext]
  exact hend

/-! ### `gps_checksum` -/

/-- A text with the byte `c` in it, cut at the first one. -/
theorem exists_cut {t : List UInt8} {c : UInt8} (h : c ∈ t) : ∃ l r, t = l ++ c :: r ∧ c ∉ l ∧
    t.takeWhile (· ≠ c) = l ∧ t.dropWhile (· ≠ c) = c :: r := by
  obtain ⟨l, r, rfl, hl⟩ := List.eq_append_cons_of_mem h
  have hne : ∀ a ∈ l, decide (a ≠ c) = true := fun a ha =>
    decide_eq_true fun heq => hl (heq ▸ ha)
  refine ⟨l, r, rfl, hl, ?_, ?_⟩
  · rw [List.takeWhile_append_of_pos hne]
    simp
  · rw [List.dropWhile_append_of_pos hne]
    simp

theorem hex2_take (b : UInt8) : (hex2 b).take 2 = hex2 b := rfl

/-- `gps_checksum` on a buffer that holds a text from its dollar sign on. -/
theorem gpsChecksum_holds {b : Sbuff} {t : List UInt8} (hh : Holds b.mem 0 t) (hfits : t.length < 256)
    (hhead : t.head? = some (byte '$')) :
    gpsChecksum b = if byte '*' ∈ t then .ok (!checksumOk t) else .error .nullPointer := by
  split
  · rename_i hstar
    obtain ⟨l, r, ht, hl, htake, hdrop⟩ := exists_cut hstar
    rw [ht] at hh hhead
    have hcount : l.length + (r.length + 1) = t.length := by rw [ht]; simp
    have hchr : b.strchr (byte '*') 0 = some l.length := by
      have := strchr_of_append (n := 256 - 0) hh hl (by omega)
      rwa [Nat.zero_add] at this
    have hstr : b.cstr (l.length + 1) = r := by
      have hr := (holds_append hh).2.2
      rw [Nat.zero_add] at hr
      exact cstr_of_holds hr (by omega)
    have hxor : ((List.range (l.length - 1)).map fun i => b.mem (1 + i)) = l.tail := by
      cases l with
      | nil => exact absurd (Option.some.inj hhead) (by decide)
      | cons b l => exact map_of_holds hh.2.2
    rw [gpsChecksum, hchr]
    dsimp only
    rw [hxor, hstr, checksumOk, htake, hdrop, hex2_take, List.tail_cons, ← decide_not]
  · rename_i hstar
    have hchr : b.strchr (byte '*') 0 = none := strchr_of_not_mem hh hstar (by decide)
    rw [gpsChecksum, hchr]

/-- `gps_checksum` on the text of a frame. -/
theorem gpsChecksum_loaded (g : Receiver) (f : FrameText) :
    gpsChecksum (g.loaded f).sbuff =
      if byte '*' ∈ f.text then .ok (!checksumOk f.text) else .error .nullPointer :=
  gpsChecksum_holds (holds_loaded g f) f.fits rfl

/-! ### The loop of `gps_proc_frame` -/

theorem offset_zero (fs : List (List UInt8)) : offset fs 0 = 0 := rfl

theorem offset_succ (t : List UInt8) (fs : List (List UInt8)) (j : ℕ) :
    offset (t :: fs) (j + 1) = t.length + 1 + offset fs j := by
  simp [offset]

/-- What the loop leaves of a string with the pieces `fs` from `p` to `e`, entered from `i` on. -/
structure CutInto (b : Sbuff) (cmdList : ℕ → Option ℕ) (i p e : ℕ) (fs : List (List UInt8))
    (c : Cut) : Prop where
  index : c.i + 1 = i + fs.length
  ptr : c.ptr1 = p + offset fs (fs.length - 1)
  own : ∀ j t, fs[j]? = some t → c.cmdList (i + j) = some (p + offset fs j) ∧
    Holds c.sbuff.mem (p + offset fs j) t ∧ p + offset fs j + t.length ≤ e
  old : ∀ j, j < i ∨ i + fs.length ≤ j → c.cmdList j = cmdList j
  before : ∀ q, q < p → c.sbuff.mem q = b.mem q
  bytes : ∀ q, c.sbuff.mem q = b.mem q ∨ b.mem q = byte ',' ∧ c.sbuff.mem q = 0

/-- The string without a comma is one piece. -/
theorem cutInto_single {b : Sbuff} {cmdList : ℕ → Option ℕ} {i p : ℕ} {s : List UInt8}
    (hs : Holds b.mem p s) :
    CutInto b cmdList i p (p + s.length) [s] ⟨b, Function.update cmdList i (some p), i, p⟩ where
  index := rfl
  ptr := rfl
  own := by
    intro j t ht
    obtain ⟨hj, rfl⟩ := List.getElem?_eq_some_iff.mp ht
    obtain rfl : j = 0 := by simpa using hj
    exact ⟨Function.update_self _ _ _, hs, Nat.le_refl _⟩
  old := by
    intro j hj
    simp only [List.length_singleton] at hj
    exact Function.update_of_ne (by omega) _ _
  before _ _ := rfl
  bytes _ := Or.inl rfl

/-- A piece before a comma, and the pieces the rest is cut into. -/
theorem cutInto_cons {b : Sbuff} {cmdList : ℕ → Option ℕ} {i p e : ℕ} {l r : List UInt8}
    {fs : List (List UInt8)} {c : Cut} (hne : fs ≠ [])
    (hs : Holds b.mem p (l ++ byte ',' :: r)) (he : p + l.length ≤ e)
    (hc : CutInto (b.nulAt (p + l.length)) (Function.update cmdList i (some p)) (i + 1)
      (p + l.length + 1) e fs c) : CutInto b cmdList i p e (l :: fs) c := by
  have hpos : 0 < fs.length := List.length_pos_iff.mpr hne
  refine ⟨?_, ?_, ?_, ?_, ?_, ?_⟩
  · rw [hc.index, List.length_cons]
    omega
  · have hlast : (l :: fs).length - 1 = fs.length - 1 + 1 := by rw [List.length_cons]; omega
    rw [hlast, offset_succ, hc.ptr]
    omega
  · intro j t ht
    cases j with
    | zero =>
      obtain rfl : l = t := by simpa using ht
      rw [offset_zero]
      refine ⟨?_, holds_congr (holds_cut_left hs) fun q _ hq => hc.before q (by omega), he⟩
      rw [hc.old _ (Or.inl (by omega))]
      exact Function.update_self _ _ _
    | succ j =>
      have hown := hc.own j t (by simpa using ht)
      have hidx : i + (j + 1) = i + 1 + j := by omega
      have hoff : p + offset (l :: fs) (j + 1) = p + l.length + 1 + offset fs j := by
        rw [offset_succ]; omega
      rw [hidx, hoff]
      exact hown
  · intro j hj
    rw [List.length_cons] at hj
    rw [hc.old j (by omega)]
    exact Function.update_of_ne (by omega) _ _
  · intro q hq
    rw [hc.before q (by omega)]
    exact nulAt_ne (by omega) _
  · intro q
    have hcomma : b.mem (p + l.length) = byte ',' := (holds_append hs).1
    rcases hc.bytes q with hq | ⟨hq, hz⟩
    · by_cases hql : q = p + l.length
      · subst hql
        exact Or.inr ⟨hcomma, hq.trans (nulAt_self _ _)⟩
      · exact Or.inl (hq.trans (nulAt_ne hql _))
    · by_cases hql : q = p + l.length
      · subst hql
        exact Or.inr ⟨hcomma, hz⟩
      · exact Or.inr ⟨(nulAt_ne hql _).symm.trans hq, hz⟩

/-- The loop cuts a string into its pieces, if `cmd_list` has room for all of them. -/
theorem cmdLoop_spec : ∀ {room : ℕ} {b : Sbuff} {cmdList : ℕ → Option ℕ} {i p : ℕ}
    {s : List UInt8}, Holds b.mem p s → p + s.length < 256 →
    (room < (s.splitOn (byte ',')).length → cmdLoop b cmdList i p room = .error .tableFull) ∧
    ((s.splitOn (byte ',')).length ≤ room →
      ∃ c, cmdLoop b cmdList i p room = .ok c ∧
        CutInto b cmdList i p (p + s.length) (s.splitOn (byte ',')) c)
  | 0, b, cmdList, i, p, s, _, _ => by
      have hpos : 0 < (s.splitOn (byte ',')).length :=
        List.length_pos_iff.mpr (List.splitOn_ne_nil _ _)
      exact ⟨fun _ => rfl, fun h => by omega⟩
  | room + 1, b, cmdList, i, p, s, hs, hlen => by
      by_cases hcomma : byte ',' ∈ s
      · obtain ⟨l, r, rfl, hl⟩ := List.eq_append_cons_of_mem hcomma
        have hcount : l.length + (r.length + 1) = (l ++ byte ',' :: r).length := by simp
        have hchr : b.strchr (byte ',') p = some (p + l.length) :=
          strchr_of_append hs hl (by omega)
        have hright : Holds (b.nulAt (p + l.length)).mem (p + l.length + 1) r :=
          holds_cut_right hs
        have hstep : cmdLoop b cmdList i p (room + 1) = cmdLoop (b.nulAt (p + l.length))
            (Function.update cmdList i (some p)) (i + 1) (p + l.length + 1) room := by
          rw [cmdLoop, hchr]
        rw [List.splitOn_append_cons_self_of_not_mem hl, List.length_cons, hstep]
        obtain ⟨hfull, hroom⟩ := cmdLoop_spec hright (by omega)
        refine ⟨fun h => hfull (by omega), ?_⟩
        intro h
        obtain ⟨c, hc, hinto⟩ := hroom (by omega)
        have hend : p + l.length + 1 + r.length = p + (l ++ byte ',' :: r).length := by omega
        rw [hend] at hinto
        exact ⟨c, hc, cutInto_cons (List.splitOn_ne_nil _ _) hs (by omega) hinto⟩
      · have hchr : b.strchr (byte ',') p = none := strchr_of_not_mem hs hcomma (by decide)
        rw [List.splitOn_eq_singleton hcomma, List.length_singleton, cmdLoop, hchr]
        exact ⟨fun h => by omega, fun _ => ⟨_, rfl, cutInto_single hs⟩⟩

/-! ### The asterisk -/

/-- The last piece. -/
def FrameText.last (f : FrameText) : List UInt8 := f.fields.getD (f.fields.length - 1) []

/-- The `j`-th string of the frame as the handlers find it: the last piece ends at its asterisk. -/
def FrameText.piece (f : FrameText) (j : ℕ) : List UInt8 :=
  if j + 1 = f.fields.length then (f.fields.getD j []).takeWhile (· ≠ byte '*')
  else f.fields.getD j []

theorem FrameText.fields_pos (f : FrameText) : 0 < f.fields.length :=
  List.length_pos_iff.mpr (List.splitOn_ne_nil _ _)

theorem FrameText.fields_getElem? (f : FrameText) {j : ℕ} (hj : j < f.fields.length) :
    f.fields[j]? = some (f.fields.getD j []) := by
  rw [List.getD_eq_getElem?_getD, List.getElem?_eq_getElem hj]
  rfl

/-- The last piece is the string that the loop stops at. -/
theorem holds_last {b : Sbuff} {cmdList : ℕ → Option ℕ} {e : ℕ} {f : FrameText} {c : Cut}
    (hc : CutInto b cmdList 0 0 e f.fields c) :
    Holds c.sbuff.mem c.ptr1 f.last ∧ c.ptr1 + f.last.length ≤ e := by
  have hpos := f.fields_pos
  have hown := hc.own _ _ (f.fields_getElem? (j := f.fields.length - 1) (by omega))
  rw [hc.ptr]
  exact hown.2

/-- The state `h` in which the handlers find the frame `f`, received in the state `g`. -/
structure Laid (g : Receiver) (f : FrameText) (h : Receiver) : Prop where
  own : ∀ j, j < f.fields.length →
    h.cmdList j = some (offset f.fields j) ∧ h.sbuff.cstr (offset f.fields j) = f.piece j
  old : ∀ j, f.fields.length ≤ j → h.cmdList j = g.cmdList j
  digit : ∀ q, isDigit (h.sbuff.mem q) = isDigit ((g.loaded f).sbuff.mem q)

/-- The pieces begin one after the other. -/
theorem offset_lt {fs : List (List UInt8)} : ∀ {j k : ℕ} {t : List UInt8}, fs[j]? = some t →
    j < k → offset fs j + t.length < offset fs k := by
  induction fs with
  | nil => intro j k t ht; simp at ht
  | cons s fs ih =>
    intro j k t ht hjk
    obtain ⟨k, rfl⟩ : ∃ k', k = k' + 1 := ⟨k - 1, by omega⟩
    cases j with
    | zero =>
      obtain rfl : s = t := by simpa using ht
      rw [offset_zero, offset_succ]
      omega
    | succ j =>
      have := ih (by simpa using ht) (Nat.lt_of_succ_lt_succ hjk)
      rw [offset_succ, offset_succ]
      omega

/-- A NUL over the first asterisk of the last piece. -/
theorem laid_of_cutInto {g h : Receiver} {f : FrameText} {c : Cut} {l r : List UInt8}
    (hc : CutInto (g.loaded f).sbuff g.cmdList 0 0 (0 + f.text.length) f.fields c)
    (hlast : f.last = l ++ byte '*' :: r) (htake : f.last.takeWhile (· ≠ byte '*') = l)
    (hbuff : h.sbuff = c.sbuff.nulAt (c.ptr1 + l.length)) (hlist : h.cmdList = c.cmdList) :
    Laid g f h := by
  have hfits := f.fits
  have hlen := f.length_text
  have hptr := hc.ptr
  obtain ⟨hsplit, hin⟩ := holds_last hc
  have hshort : l.length ≤ f.last.length := by rw [hlast]; simp
  rw [hlast] at hsplit
  obtain ⟨sbuff, sIndex, cmdList, cmdCount, gpsData, tmTime⟩ := h
  obtain rfl : sbuff = _ := hbuff
  obtain rfl : cmdList = _ := hlist
  refine ⟨?_, fun j hj => hc.old j (Or.inr (by omega)), ?_⟩
  · intro j hj
    have hj' := f.fields_getElem? hj
    obtain ⟨hentry, hholds, hend⟩ := hc.own j _ hj'
    simp only [Nat.zero_add] at hentry hholds hend hptr
    refine ⟨hentry, ?_⟩
    by_cases hone : j + 1 = f.fields.length
    · obtain rfl : j = f.fields.length - 1 := by omega
      have hcut : Holds (c.sbuff.nulAt (c.ptr1 + l.length)).mem
          (offset f.fields (f.fields.length - 1)) l := by
        rw [← hptr]
        exact holds_cut_left hsplit
      rw [FrameText.piece, if_pos hone]
      exact (cstr_of_holds hcut (by omega)).trans htake.symm
    · have hbefore := offset_lt hj' (show j < f.fields.length - 1 by omega)
      rw [FrameText.piece, if_neg hone]
      exact cstr_of_holds (holds_congr hholds fun q _ hq => nulAt_ne (by omega) _) (by omega)
  · intro q
    have hstar : c.sbuff.mem (c.ptr1 + l.length) = byte '*' := (holds_append hsplit).1
    have hcut : isDigit (c.sbuff.mem q) = isDigit ((g.loaded f).sbuff.mem q) := by
      rcases hc.bytes q with hq | ⟨hq, hz⟩
      · rw [hq]
      · rw [hq, hz]; rfl
    rw [← hcut]
    by_cases hq : q = c.ptr1 + l.length
    · subst hq
      have hz : (c.sbuff.nulAt (c.ptr1 + l.length)).mem (c.ptr1 + l.length) = 0 := nulAt_self _ _
      dsimp only
      rw [hz, hstar]
      rfl
    · have hsame : (c.sbuff.nulAt (c.ptr1 + l.length)).mem q = c.sbuff.mem q := nulAt_ne hq _
      dsimp only
      rw [hsame]

/-- The loop of `gps_proc_frame` on the text of a frame. -/
theorem cmdLoop_loaded (g : Receiver) (f : FrameText) : (64 < f.fields.length →
      cmdLoop (g.loaded f).sbuff (g.loaded f).cmdList 0 0 64 = .error .tableFull) ∧
    (f.fields.length ≤ 64 →
      ∃ c, cmdLoop (g.loaded f).sbuff (g.loaded f).cmdList 0 0 64 = .ok c ∧
        CutInto (g.loaded f).sbuff g.cmdList 0 0 (0 + f.text.length) f.fields c) := by
  have hfits := f.fits
  have hlen := f.length_text
  exact cmdLoop_spec (holds_loaded g f) (by omega)

/-- A frame with an asterisk in its last field and at most 64 fields is cut; one that is a single piece
    is not counted and goes no further. -/
theorem cutFrame_loaded (g : Receiver) {f : FrameText} (hn : f.fields.length ≤ 64)
    (hstar : byte '*' ∈ f.last) : ∃ h, Laid g f h ∧ h.gpsData = g.gpsData ∧ h.tmTime = g.tmTime ∧
      h.cmdCount = (if f.fields.length = 1 then g.cmdCount else f.fields.length) ∧
      cutFrame (g.loaded f) = .ok (h, decide (f.fields.length ≠ 1)) := by
  have hfits := f.fits
  have hlen := f.length_text
  obtain ⟨c, hloop, hc⟩ := (cmdLoop_loaded g f).2 hn
  obtain ⟨l, r, hlast, hl, htake, -⟩ := exists_cut hstar
  obtain ⟨hholds, hin⟩ := holds_last hc
  have hshort : l.length < f.last.length := by rw [hlast]; simp
  have hchr : c.sbuff.strchr (byte '*') c.ptr1 = some (c.ptr1 + l.length) := by
    rw [hlast] at hholds
    exact strchr_of_append hholds hl (by omega)
  have hidx := hc.index
  by_cases hone : f.fields.length = 1
  · refine ⟨{ g.loaded f with
        sbuff := c.sbuff.nulAt (c.ptr1 + l.length), cmdList := c.cmdList },
      laid_of_cutInto hc hlast htake rfl rfl, rfl, rfl, (if_pos hone).symm, ?_⟩
    rw [cutFrame, hloop]
    simp only [bind, Except.bind, hchr]
    rw [if_pos (by omega), decide_eq_false (not_not.mpr hone)]
    rfl
  · refine ⟨{ g.loaded f with
        sbuff := c.sbuff.nulAt (c.ptr1 + l.length), cmdList := c.cmdList, cmdCount := c.i + 1 },
      laid_of_cutInto hc hlast htake rfl rfl, rfl, rfl, ?_, ?_⟩
    · rw [if_neg hone]
      exact hidx.trans (Nat.zero_add _)
    · rw [cutFrame, hloop]
      simp only [bind, Except.bind, hchr]
      rw [if_neg (by omega), decide_eq_true hone]
      rfl

/-- Too many fields, or no asterisk in the last one. -/
theorem cutFrame_fails (g : Receiver) (f : FrameText) :
    (64 < f.fields.length → cutFrame (g.loaded f) = .error .tableFull) ∧
    (f.fields.length ≤ 64 → byte '*' ∉ f.last → cutFrame (g.loaded f) = .error .nullPointer) := by
  obtain ⟨hfull, hroom⟩ := cmdLoop_loaded g f
  constructor
  · intro hn
    rw [cutFrame, hfull hn]
    rfl
  · intro hn hstar
    obtain ⟨c, hloop, hc⟩ := hroom hn
    have hchr : c.sbuff.strchr (byte '*') c.ptr1 = none :=
      strchr_of_not_mem (holds_last hc).1 hstar (by decide)
    rw [cutFrame, hloop]
    simp only [bind, Except.bind, hchr]

/-- A frame with an asterisk in its last field and at most 64 fields reaches the handlers, with the
    data as it was. -/
theorem gpsProcFrame_cut (g : Receiver) {f : FrameText} (hn : f.fields.length ≤ 64)
    (hstar : byte '*' ∈ f.last) : ∃ h, Laid g f h ∧ h.gpsData = g.gpsData ∧ h.tmTime = g.tmTime ∧
      ∀ x, gpsProcFrame (g.loaded f) x =
        if f.fields.length = 1 then .ok (h, []) else gpsGpgga h >>= (gpsGprmc · x) := by
  obtain ⟨h, hl, hdata, htime, -, hcut⟩ := cutFrame_loaded g hn hstar
  refine ⟨h, hl, hdata, htime, ?_⟩
  intro x
  rw [gpsProcFrame, hcut]
  simp only [bind, Except.bind, decide_eq_true_eq, ne_eq, ite_not]
  rfl

/-- `gps_proc_frame` on the text of a frame. -/
theorem gpsProcFrame_loaded (g : Receiver) (f : FrameText) :
    (64 < f.fields.length → ∀ x, gpsProcFrame (g.loaded f) x = .error .tableFull) ∧
    (f.fields.length ≤ 64 → byte '*' ∉ f.last →
      ∀ x, gpsProcFrame (g.loaded f) x = .error .nullPointer) ∧
    (f.fields.length ≤ 64 → byte '*' ∈ f.last → ∃ h, Laid g f h ∧
      ∀ x, gpsProcFrame (g.loaded f) x =
        if f.fields.length = 1 then .ok (h, []) else gpsGpgga h >>= (gpsGprmc · x)) := by
  obtain ⟨hfull, hnull⟩ := cutFrame_fails g f
  refine ⟨?_, ?_, ?_⟩
  · intro hn x
    rw [gpsProcFrame, hfull hn]
    rfl
  · intro hn hstar x
    rw [gpsProcFrame, hnull hn hstar]
    rfl
  · intro hn hstar
    obtain ⟨h, hl, -, -, heq⟩ := gpsProcFrame_cut g hn hstar
    exact ⟨h, hl, heq⟩

end AcqBoard.Gps
