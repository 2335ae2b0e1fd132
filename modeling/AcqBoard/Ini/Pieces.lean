import AcqBoard.Ini.Bounds

/-! What `write_profile_string` stores into `w_buf`.

    The new text is put together from pieces, each of which begins where the one before it ends:

        no section     the file | the new section NUL
        no key         the file up to `sec_e` | the new entry NUL | the rest as `sprintf` prints it NUL
        an entry       the file up to the value | the value | the file behind the value   (NUL)

    The NUL of a piece is where the next one begins. With an entry the last NUL is not stored but left
    over from the zeros of `w_buf`, if there is one left. Nothing in the function compares a length
    with that of `w_buf`. -/

namespace AcqBoard.Ini
open Schemes

/-- What one call stores: the text from a position on, and a NUL behind it if it is `sprintf`. -/
structure Piece where
  pos : ℕ
  text : List UInt8
  nul : Bool

def Piece.bytes (p : Piece) : List UInt8 := p.text ++ if p.nul then [0] else []

/-- Every byte that is stored has its place in `w_buf`. -/
def Piece.Placed (p : Piece) : Prop := p.pos + p.bytes.length ≤ maxFileSize

/-- The text has its place in `w_buf`, and so has the NUL that ends it. -/
def Piece.Fits (p : Piece) : Prop := p.pos + p.text.length < maxFileSize

/-- The texts have no position in common. -/
def Piece.Apart (p q : Piece) : Prop :=
  p.pos + p.text.length ≤ q.pos ∨ q.pos + q.text.length ≤ p.pos

/-- The pieces that are stored, in their order. -/
def pieces (conv : List UInt8 → ℤ → Except Fault (List UInt8)) (sect key value buf : List UInt8)
    (fileSize : ℕ) (f : Spans) : Except Fault (List Piece) :=
  if f.secS = -1 then
    if fileSize = 0 then .ok [⟨fileSize, newSection sect key value, true⟩]
    else .ok [⟨0, buf.take fileSize, false⟩,
      ⟨fileSize, byte '\n' :: newSection sect key value, true⟩]
  else if f.keyS = -1 then do
    let secE := f.secE.toNat
    let s ← sprintf conv (strOf (buf.drop secE)) (fileSize - secE)
    .ok [⟨0, buf.take secE, false⟩, ⟨secE, newKey key value, true⟩,
      ⟨secE + key.length + value.length + 2, s, true⟩]
  else
    let valueS := f.valueS.toNat
    let valueE := f.valueE.toNat
    .ok [⟨0, buf.take valueS, false⟩, ⟨valueS, value, false⟩,
      ⟨valueS + value.length, (buf.drop valueE).take (fileSize - valueE), false⟩]

/-- Where the text ends, and its NUL belongs: behind the last piece. -/
def textEnd (ps : List Piece) : ℕ := (ps.getLast?.map fun p => p.pos + p.text.length).getD 0

/-- One piece after the other. -/
def store (w : List UInt8) (p : Piece) : Except Fault (List UInt8) := blit w p.pos p.bytes

/-- `parse_file` comes back, and whatever is stored then has its place, with a NUL behind it, and is
    stored once. -/
def StoresWithin (conv : List UInt8 → ℤ → Except Fault (List UInt8)) (sect key value : List UInt8)
    (file : File) : Prop :=
  ∃ buf size f ps, loadAndParse sect key file = .ok (buf, size, f) ∧
    pieces conv sect key value buf size f = .ok ps ∧ (∀ p ∈ ps, p.Fits) ∧ ps.Pairwise Piece.Apart

/-- The new text with its NUL is not longer than `w_buf`. -/
def TextFits (conv : List UInt8 → ℤ → Except Fault (List UInt8)) (sect key value buf : List UInt8)
    (fileSize : ℕ) (f : Spans) : Prop :=
  if f.secS = -1 then
    fileSize + (if fileSize = 0 then 0 else 1) + sect.length + key.length + value.length + 6 ≤
      maxFileSize
  else if f.keyS = -1 then
    ∃ s, sprintf conv (strOf (buf.drop f.secE.toNat)) (fileSize - f.secE.toNat) = .ok s ∧
      f.secE + key.length + value.length + s.length + 3 ≤ maxFileSize
  else fileSize - (f.valueE - f.valueS) + value.length + 1 ≤ maxFileSize

/-- The pieces end where the text ends at the latest, and none is stored over another one. -/
structure Laid (ps : List Piece) : Prop where
  inside : ∀ p ∈ ps, p.pos + p.text.length ≤ textEnd ps
  apart : ps.Pairwise Piece.Apart

section
variable {conv : List UInt8 → ℤ → Except Fault (List UInt8)} {sect key value buf w s : List UInt8}
  {size : ℕ} {f : Spans} {file : File}

/-! ### The pieces are the new text -/

/-- `newText` stores the pieces. -/
theorem newText_pieces : newText conv sect key value buf size f = .ok w ↔
    ∃ ps, pieces conv sect key value buf size f = .ok ps ∧ run store (filled []) ps = .ok w := by
  have hplain : ∀ (pos : ℕ) (text v : List UInt8), store v ⟨pos, text, false⟩ = blit v pos text :=
    fun pos text v => by rw [store, Piece.bytes, if_neg Bool.false_ne_true, List.append_nil]
  have hnul : ∀ (pos : ℕ) (text v : List UInt8), store v ⟨pos, text, true⟩ =
    blit v pos (text ++ [0]) := fun pos text v => rfl
  unfold newText pieces
  split
  · split
    · simp [run_cons_ok, hnul]
    · simp [run_cons_ok, hplain, hnul, bind_eq_ok]
  split
  · constructor
    · intro h
      obtain ⟨u, hu, h⟩ := bind_eq_ok.mp h
      obtain ⟨v, hv, h⟩ := bind_eq_ok.mp h
      obtain ⟨t, ht, h⟩ := bind_eq_ok.mp h
      refine ⟨_, bind_eq_ok.mpr ⟨t, ht, rfl⟩, ?_⟩
      exact run_cons_ok.mpr ⟨u, (hplain ..).trans hu, run_cons_ok.mpr ⟨v, hv,
        run_cons_ok.mpr ⟨w, h, rfl⟩⟩⟩
    · rintro ⟨ps, hps, hrun⟩
      obtain ⟨t, ht, hps⟩ := bind_eq_ok.mp hps
      obtain rfl := Except.ok.inj hps
      obtain ⟨u, hu, hrun⟩ := run_cons_ok.mp hrun
      obtain ⟨v, hv, hrun⟩ := run_cons_ok.mp hrun
      obtain ⟨x, hx, hrun⟩ := run_cons_ok.mp hrun
      obtain rfl := Except.ok.inj hrun
      exact bind_eq_ok.mpr ⟨u, (hplain ..).symm.trans hu, bind_eq_ok.mpr ⟨v, hv,
        bind_eq_ok.mpr ⟨t, ht, hx⟩⟩⟩
  · simp [run_cons_ok, hplain, bind_eq_ok]

/-- A store that has its place leaves a buffer of the same length. -/
theorem store_eq {p : Piece} (hw : w.length = maxFileSize) :
    (∃ v, store w p = .ok v) ↔ p.Placed := by
  rw [store, blit, Piece.Placed, hw]
  split
  · rename_i h
    exact iff_of_true ⟨_, rfl⟩ h
  · rename_i h
    refine iff_of_false ?_ h
    rintro ⟨v, ⟨⟩⟩

theorem length_store {p : Piece} {v : List UInt8} (h : store w p = .ok v) : v.length = w.length := by
  rw [store, blit] at h
  split at h
  · obtain rfl := Except.ok.inj h
    simp only [List.length_append, List.length_take, List.length_drop]
    omega
  · cases h

/-- The stores go through exactly if every piece has its place. -/
theorem run_store {ps : List Piece} (hw : w.length = maxFileSize) :
    (∃ v, run store w ps = .ok v) ↔ ∀ p ∈ ps, p.Placed := by
  induction ps generalizing w with
  | nil => exact iff_of_true ⟨w, rfl⟩ (fun p hp => absurd hp List.not_mem_nil)
  | cons p ps ih =>
    rw [List.forall_mem_cons, ← store_eq hw]
    constructor
    · rintro ⟨v, hv⟩
      obtain ⟨u, hu, hrest⟩ := run_cons_ok.mp hv
      exact ⟨⟨u, hu⟩, (ih ((length_store hu).trans hw)).mp ⟨v, hrest⟩⟩
    · rintro ⟨⟨u, hu⟩, hplaced⟩
      obtain ⟨v, hv⟩ := (ih ((length_store hu).trans hw)).mpr hplaced
      exact ⟨v, run_cons_ok.mpr ⟨u, hu, hv⟩⟩

/-- A zero behind the text of a piece stays zero. -/
theorem store_zero {p : Piece} {v : List UInt8} {n : ℕ} (h : store w p = .ok v)
    (hle : p.pos + p.text.length ≤ n) (hn : w[n]? = some 0) : v[n]? = some 0 := by
  rw [store, blit] at h
  split at h
  · rename_i hplaced
    obtain rfl := Except.ok.inj h
    have hfront : (w.take p.pos ++ p.bytes).length = p.pos + p.bytes.length := by
      rw [List.length_append, List.length_take]
      omega
    rcases Nat.lt_or_ge n (p.pos + p.bytes.length) with hlt | hge
    · -- the NUL of the piece itself
      have hnul : p.nul = true := by
        by_contra hno
        rw [Piece.bytes, if_neg hno, List.append_nil] at hlt
        omega
      have hbytes : p.bytes = p.text ++ [0] := by rw [Piece.bytes, if_pos hnul]
      have hlen : p.bytes.length = p.text.length + 1 := by rw [hbytes]; simp
      have hat : n = p.pos + p.text.length := by omega
      rw [List.getElem?_append_left (by omega), List.getElem?_append_right (by simp; omega), hat,
        hbytes, List.getElem?_append_right (by simp; omega), List.length_take,
        Nat.min_eq_left (by omega), Nat.add_sub_cancel_left, Nat.sub_self]
      rfl
    · rw [List.getElem?_append_right (by omega), hfront, List.getElem?_drop,
        Nat.add_sub_cancel' hge]
      exact hn
  · cases h

theorem run_zero {ps : List Piece} {v : List UInt8} {n : ℕ} (h : run store w ps = .ok v)
    (hle : ∀ p ∈ ps, p.pos + p.text.length ≤ n) (hn : w[n]? = some 0) : v[n]? = some 0 := by
  induction ps generalizing w with
  | nil =>
    obtain rfl := Except.ok.inj h
    exact hn
  | cons p ps ih =>
    obtain ⟨hp, hps⟩ := List.forall_mem_cons.mp hle
    obtain ⟨u, hu, hrest⟩ := run_cons_ok.mp h
    exact ih hrest hps (store_zero hu hp hn)

/-! ### Where they are -/

/-- The buffer, the size and the offsets with which the text is put together. -/
structure Parsed (buf : List UInt8) (size : ℕ) (f : Spans) : Prop where
  length : buf.length = maxFileSize
  lt : size < maxFileSize
  sec : f.secS ≠ -1 → 0 ≤ f.secE ∧ f.secE ≤ size + 1
  value : f.keyS ≠ -1 → 0 ≤ f.valueS ∧ f.valueS ≤ f.valueE ∧ f.valueE ≤ size

theorem parsed_of_load (hs : sect ≠ []) (hk : key ≠ [])
    (h : loadAndParse sect key file = .ok (buf, size, f)) : Parsed buf size f := by
  obtain ⟨loaded, hload, h⟩ := bind_eq_ok.mp h
  cases file with
  | none =>
    obtain rfl := Except.ok.inj hload
    obtain ⟨rfl, rfl, rfl⟩ : filled [] = buf ∧ 0 = size ∧ {} = f := by
      simpa [pure, Except.pure] using h
    exact ⟨length_filled (Nat.zero_le _), by decide, fun h => (h rfl).elim, fun h => (h rfl).elim⟩
  | some bytes =>
    obtain ⟨l, hl, hpair⟩ := bind_eq_ok.mp hload
    obtain rfl := Except.ok.inj hpair
    obtain ⟨hbuf, hsize, hlen⟩ := loadIniFile_ok hload
    obtain ⟨⟨found, g⟩, hp, h⟩ := bind_eq_ok.mp h
    obtain ⟨rfl, rfl, rfl⟩ : filled l = buf ∧ l.length = size ∧ g = f := by
      simpa [pure, Except.pure] using h
    rw [hbuf] at hp
    obtain ⟨hwithin, hvalue⟩ := parseFile_spans hs hk hlen hp
    rw [hsize]
    refine ⟨by rw [hbuf]; exact length_filled hlen.le, hlen, fun hsec => ?_, hvalue⟩
    rcases hwithin.sec with ⟨h, -⟩ | ⟨h₀, h₁, h₂⟩
    · exact (hsec h).elim
    · exact ⟨h₀.trans h₁, by exact_mod_cast h₂⟩

theorem length_newSection : (newSection sect key value).length =
    sect.length + key.length + value.length + 5 := by
  simp only [newSection, List.length_append, List.length_cons, List.length_nil]
  omega

theorem length_newKey : (newKey key value).length = key.length + value.length + 2 := by
  simp only [newKey, List.length_append, List.length_cons, List.length_nil]
  omega

/-- A piece with the NUL behind it has its place. -/
theorem Piece.Fits.placed {p : Piece} (h : p.Fits) : p.Placed := by
  rw [Piece.Fits] at h
  rw [Piece.Placed, Piece.bytes, List.length_append]
  split
  · rw [List.length_singleton]
    omega
  · rw [List.length_nil]
    omega

theorem textEnd_concat (ps : List Piece) (p : Piece) :
    textEnd (ps ++ [p]) = p.pos + p.text.length := by
  rw [textEnd, List.getLast?_concat]
  rfl

theorem textEnd_one (p : Piece) : textEnd [p] = p.pos + p.text.length := textEnd_concat [] p

theorem textEnd_two (p q : Piece) : textEnd [p, q] = q.pos + q.text.length := textEnd_concat [p] q

theorem textEnd_three (p q r : Piece) : textEnd [p, q, r] = r.pos + r.text.length :=
  textEnd_concat [p, q] r

/-- All pieces fit if the end of the text does. -/
theorem Laid.fits_iff {ps : List Piece} (h : Laid ps) (hne : ps ≠ []) :
    (∀ p ∈ ps, p.Fits) ↔ textEnd ps < maxFileSize := by
  constructor
  · intro hfits
    obtain ⟨init, p, rfl⟩ := (List.eq_nil_or_concat ps).resolve_left hne
    rw [List.concat_eq_append] at hfits ⊢
    rw [textEnd_concat]
    exact hfits p (List.mem_append_right _ (List.mem_singleton_self p))
  · intro hend p hp
    exact lt_of_le_of_lt (h.inside p hp) hend

theorem laid_one (p : Piece) : Laid [p] where
  inside := by
    rw [textEnd_one, List.forall_mem_singleton]
  apart := List.pairwise_singleton _ _

/-- Two pieces that follow one another. -/
theorem laid_two {p q : Piece} (h : p.pos + p.text.length ≤ q.pos) : Laid [p, q] where
  inside := by
    rw [textEnd_two, List.forall_mem_cons, List.forall_mem_singleton]
    exact ⟨by omega, le_refl _⟩
  apart := List.pairwise_pair.mpr (Or.inl h)

/-- Three pieces, each of which ends where the next one begins at the latest. -/
theorem laid_three {p q r : Piece} (hpq : p.pos + p.text.length ≤ q.pos)
    (hqr : q.pos + q.text.length ≤ r.pos) : Laid [p, q, r] where
  inside := by
    rw [textEnd_three, List.forall_mem_cons, List.forall_mem_cons,
      List.forall_mem_singleton]
    exact ⟨by omega, by omega, le_refl _⟩
  apart := by
    have hpr : p.pos + p.text.length ≤ r.pos := by omega
    simp [Piece.Apart, hpq, hqr, hpr]

/-- The first piece is as long as it is meant to be. -/
theorem Parsed.length_take (hp : Parsed buf size f) {n : ℕ} (hn : n ≤ size + 1) :
    (buf.take n).length = n := by
  have hlt := hp.lt
  rw [List.length_take, hp.length, Nat.min_eq_left (by omega)]

section
variable {ps : List Piece} (hp : Parsed buf size f)
  (hps : pieces conv sect key value buf size f = .ok ps)
include hp hps

/-- Without the section. -/
theorem pieces_section (hsec : f.secS = -1) :
    (textEnd ps < maxFileSize ↔ TextFits conv sect key value buf size f) ∧ Laid ps ∧ ps ≠ [] := by
  have hfirst := hp.length_take (Nat.le_succ size)
  rw [pieces, if_pos hsec] at hps
  rw [TextFits, if_pos hsec]
  split at hps
  · rename_i hempty
    obtain rfl := Except.ok.inj hps
    rw [if_pos hempty]
    refine ⟨?_, laid_one _, List.cons_ne_nil _ _⟩
    rw [textEnd_one, length_newSection]
    dsimp only
    omega
  · rename_i hsome
    obtain rfl := Except.ok.inj hps
    rw [if_neg hsome]
    refine ⟨?_, laid_two (by dsimp only; rw [hfirst, Nat.zero_add]), List.cons_ne_nil _ _⟩
    rw [textEnd_two, List.length_cons, length_newSection]
    dsimp only
    omega

/-- Without the key. -/
theorem pieces_key (hsec : f.secS ≠ -1) (hkey : f.keyS = -1) :
    (textEnd ps < maxFileSize ↔ TextFits conv sect key value buf size f) ∧ Laid ps ∧ ps ≠ [] := by
  obtain ⟨hpos, hend⟩ := hp.sec hsec
  have hfirst := hp.length_take (n := f.secE.toNat) (by omega)
  rw [pieces, if_neg hsec, if_pos hkey] at hps
  rw [TextFits, if_neg hsec, if_pos hkey]
  obtain ⟨t, ht, hps⟩ := bind_eq_ok.mp hps
  obtain rfl := Except.ok.inj hps
  refine ⟨?_, laid_three (by dsimp only; rw [hfirst, Nat.zero_add])
    (by dsimp only; rw [length_newKey]; omega), List.cons_ne_nil _ _⟩
  rw [textEnd_three]
  dsimp only
  constructor
  · intro h
    exact ⟨t, ht, by omega⟩
  · rintro ⟨t', ht', hroom⟩
    obtain rfl := Except.ok.inj (ht.symm.trans ht')
    omega

/-- With an entry. -/
theorem pieces_value (hsec : f.secS ≠ -1) (hkey : f.keyS ≠ -1) :
    (textEnd ps < maxFileSize ↔ TextFits conv sect key value buf size f) ∧ Laid ps ∧ ps ≠ [] := by
  have hlt := hp.lt
  obtain ⟨hpos, hle, hend⟩ := hp.value hkey
  have hfirst := hp.length_take (n := f.valueS.toNat) (by omega)
  have hrest : ((buf.drop f.valueE.toNat).take (size - f.valueE.toNat)).length =
      size - f.valueE.toNat := by
    rw [List.length_take, List.length_drop, hp.length]
    omega
  rw [pieces, if_neg hsec, if_neg hkey] at hps
  rw [TextFits, if_neg hsec, if_neg hkey]
  obtain rfl := Except.ok.inj hps
  refine ⟨?_, laid_three (by dsimp only; rw [hfirst, Nat.zero_add]) (le_refl _),
    List.cons_ne_nil _ _⟩
  rw [textEnd_three]
  dsimp only
  rw [hrest]
  omega

/-- Where the pieces end, and that they are apart. -/
theorem pieces_spec :
    (textEnd ps < maxFileSize ↔ TextFits conv sect key value buf size f) ∧ Laid ps ∧ ps ≠ [] := by
  rcases eq_or_ne f.secS (-1) with hsec | hsec
  · exact pieces_section hp hps hsec
  rcases eq_or_ne f.keyS (-1) with hkey | hkey
  · exact pieces_key hp hps hsec hkey
  · exact pieces_value hp hps hsec hkey

/-- All of them fit exactly if the text does. -/
theorem pieces_fit : (∀ p ∈ ps, p.Fits) ↔ TextFits conv sect key value buf size f := by
  obtain ⟨hend, hlaid, hne⟩ := pieces_spec hp hps
  rw [hlaid.fits_iff hne, hend]

end

/-- A text that fits is one that `sprintf` prints. -/
theorem pieces_of_fits (h : TextFits conv sect key value buf size f) :
    ∃ ps, pieces conv sect key value buf size f = .ok ps := by
  rw [TextFits] at h
  rw [pieces]
  split
  · split
    · exact ⟨_, rfl⟩
    · exact ⟨_, rfl⟩
  rename_i hsec
  rw [if_neg hsec] at h
  split
  · rename_i hkey
    rw [if_pos hkey] at h
    obtain ⟨t, ht, -⟩ := h
    exact ⟨_, bind_eq_ok.mpr ⟨t, ht, rfl⟩⟩
  · exact ⟨_, rfl⟩

/-- In `w_buf`: the text fits exactly if `newText` returns with a NUL behind it. -/
theorem newText_ended_iff (hp : Parsed buf size f) :
    (∃ ps w, pieces conv sect key value buf size f = .ok ps ∧
      newText conv sect key value buf size f = .ok w ∧ w[textEnd ps]? = some 0) ↔
      TextFits conv sect key value buf size f := by
  have hempty : (filled []).length = maxFileSize := length_filled (Nat.zero_le _)
  constructor
  · rintro ⟨ps, w, hps, hw, hnul⟩
    obtain ⟨ps', hps', hrun⟩ := newText_pieces.mp hw
    obtain rfl := Except.ok.inj (hps.symm.trans hps')
    have hlen : w.length = maxFileSize := run_keeps (P := fun w => w.length = maxFileSize)
      (fun hu hstep => (length_store hstep).trans hu) hempty hrun
    refine (pieces_spec hp hps).1.mp ?_
    rw [← hlen]
    exact (List.getElem?_eq_some_iff.mp hnul).1
  · intro h
    obtain ⟨ps, hps⟩ := pieces_of_fits h
    obtain ⟨hend, hlaid, -⟩ := pieces_spec hp hps
    obtain ⟨w, hw⟩ := (run_store hempty).mpr fun p hin => ((pieces_fit hp hps).mpr h p hin).placed
    have hzero : (filled [])[textEnd ps]? = some 0 := by
      have hlt := hend.mpr h
      rw [filled, List.nil_append, List.getElem?_replicate, if_pos (by simpa using hlt)]
    exact ⟨ps, w, hps, newText_pieces.mpr ⟨ps, hps, hw⟩, run_zero hw hlaid.inside hzero⟩

/-- A text that fits is put together without a fault. -/
theorem newText_returns (hp : Parsed buf size f)
    (h : TextFits conv sect key value buf size f) :
    ∃ w, newText conv sect key value buf size f = .ok w := by
  obtain ⟨-, w, -, hw, -⟩ := (newText_ended_iff hp).mpr h
  exact ⟨w, hw⟩

/-! ### When they fit -/

/-- The scanner stays in its buffer; without a file it is not called. -/
def FileStays (sect key : List UInt8) (file : File) : Prop :=
  ∀ bytes, file = some bytes → Stays sect key (bytes.takeWhile (· ≠ eof))

theorem fileStays_iff {loaded : Option (List UInt8 × ℕ)} (hs : sect ≠ []) (hk : key ≠ [])
    (hload : loadIniFile file = .ok loaded) :
    FileStays sect key file ↔ ∃ x, loadAndParse sect key file = .ok x := by
  cases file with
  | none =>
    refine iff_of_true ?_ ⟨_, rfl⟩
    rintro bytes ⟨⟩
  | some bytes =>
    obtain ⟨l, -, hpair⟩ := bind_eq_ok.mp hload
    obtain rfl := Except.ok.inj hpair
    obtain ⟨hbuf, -, hlen⟩ := loadIniFile_ok hload
    have hstays : FileStays sect key (some bytes) ↔
        Stays sect key (bytes.takeWhile (· ≠ eof)) :=
      ⟨fun h => h bytes rfl, fun h b hb => Option.some.inj hb ▸ h⟩
    rw [hstays, stays_iff hs hk hlen, ← hbuf, loadAndParse, hload]
    constructor
    · rintro ⟨r, hr⟩
      exact ⟨_, bind_eq_ok.mpr ⟨_, rfl, bind_eq_ok.mpr ⟨r, hr, rfl⟩⟩⟩
    · rintro ⟨x, hx⟩
      obtain ⟨o, ho, hx⟩ := bind_eq_ok.mp hx
      obtain rfl := Except.ok.inj ho
      obtain ⟨r, hr, -⟩ := bind_eq_ok.mp hx
      exact ⟨r, hr⟩

/-- CORRECT: everything that is stored has its own place in `w_buf` exactly if the scanner stays in
    its buffer and the new text, its NUL included, is not longer than `w_buf`. -/
theorem stores_within_iff {loaded : Option (List UInt8 × ℕ)} (hs : sect ≠ []) (hk : key ≠ [])
    (hload : loadIniFile file = .ok loaded) : StoresWithin conv sect key value file ↔
      FileStays sect key file ∧ ∀ buf size f, loadAndParse sect key file = .ok (buf, size, f) →
        TextFits conv sect key value buf size f := by
  rw [fileStays_iff hs hk hload]
  constructor
  · rintro ⟨buf, size, f, ps, hparse, hps, hfits, -⟩
    refine ⟨⟨_, hparse⟩, ?_⟩
    intro buf' size' f' hparse'
    obtain ⟨rfl, rfl, rfl⟩ : buf = buf' ∧ size = size' ∧ f = f' := by
      simpa using hparse.symm.trans hparse'
    exact (pieces_fit (parsed_of_load hs hk hparse) hps).mp hfits
  · rintro ⟨⟨⟨buf, size, f⟩, hparse⟩, hfits⟩
    have htext := hfits buf size f hparse
    obtain ⟨ps, hps⟩ := pieces_of_fits htext
    have hparsed := parsed_of_load hs hk hparse
    exact ⟨buf, size, f, ps, hparse, hps, (pieces_fit hparsed hps).mpr htext,
      (pieces_spec hparsed hps).2.1.apart⟩

/-- A new file with one entry. -/
theorem stores_within_new :
    StoresWithin (fun s _ => .ok s) (ascii "a") (ascii "k") (ascii "v") none := by
  refine (stores_within_iff (by decide) (by decide) rfl).mpr ⟨?_, ?_⟩
  · rintro bytes ⟨⟩
  intro buf size f h
  obtain ⟨rfl, rfl, rfl⟩ : filled [] = buf ∧ 0 = size ∧ {} = f := by
    simpa [loadAndParse, loadIniFile, bind, Except.bind, pure, Except.pure] using h
  rw [TextFits, if_pos rfl]
  decide

/-- In a file of one line there is no section. -/
theorem loadAndParse_line (hs : sect ≠ []) (hk : key ≠ []) (hline : Plain true s) (heof : eof ∉ s)
    (hlen : s.length < maxFileSize) :
    loadAndParse sect key (some s) = .ok (filled s, s.length, {}) := by
  have hall := takeWhile_eof_self heof
  have hits : Items true [.cutLine s] := ⟨hline, trivial⟩
  have hstops : ({} : Walk).place.Stops s := Or.inl rfl
  have hr : run (itemStep sect key) {} [.cutLine s] = .error (false, {}) := by
    rw [run_cons, itemStep, if_pos hstops, readLine_outside rfl]
    rfl
  have hparse := parseFile_stops hs hk hits hr (List.replicate (maxFileSize - s.length - 1) 0)
  rw [← filled_items hlen (by simp [itemBytes, Item.bytes])] at hparse
  rw [loadAndParse, loadIniFile_eq (by rw [hall]; exact hlen), hall]
  exact bind_eq_ok.mpr ⟨_, rfl, bind_eq_ok.mpr ⟨_, hparse, rfl⟩⟩

/-- A comment of 16380 bytes leaves no place for a section. -/
theorem stores_behind :
    (∃ loaded, loadIniFile (some (List.replicate 16380 (byte ';'))) = .ok loaded) ∧
      ¬ StoresWithin (fun s _ => .ok s) (ascii "a") (ascii "k") (ascii "v")
        (some (List.replicate 16380 (byte ';'))) := by
  have hmem : ∀ b ∈ List.replicate 16380 (byte ';'), b = byte ';' :=
    fun b hb => List.eq_of_mem_replicate hb
  have hline : Plain true (List.replicate 16380 (byte ';')) := by
    refine ⟨fun b hb => ?_, by rw [List.head?_replicate]; decide⟩
    rw [hmem b hb]
    decide
  have hlen : (List.replicate 16380 (byte ';')).length < maxFileSize := by
    rw [List.length_replicate]
    decide
  have hparse : loadAndParse (ascii "a") (ascii "k") (some (List.replicate 16380 (byte ';'))) =
      .ok (filled _, _, {}) := loadAndParse_line (by decide) (by decide) hline
    (fun h => absurd (hmem _ h) (by decide)) hlen
  obtain ⟨loaded, hload, -⟩ := bind_eq_ok.mp hparse
  refine ⟨⟨loaded, hload⟩, ?_⟩
  rintro ⟨buf, size, f, ps, hparse', hps, hfits, -⟩
  obtain ⟨rfl, hrest⟩ := Prod.mk.inj (Except.ok.inj (hparse.symm.trans hparse'))
  obtain ⟨rfl, rfl⟩ := Prod.mk.inj hrest
  have htext := (pieces_fit (parsed_of_load (by decide) (by decide) hparse) hps).mp hfits
  rw [TextFits, if_pos rfl, List.length_replicate] at htext
  exact absurd htext (by decide)

end

end AcqBoard.Ini
