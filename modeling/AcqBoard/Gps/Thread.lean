import AcqBoard.Gps.Reassembly
import AcqBoard.Schemes.Frames
import AcqBoard.Schemes.Trace
import Mathlib.Data.List.ReduceOption

/-! `GpsThread` feeds the stream to `proc_gps` in the pieces that `fgets` reads.

    `fgets` keeps the bytes behind a NUL, and `strlen` does not count them: the rest of a piece is
    lost at its first NUL. `thread_frames_iff` says for which streams the frames that reach
    `gps_checksum` are those of the whole stream. -/

namespace AcqBoard.Gps
open Schemes

variable {τ : Type}

/-- `sizeof(gps_buff)`. -/
def gpsBuffSize : ℕ := 512

/-- `fgets` called until the end of the stream; `got` is what the current call has read. It returns
    behind a line feed, or when the buffer has room for the NUL only. That a read of the port times out
    (`VTIME`) and ends a call early is left out. -/
def fgetsLoop (got : List (UInt8 × τ)) : List (UInt8 × τ) → List (List (UInt8 × τ))
  | [] => if got.isEmpty then [] else [got]
  | b :: s =>
    if b.1 = byte '\n' ∨ got.length + 1 = gpsBuffSize - 1 then (got ++ [b]) :: fgetsLoop [] s
    else fgetsLoop (got ++ [b]) s

/-- The bytes of the piece that `strlen` counts: the buffer was zeroed before. -/
def strlenCut (piece : List (UInt8 × τ)) : List (UInt8 × τ) := piece.takeWhile (·.1 ≠ 0)

/-- What `GpsThread` gives to `proc_gps`, call by call. -/
def threadCalls (s : List (UInt8 × τ)) : List (List (UInt8 × τ)) := (fgetsLoop [] s).map strlenCut

/-! ### The frames that reach `gps_checksum` -/

/-- `sbuff` up to the index. -/
def Receiver.frame (g : Receiver) : List UInt8 := (List.range g.sIndex.toNat).map g.sbuff.mem

/-- `proc_gps` on one byte, with the frame that `gps_checksum` is called on. -/
def seenByte (g : Receiver) (i : UInt8 × Env) : Except Fault (Receiver × Option (List UInt8)) := do
  let r ← gpsByte g i.2 i.1
  pure (r.1, if g.sIndex ≠ -1 ∧ i.1 = 13 then some g.frame else none)

/-- `proc_gps` on one buffer. -/
def procSeen (g : Receiver) (buff : List (UInt8 × Env)) :
    Except Fault (Receiver × List (List UInt8)) := do
  let x ← trace seenByte g buff
  pure (x.1, x.2.reduceOption)

/-- One buffer after the other. -/
def callsSeen : Receiver → List (List (UInt8 × Env)) → Except Fault (Receiver × List (List UInt8))
  | g, [] => .ok (g, [])
  | g, buff :: calls => do
    let x ← procSeen g buff
    let y ← callsSeen x.1 calls
    pure (y.1, x.2 ++ y.2)

/-- The loop of `GpsThread`. -/
def gpsThread (g : Receiver) (s : List (UInt8 × Env)) :
    Except Fault (Receiver × List (List UInt8)) := callsSeen g (threadCalls s)

/-! ### The stream, without the buffer -/

/-- A dollar sign begins a frame, a carriage return completes it. -/
def frameMarks : Marks UInt8 where
  start b := b = byte '$'
  stop b := b = 13
  apart := by
    intro b hb
    rw [of_decide_eq_true hb]
    rfl

/-- How far `fgets` is in its piece, and whether the piece has a NUL. -/
structure Cursor where
  got : ℕ
  nul : Bool

def Cursor.next (c : Cursor) (b : UInt8) : Cursor :=
  if b = byte '\n' ∨ c.got + 1 = gpsBuffSize - 1 then ⟨0, false⟩ else ⟨c.got + 1, c.nul || b = 0⟩

/-- The thread as a lossy line. -/
def serialLine : Lossy UInt8 Cursor where
  next := Cursor.next
  hidden := Cursor.nul
  hole b := b = 0
  clear := by
    intro c b hc hb
    unfold Cursor.next
    split
    · rfl
    · simpa [hc] using hb

/-- Marks of a labelled stream. -/
abbrev marks : Marks (UInt8 × τ) := frameMarks.comap Prod.fst

abbrev line : Lossy (UInt8 × τ) Cursor := serialLine.comap Prod.fst

/-- The frames of the whole stream. -/
def streamFrames (s : List (UInt8 × τ)) : List (List (UInt8 × τ)) := marks.frames none s

/-- The frames of what the thread gives to `proc_gps`. -/
def threadFrames (s : List (UInt8 × τ)) : List (List (UInt8 × τ)) :=
  streamFrames (threadCalls s).flatten

def nulFree (f : List (UInt8 × τ)) : Bool := f.all fun b => b.1 ≠ 0

theorem strlenCut_concat (got : List (UInt8 × τ)) (b : UInt8 × τ) : strlenCut (got ++ [b]) =
    strlenCut got ++ if got.any (·.1 = 0) || b.1 = 0 then [] else [b] := by
  induction got with
  | nil => by_cases hb : b.1 = 0 <;> simp [strlenCut, hb]
  | cons a got ih =>
    by_cases ha : a.1 = 0
    · simp [strlenCut, ha]
    · have hfalse : decide (a.1 = 0) = false := decide_eq_false ha
      rw [List.any_cons, hfalse, Bool.false_or]
      simpa [strlenCut, ha] using ih

/-- Run lemma: the pieces, cut at their first NUL, are what the lossy line keeps. -/
theorem fgetsLoop_cut (got s : List (UInt8 × τ)) : ((fgetsLoop got s).map strlenCut).flatten =
    strlenCut got ++ line.kept ⟨got.length, got.any (·.1 = 0)⟩ s := by
  induction s generalizing got with
  | nil =>
    rcases got with - | ⟨b, got⟩
    · rfl
    · simp [fgetsLoop, Lossy.kept]
  | cons b s ih =>
    have hkept : line.kept ⟨got.length, got.any (·.1 = 0)⟩ (b :: s) =
        (if got.any (·.1 = 0) || b.1 = 0 then [] else [b]) ++
          line.kept (Cursor.next ⟨got.length, got.any (·.1 = 0)⟩ b.1) s := by
      rw [Lossy.kept]
      split
      · rename_i h
        rw [if_pos (show got.any (·.1 = 0) || b.1 = 0 from h)]
        rfl
      · rename_i h
        rw [if_neg (show ¬ (got.any (·.1 = 0) || b.1 = 0) = true from h)]
        rfl
    rw [hkept, ← List.append_assoc, ← strlenCut_concat, fgetsLoop]
    split
    · rename_i hend
      rw [List.map_cons, List.flatten_cons, ih, Cursor.next, if_pos hend]
      rfl
    · rename_i hend
      rw [ih, Cursor.next, if_neg hend]
      simp

theorem threadCalls_flatten (s : List (UInt8 × τ)) :
    (threadCalls s).flatten = line.kept ⟨0, false⟩ s := fgetsLoop_cut [] s

/-! ### The buffer holds the open frame -/

/-- The receiver is in the state of the stream: no frame, or the one in `sbuff`. -/
def Tracks (g : Receiver) : Option (List UInt8) → Prop
  | none => g.sIndex = -1
  | some f => ∃ h, f = byte '$' :: h ∧ Collecting ⟨g, h⟩

theorem Collecting.frame {g : Receiver} {h : List UInt8} (hc : Collecting ⟨g, h⟩) :
    g.frame = byte '$' :: h := by
  have hlen : g.sIndex.toNat = h.length + 1 := by
    have := hc.length
    dsimp only at this
    omega
  rw [Receiver.frame, hlen, List.range_succ_eq_map, List.map_cons, List.map_map]
  refine congr (congrArg List.cons hc.dollar) (List.ext_getElem (by simp) ?_)
  intro k hk hk'
  simp only [List.getElem_map, List.getElem_range, Function.comp]
  exact hc.bytes k _ (List.getElem?_eq_getElem hk')

/-- Step lemma: a byte moves the receiver as it moves the stream. -/
theorem tracks_step {g g' : Receiver} {o : Option (List UInt8)} {i : UInt8 × Env}
    {r : Option (List UInt8)} (ho : Tracks g o) (h : seenByte g i = .ok (g', r)) :
    Tracks g' (frameMarks.step o i.1).1 ∧ r = (frameMarks.step o i.1).2 := by
  obtain ⟨b, x⟩ := i
  obtain ⟨q, hq, h⟩ := bind_eq_ok.mp h
  obtain ⟨rfl, rfl⟩ := Prod.mk.inj (pure_eq_ok.mp h)
  dsimp only at hq ⊢
  by_cases hb : b = byte '$'
  · subst hb
    rw [gpsByte_dollar] at hq
    obtain rfl := Except.ok.inj hq
    rw [step_start (show frameMarks.start (byte '$') = true from rfl),
      if_neg fun hcr => absurd hcr.2 (by decide)]
    exact ⟨⟨[], rfl, collecting_dollar g⟩, rfl⟩
  have hstart : frameMarks.start b = false := decide_eq_false hb
  cases o with
  | none =>
    have hi : g.sIndex = -1 := ho
    rw [gpsByte_idle hi hb] at hq
    obtain rfl := Except.ok.inj hq
    rw [step_idle hstart, if_neg fun hcr => hcr.1 hi]
    exact ⟨hi, rfl⟩
  | some f =>
    obtain ⟨t, rfl, hc⟩ := ho
    have hlow := hc.low
    have hhigh := hc.high
    dsimp only at hlow hhigh
    have hi : g.sIndex ≠ -1 := by omega
    by_cases hcr : b = 13
    · subst hcr
      rw [gpsByte_end hi] at hq
      rw [step_stop (show frameMarks.stop 13 = true from rfl), if_pos ⟨hi, rfl⟩, hc.frame]
      exact ⟨frameEnd_ok hq, rfl⟩
    · have hstop : frameMarks.stop b = false := decide_eq_false hcr
      have hroom : g.sIndex < 255 := by
        by_contra hfull
        rw [gpsByte_full (by omega) hb hcr] at hq
        exact nomatch hq
      rw [gpsByte_data hlow hroom hb hcr] at hq
      obtain rfl := Except.ok.inj hq
      rw [step_plain hstart hstop, if_neg fun h => hcr h.2]
      exact ⟨⟨t ++ [b], rfl, collecting_data hc hroom hb hcr _⟩, rfl⟩

/-- Run lemma: in a defined run `gps_checksum` is called on the frames of the stream. -/
theorem tracks_run {g g' : Receiver} {o : Option (List UInt8)} {s : List (UInt8 × Env)}
    {rs : List (Option (List UInt8))} (ho : Tracks g o) (h : trace seenByte g s = .ok (g', rs)) :
    rs.reduceOption = frameMarks.frames o (s.map Prod.fst) := by
  induction s generalizing g o rs with
  | nil =>
    obtain ⟨rfl, rfl⟩ := Prod.mk.inj (Except.ok.inj h)
    rfl
  | cons i s ih =>
    obtain ⟨t, r, rs', hstep, htail, rfl⟩ := trace_cons_ok.mp h
    obtain ⟨ht, rfl⟩ := tracks_step ho hstep
    rw [List.map_cons, Marks.frames, ← ih ht htail]
    cases (frameMarks.step o i.1).2 with
    | none => exact List.reduceOption_cons_of_none rs'
    | some f => exact List.reduceOption_cons_of_some f rs'

theorem procSeen_ok {g g' : Receiver} {s : List (UInt8 × Env)} {fs : List (List UInt8)} :
    procSeen g s = .ok (g', fs) ↔ ∃ rs, trace seenByte g s = .ok (g', rs) ∧ fs = rs.reduceOption := by
  constructor
  · intro h
    obtain ⟨⟨t, rs⟩, hx, h⟩ := bind_eq_ok.mp h
    obtain ⟨rfl, rfl⟩ := Prod.mk.inj (pure_eq_ok.mp h)
    exact ⟨rs, hx, rfl⟩
  · rintro ⟨rs, h, rfl⟩
    exact bind_eq_ok.mpr ⟨(g', rs), h, rfl⟩

/-- The frames seen depend on the bytes only, not on the calls they come in. -/
theorem callsSeen_flatten {g g' : Receiver} {calls : List (List (UInt8 × Env))}
    {fs : List (List UInt8)} (h : callsSeen g calls = .ok (g', fs)) :
    procSeen g calls.flatten = .ok (g', fs) := by
  induction calls generalizing g fs with
  | nil => exact h
  | cons buff calls ih =>
    obtain ⟨⟨t, fs₁⟩, h₁, h⟩ := bind_eq_ok.mp h
    obtain ⟨⟨u, fs₂⟩, h₂, h⟩ := bind_eq_ok.mp h
    obtain ⟨rfl, rfl⟩ := Prod.mk.inj (pure_eq_ok.mp h)
    obtain ⟨rs₁, hrs₁, rfl⟩ := procSeen_ok.mp h₁
    obtain ⟨rs₂, hrs₂, rfl⟩ := procSeen_ok.mp (ih h₂)
    refine procSeen_ok.mpr ⟨rs₁ ++ rs₂, trace_append_ok.mpr ⟨t, rs₁, rs₂, hrs₁, hrs₂, rfl⟩, ?_⟩
    exact (List.reduceOption_append _ _).symm

/-- Watching the frames changes nothing. -/
theorem procGps_of_seen {g g' : Receiver} {s : List (UInt8 × Env)} {fs : List (List UInt8)}
    (h : procSeen g s = .ok (g', fs)) : ∃ calls, procGps g s = .ok (g', calls) := by
  obtain ⟨rs, htrace, -⟩ := procSeen_ok.mp h
  clear h
  induction s generalizing g rs with
  | nil =>
    obtain ⟨rfl, -⟩ := Prod.mk.inj (Except.ok.inj htrace)
    exact ⟨[], rfl⟩
  | cons i s ih =>
    obtain ⟨t, r, rs', hstep, htail, -⟩ := trace_cons_ok.mp htrace
    obtain ⟨q, hq, hpure⟩ := bind_eq_ok.mp hstep
    obtain ⟨rfl, -⟩ := Prod.mk.inj (pure_eq_ok.mp hpure)
    obtain ⟨calls, hrest⟩ := ih rs' htail
    exact ⟨q.2 ++ calls, by rw [procGps, hq]; simp [bind, Except.bind, hrest, pure, Except.pure]⟩

/-! ### The frames of the thread and of the stream -/

theorem zipIdx_pairwise {α : Type} (s : List α) (n : ℕ) :
    (s.zipIdx n).Pairwise fun x y => x.2 < y.2 := by
  induction s generalizing n with
  | nil => simp
  | cons a s ih =>
    rw [List.zipIdx_cons]
    refine List.pairwise_cons.mpr ⟨fun x hx => ?_, ih (n + 1)⟩
    exact Nat.lt_of_succ_le (List.le_snd_of_mem_zipIdx hx)

theorem streamFrames_map {υ : Type} (s : List (UInt8 × τ)) (t : List (UInt8 × υ))
    (h : s.map Prod.fst = t.map Prod.fst) :
    (streamFrames s).map (List.map Prod.fst) = (streamFrames t).map (List.map Prod.fst) := by
  have hs := frames_map frameMarks (Prod.fst : UInt8 × τ → UInt8) (o := none) (s := s)
  have ht := frames_map frameMarks (Prod.fst : UInt8 × υ → UInt8) (o := none) (s := t)
  exact hs.symm.trans ((congrArg _ h).trans ht)

theorem threadCalls_map {υ : Type} (s : List (UInt8 × τ)) (t : List (UInt8 × υ))
    (h : s.map Prod.fst = t.map Prod.fst) :
    (threadCalls s).flatten.map Prod.fst = (threadCalls t).flatten.map Prod.fst := by
  have hs := kept_map serialLine (Prod.fst : UInt8 × τ → UInt8) (c := ⟨0, false⟩) (s := s)
  have ht := kept_map serialLine (Prod.fst : UInt8 × υ → UInt8) (c := ⟨0, false⟩) (s := t)
  rw [threadCalls_flatten, threadCalls_flatten]
  exact hs.symm.trans ((congrArg _ h).trans ht)

/-- A defined run on the bytes sees the frames of the stream. -/
theorem procSeen_frames {i : List (UInt8 × Env)} {t : List (UInt8 × τ)}
    (h : i.map Prod.fst = t.map Prod.fst) {r : Receiver × List (List UInt8)}
    (hr : procSeen Receiver.boot i = .ok r) : r.2 = (streamFrames t).map (List.map Prod.fst) := by
  obtain ⟨rs, hrs, hfs⟩ := procSeen_ok.mp hr
  have hboot : Tracks Receiver.boot none := rfl
  rw [hfs, tracks_run hboot hrs, ← streamFrames_map i t h]
  exact frames_map frameMarks Prod.fst (o := none) (s := i)

/-- CORRECT: for every stream, told apart by their positions, the frames that the thread hands to
    `gps_checksum` are the frames of the whole stream that have no NUL, if and only if no frame is
    damaged; they are all the frames exactly if, besides, no frame has a NUL. Every defined run of
    the thread, and of `proc_gps` on the whole stream, sees these frames. -/
theorem thread_frames_iff (s : List UInt8) :
    (threadFrames s.zipIdx = (streamFrames s.zipIdx).filter nulFree ↔
      Undamaged marks line ⟨0, false⟩ s.zipIdx) ∧
    (threadFrames s.zipIdx = streamFrames s.zipIdx ↔ Undamaged marks line ⟨0, false⟩ s.zipIdx ∧
      ∀ f, marks.Occurs s.zipIdx f → ∀ b ∈ f, b.1 ≠ 0) ∧
    ∀ i : List (UInt8 × Env), i.map Prod.fst = s →
      (∀ r, gpsThread Receiver.boot i = .ok r →
        r.2 = (threadFrames s.zipIdx).map (List.map Prod.fst)) ∧
      ∀ r, procSeen Receiver.boot i = .ok r →
        r.2 = (streamFrames s.zipIdx).map (List.map Prod.fst) := by
  have hmark : ∀ b : UInt8 × ℕ, line.hole b = true → marks.start b = false ∧ marks.stop b = false := by
    intro b hb
    have hz : b.1 = 0 := of_decide_eq_true hb
    exact ⟨decide_eq_false (by rw [hz]; decide), decide_eq_false (by rw [hz]; decide)⟩
  have hsorted := zipIdx_pairwise s 0
  have hasymm : ∀ {x y : UInt8 × ℕ}, x.2 < y.2 → ¬ y.2 < x.2 := fun h => Nat.lt_asymm h
  have hfree : (nulFree : List (UInt8 × ℕ) → Bool) = fun f => f.all fun b => !line.hole b := by
    funext f
    refine List.all_congr rfl fun b => ?_
    exact decide_not
  refine ⟨?_, ?_, ?_⟩
  · rw [threadFrames, threadCalls_flatten, hfree]
    exact frames_kept_iff hmark hasymm hsorted
  · rw [threadFrames, threadCalls_flatten]
    refine (frames_kept_eq_iff hmark hasymm hsorted).trans (and_congr_right fun _ => ?_)
    exact forall₂_congr fun f _ => forall₂_congr fun b _ => decide_eq_false_iff_not
  · intro i hi
    have hbytes : i.map Prod.fst = s.zipIdx.map Prod.fst := by
      rw [hi, List.zipIdx_map_fst]
    exact ⟨fun r hr => procSeen_frames (threadCalls_map i s.zipIdx hbytes) (callsSeen_flatten hr),
      fun r hr => procSeen_frames hbytes hr⟩

/-- A line with a NUL in front of a good frame. -/
def noisyLine : List (UInt8 × Env) := (0 :: ascii "$A*41\x0d\n").map (·, benchEnv)

/-- A NUL in front of the dollar sign: the whole stream has one frame, the thread sees none. -/
theorem thread_loses_frame : ¬ ∀ (i : List (UInt8 × Env)) (r q : Receiver × List (List UInt8)),
    gpsThread Receiver.boot i = .ok r → procSeen Receiver.boot i = .ok q →
      r.2 = q.2.filter fun f => f.all (· ≠ 0) := by
  intro h
  obtain ⟨r, hr, hr'⟩ : ∃ r, gpsThread Receiver.boot noisyLine = .ok r ∧ r.2 = [] :=
    ⟨_, rfl, rfl⟩
  obtain ⟨q, hq, hq'⟩ : ∃ q, procSeen Receiver.boot noisyLine = .ok q ∧ q.2 = [ascii "$A*41"] :=
    ⟨_, rfl, rfl⟩
  have hlost := h noisyLine r q hr hq
  rw [hr', hq'] at hlost
  exact absurd hlost (by decide)

end AcqBoard.Gps
