import AcqBoard.Ini.Cuts
import AcqBoard.Schemes.Partial

/-! What `parse_file` reads.

    Here the scanner gets a memory, the bytes that may be read, and every `p[i]`, `p[i - 1]` and byte
    of a `strncmp` is a read of its own. A read elsewhere stops it, as does a lack of turns: the
    scanner returns, within the memory, if it does so with some number of turns. `parseFile` returns
    what this one returns (`reads_of_parseFile`), and more memory changes no answer (`parse_extends`). -/

namespace AcqBoard.Ini
open Schemes

/-- The bytes that may be read. -/
abbrev Memory := ℕ → Option UInt8

/-- The bytes of a buffer. -/
def memory (p : List UInt8) : Memory := fun i => p[i]?

namespace Memory
variable (m : Memory)

/-- `p[i - 1]`. -/
def before (i : ℕ) : Option UInt8 := if i = 0 then none else m (i - 1)

/-- `0 == i || newline(p[i - 1])`. -/
def atLine (i : ℕ) : Option Bool := if i = 0 then some true else (m.before i).map newline

/-- `strncmp` of the bytes from `i` on with a string. -/
def strncmp : ℕ → List UInt8 → ℕ → Option ℤ
  | _, _, 0 => some 0
  | i, t, n + 1 => do
    let c ← m i
    if c ≠ t.headD 0 then some (c.toNat - (t.headD 0).toNat)
    else if c = 0 then some 0
    else strncmp (i + 1) t.tail n

/-- `while (!stop(p[i])) i++`, at most `n` turns. -/
def scanTo (stop : UInt8 → Bool) : ℕ → ℕ → Option ℕ
  | 0, _ => none
  | n + 1, i => do
    let c ← m i
    if stop c then some i else scanTo stop n (i + 1)

/-- The search for the `=`; its `n` turns are the bytes up to the end of the line. -/
def keyLoop (key : List UInt8) (newlineStart : ℕ) : ℕ → ℕ → Option (Option ℕ)
  | 0, _ => some none
  | n + 1, j => do
    let c ← m j
    if c = byte '=' then some none
    else do
      let d ← m (j + 1)
      if d = byte '=' then do
        let r ← m.strncmp newlineStart key (j + 1 - newlineStart)
        if r = 0 then some (some (j + 1)) else keyLoop key newlineStart n (j + 1)
      else keyLoop key newlineStart n (j + 1)

def lineKey (key : List UInt8) (newlineStart i : ℕ) : Option (Option ℕ) := do
  let c ← m newlineStart
  if c = byte ';' then some none
  else m.keyLoop key newlineStart (i - newlineStart) newlineStart

def sectionLoop (key : List UInt8) : ℕ → ℕ → Option SectionEnd
  | 0, _ => none
  | n + 1, i => do
    let b ← m.before i
    let c ← m i
    if (newline b && leftBarce c) || endOfString c then some (.done i)
    else do
      let e ← m.scanTo (fun c => newline c || endOfString c) (n + 1) i
      let q ← m.lineKey key i e
      match q with
      | some j => some (.found i j e)
      | none => sectionLoop key n (e + 1)

def fileLoop (sect key : List UInt8) : ℕ → ℕ → Spans → Option (Bool × Spans)
  | 0, _, _ => none
  | n + 1, i, f => do
    let c ← m i
    if endOfString c then some (false, f)
    else do
      let start ← m.atLine i
      if start && leftBarce c then do
        let e ← m.scanTo (fun c => isrightBrace c || endOfString c) n (i + 1)
        let r ← m.strncmp (i + 1) sect (e - (i + 1))
        if r = 0 then do
          let b ← m.scanTo (fun c => !isSpace c) n (e + 1)
          let f := { f with secS := i + 1, secE := b }
          let o ← m.sectionLoop key n b
          match o with
          | .done i => fileLoop sect key n i f
          | .found s j i =>
            some (true, { f with keyS := s, keyE := j - 1, valueS := j + 1, valueE := i })
        else fileLoop sect key n e f
      else fileLoop sect key n (i + 1) f

/-- `parse_file` with `n` turns, for a section and a key that are not empty. -/
def parseFile (sect key : List UInt8) (n : ℕ) : Option (Bool × Spans) :=
  m.fileLoop sect key n 0 {}

end Memory

/-! ### More memory and more turns -/

section
variable {m m' : Memory} {sect key : List UInt8} {n n' : ℕ}

/-- A memory with the bytes of another one and more. -/
def Larger (m m' : Memory) : Prop := ∀ i, Extends (m i) (m' i)

theorem before_extends (h : Larger m m') (i : ℕ) : Extends (m.before i) (m'.before i) :=
  (Extends.refl none).ite (h (i - 1))

theorem atLine_extends (h : Larger m m') (i : ℕ) : Extends (m.atLine i) (m'.atLine i) :=
  (Extends.refl _).ite ((before_extends h i).map newline)

theorem strncmp_extends (h : Larger m m') (i : ℕ) (t : List UInt8) (n : ℕ) :
    Extends (m.strncmp i t n) (m'.strncmp i t n) := by
  induction n generalizing i t with
  | zero => exact Extends.refl _
  | succ n ih =>
    refine (h i).bind fun c => ?_
    exact (Extends.refl _).ite ((Extends.refl _).ite (ih (i + 1) t.tail))

theorem turns_pos (h : n + 1 ≤ n') : ∃ k, n' = k + 1 ∧ n ≤ k := ⟨n' - 1, by omega, by omega⟩

theorem scanTo_extends (h : Larger m m') (stop : UInt8 → Bool) (hn : n ≤ n') (i : ℕ) :
    Extends (m.scanTo stop n i) (m'.scanTo stop n' i) := by
  induction n generalizing n' i with
  | zero => exact extends_none _
  | succ n ih =>
    obtain ⟨k, rfl, hk⟩ := turns_pos hn
    exact (h i).bind fun c => (Extends.refl _).ite (ih hk (i + 1))

theorem keyLoop_extends (h : Larger m m') (start n j : ℕ) :
    Extends (m.keyLoop key start n j) (m'.keyLoop key start n j) := by
  induction n generalizing j with
  | zero => exact Extends.refl _
  | succ n ih =>
    refine (h j).bind fun c => (Extends.refl _).ite ((h (j + 1)).bind fun d => ?_)
    refine Extends.ite ((strncmp_extends h start key _).bind fun r => ?_) (ih (j + 1))
    exact (Extends.refl _).ite (ih (j + 1))

theorem lineKey_extends (h : Larger m m') (start i : ℕ) :
    Extends (m.lineKey key start i) (m'.lineKey key start i) :=
  (h start).bind fun _ => (Extends.refl _).ite (keyLoop_extends h start _ start)

theorem sectionLoop_extends (h : Larger m m') (hn : n ≤ n') (i : ℕ) :
    Extends (m.sectionLoop key n i) (m'.sectionLoop key n' i) := by
  induction n generalizing n' i with
  | zero => exact extends_none _
  | succ n ih =>
    obtain ⟨k, rfl, hk⟩ := turns_pos hn
    refine (before_extends h i).bind fun b => (h i).bind fun c => (Extends.refl _).ite ?_
    refine (scanTo_extends h _ hn i).bind fun e => (lineKey_extends h i e).bind fun q => ?_
    cases q with
    | some j => exact Extends.refl _
    | none => exact ih hk (e + 1)

theorem fileLoop_extends (h : Larger m m') (hn : n ≤ n') (i : ℕ) (f : Spans) :
    Extends (m.fileLoop sect key n i f) (m'.fileLoop sect key n' i f) := by
  induction n generalizing n' i f with
  | zero => exact extends_none _
  | succ n ih =>
    obtain ⟨k, rfl, hk⟩ := turns_pos hn
    refine (h i).bind fun c => (Extends.refl _).ite ((atLine_extends h i).bind fun start => ?_)
    refine Extends.ite ?_ (ih hk (i + 1) f)
    refine (scanTo_extends h _ hk (i + 1)).bind fun e =>
      (strncmp_extends h _ sect _).bind fun r => Extends.ite ?_ (ih hk e f)
    refine (scanTo_extends h _ hk (e + 1)).bind fun b =>
      (sectionLoop_extends h hk b).bind fun o => ?_
    cases o with
    | done j => exact ih hk j _
    | found s j e => exact Extends.refl _

/-- More memory and more turns change no answer. -/
theorem parse_extends (h : Larger m m') (hn : n ≤ n') :
    Extends (m.parseFile sect key n) (m'.parseFile sect key n') := fileLoop_extends h hn 0 {}

end

/-! ### The reads of `parseFile` -/

section
variable {sect key p : List UInt8} {i j n : ℕ}

theorem memory_eq (hi : i < p.length) : memory p i = some (p.getD i 0) := by
  rw [memory, List.getElem?_eq_getElem hi, List.getD_eq_getElem?_getD, List.getElem?_eq_getElem hi]
  rfl

theorem before_eq (hpos : 0 < i) (hi : i ≤ p.length) :
    (memory p).before i = some (p.getD (i - 1) 0) := by
  rw [Memory.before, if_neg (by omega), memory_eq (by omega)]

theorem atLine_eq (hi : i < p.length) :
    (memory p).atLine i = some (i = 0 || newline (p.getD (i - 1) 0)) := by
  rw [Memory.atLine]
  rcases Nat.eq_zero_or_pos i with rfl | hpos
  · rfl
  · have hne : i ≠ 0 := by omega
    rw [if_neg hne, before_eq hpos hi.le, decide_eq_false hne, Bool.false_or]
    rfl

theorem strncmp_eq (t : List UInt8) (h : i + n ≤ p.length) :
    (memory p).strncmp i t n = some (Schemes.strncmp (p.drop i) t n) := by
  induction n generalizing i t with
  | zero => rfl
  | succ n ih =>
    have hi : i < p.length := by omega
    have hhead : (p.drop i).headD 0 = p.getD i 0 := by
      rw [List.headD_eq_head?_getD, List.head?_drop, List.getD_eq_getElem?_getD]
    rw [Memory.strncmp, Schemes.strncmp, memory_eq hi, Option.bind_eq_bind, Option.bind_some, hhead,
      List.tail_drop, ih t.tail (by omega)]
    split
    · rfl
    split <;> rfl

/-- A loop that comes to its end has read nothing behind it. -/
theorem scanTo_reads {stop : UInt8 → Bool} {e : ℕ} (h : scanTo stop (p.drop i) i = .ok e)
    (hn : p.length ≤ i + n) : (memory p).scanTo stop n i = some e ∧ i ≤ e ∧ e < p.length := by
  induction n generalizing i with
  | zero =>
    rw [List.drop_eq_nil_of_le (by omega)] at h
    cases h
  | succ n ih =>
    rcases Nat.lt_or_ge i p.length with hi | hi
    · rw [List.drop_eq_getElem_cons hi, scanTo] at h
      have hread : memory p i = some p[i] := List.getElem?_eq_getElem hi
      rw [Memory.scanTo, hread, Option.bind_eq_bind, Option.bind_some]
      split at h
      · rename_i hstop
        obtain rfl := Except.ok.inj h
        rw [if_pos hstop]
        exact ⟨rfl, Nat.le_refl _, hi⟩
      · rename_i hgo
        obtain ⟨hrun, hle, hlt⟩ := ih h (by omega)
        rw [if_neg hgo]
        exact ⟨hrun, by omega, hlt⟩
    · rw [List.drop_eq_nil_of_le hi] at h
      cases h

/-- The search for the `=` stays on its line. -/
theorem keyLoop_reads {start : ℕ} (hj : start ≤ j) (hn : j + n < p.length) :
    (memory p).keyLoop key start n j = some (keyLoop key p start n j) := by
  induction n generalizing j with
  | zero => rfl
  | succ n ih =>
    have hcmp : start + (j + 1 - start) ≤ p.length := by omega
    rw [Memory.keyLoop, keyLoop, memory_eq (by omega), memory_eq (by omega), strncmp_eq key hcmp,
      ih (by omega) (by omega)]
    simp only [Option.bind_eq_bind, Option.bind_some, strncmp_comm (s := p.drop start)]
    split
    · rfl
    split
    · rename_i heq
      simp only [heq, true_and]
      split <;> rfl
    · rename_i hne
      rw [if_neg fun h => hne h.1]

theorem lineKey_reads {start e : ℕ} (hle : start ≤ e) (he : e < p.length) :
    (memory p).lineKey key start e = some (lineKey key p start e) := by
  rw [Memory.lineKey, lineKey, memory_eq (by omega), Option.bind_eq_bind, Option.bind_some,
    keyLoop_reads (Nat.le_refl start) (by omega)]
  split <;> rfl

/-- A position that can be read leaves a turn. -/
theorem turn_left (hi : i < p.length) (hn : p.length ≤ i + n) : ∃ k, n = k + 1 :=
  ⟨n - 1, by omega⟩

theorem sectionLoop_reads {k : ℕ} {o : SectionEnd} (h : sectionLoop key p k i = .ok o)
    (hpos : 0 < i) (hn : p.length ≤ i + n) :
    (memory p).sectionLoop key n i = some o ∧ ∀ j, o = .done j → i ≤ j := by
  induction k generalizing i n with
  | zero => cases h
  | succ k ih =>
    rw [sectionLoop] at h
    cases hread : p[i]? with
    | none =>
      rw [hread] at h
      cases h
    | some c =>
      rw [hread] at h
      dsimp only at h
      have hi : i < p.length := (List.getElem?_eq_some_iff.mp hread).1
      have hmem : memory p i = some c := hread
      obtain ⟨n, rfl⟩ := turn_left hi hn
      rw [Memory.sectionLoop, before_eq hpos hi.le, hmem]
      simp only [Option.bind_eq_bind, Option.bind_some]
      split at h
      · rename_i hstop
        obtain rfl := Except.ok.inj h
        rw [if_pos hstop]
        refine ⟨rfl, ?_⟩
        rintro j ⟨⟩
        exact Nat.le_refl i
      · rename_i hgo
        obtain ⟨e, he, h⟩ := bind_eq_ok.mp h
        obtain ⟨hscan, hle, hlt⟩ := scanTo_reads he hn
        rw [if_neg hgo, hscan, Option.bind_some, lineKey_reads hle hlt, Option.bind_some]
        cases hq : lineKey key p i e with
        | some j =>
          rw [hq] at h
          obtain rfl := Except.ok.inj h
          refine ⟨rfl, fun j hj => ?_⟩
          cases hj
        | none =>
          rw [hq] at h
          obtain ⟨hrun, hafter⟩ := ih (n := n) h (by omega) (by omega)
          refine ⟨hrun, fun j hj => ?_⟩
          have hle' := hafter j hj
          omega

/-- Within the buffer the scanner makes the reads of `parse_file`. -/
theorem fileLoop_reads {k : ℕ} {f : Spans} {r : Bool × Spans} (h : fileLoop sect key p k i f = .ok r)
    (hn : p.length ≤ i + n) : (memory p).fileLoop sect key n i f = some r := by
  induction k generalizing i f n with
  | zero => cases h
  | succ k ih =>
    rw [fileLoop] at h
    cases hread : p[i]? with
    | none =>
      rw [hread] at h
      cases h
    | some c =>
      rw [hread] at h
      dsimp only at h
      have hi : i < p.length := (List.getElem?_eq_some_iff.mp hread).1
      have hmem : memory p i = some c := hread
      obtain ⟨n, rfl⟩ := turn_left hi hn
      rw [Memory.fileLoop, hmem]
      simp only [Option.bind_eq_bind, Option.bind_some]
      split at h
      · rename_i hend
        rw [if_pos hend]
        exact congrArg some (Except.ok.inj h)
      rename_i hnext
      rw [if_neg hnext, atLine_eq hi, Option.bind_some]
      split at h
      · rename_i hhead
        obtain ⟨e, he, h⟩ := bind_eq_ok.mp h
        obtain ⟨hscan, hle, hlt⟩ := scanTo_reads (n := n) he (by omega)
        have hcmp : i + 1 + (e - (i + 1)) ≤ p.length := by omega
        rw [if_pos hhead, hscan, Option.bind_some, strncmp_eq sect hcmp, Option.bind_some]
        split at h
        · rename_i hpass
          obtain ⟨b, hb, h⟩ := bind_eq_ok.mp h
          obtain ⟨hspace, hbe, hbl⟩ := scanTo_reads (n := n) hb (by omega)
          obtain ⟨o, ho, h⟩ := bind_eq_ok.mp h
          obtain ⟨hsec, hafter⟩ := sectionLoop_reads (n := n) ho (by omega) (by omega)
          rw [if_pos hpass, hspace, Option.bind_some, hsec, Option.bind_some]
          cases o with
          | done j =>
            have hj := hafter j rfl
            exact ih h (by omega)
          | found s j e => exact congrArg some (Except.ok.inj h)
        · rename_i hfail
          rw [if_neg hfail]
          exact ih h (by omega)
      · rename_i hhead
        rw [if_neg hhead]
        exact ih h (by omega)

theorem parseFile_reads {r : Bool × Spans} (h : parseFile sect key p = .ok r) :
    (memory p).parseFile sect key p.length = some r := by
  unfold parseFile at h
  split at h
  · cases h
  · exact fileLoop_reads h (by omega)

theorem memory_larger (p q : List UInt8) : Larger (memory p) (memory (p ++ q)) := by
  intro i c hc
  have hi : i < p.length := (List.getElem?_eq_some_iff.mp hc).1
  exact (List.getElem?_append_left hi).trans hc

/-- What the scanner returns within a buffer is what `parse_file` returns on every longer one. -/
theorem parse_agrees {q : List UInt8} {r r' : Bool × Spans}
    (h : (memory p).parseFile sect key n = some r) (h' : parseFile sect key (p ++ q) = .ok r') :
    r = r' :=
  (parse_extends (memory_larger p q) (Nat.le_max_left n _)).agree
    (parse_extends (fun _ => Extends.refl _) (Nat.le_max_right n _)) h (parseFile_reads h')

end

end AcqBoard.Ini
