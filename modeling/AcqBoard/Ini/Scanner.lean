import AcqBoard.Schemes.Scanf
import AcqBoard.Schemes.Run

/-! `parse_file` of `inifile.c`, the scanner of a profile.

    A buffer is the list of its bytes, `p[i]` a look-up in it, and a loop that would read behind its
    end is a fault. The loops take the number of bytes of the buffer as fuel: every turn moves on by
    one byte at least, so that the fuel runs out only behind the end, where the read is a fault
    anyway. -/

namespace AcqBoard.Ini
open Schemes

/-- Where `inifile.c` goes wrong. -/
inductive Fault where
  | overrun     -- a buffer accessed outside its bounds
  | assertion   -- an `assert` that does not hold
  deriving DecidableEq

def newline (c : UInt8) : Bool := c = byte '\n' || c = byte '\r'

def endOfString (c : UInt8) : Bool := c = 0

def leftBarce (c : UInt8) : Bool := c = byte '['

def isrightBrace (c : UInt8) : Bool := c = byte ']'

/-- The positions that `parse_file` returns through its pointers. -/
structure Spans where
  secS : ℤ := -1
  secE : ℤ := -1
  keyS : ℤ := -1
  keyE : ℤ := -1
  valueS : ℤ := -1
  valueE : ℤ := -1
  deriving DecidableEq

/-- `while (!stop(p[i])) i++`, on the bytes from `p[i]` on. -/
def scanTo (stop : UInt8 → Bool) : List UInt8 → ℕ → Except Fault ℕ
  | [], _ => .error .overrun
  | c :: s, i => if stop c then .ok i else scanTo stop s (i + 1)

/-- The search for the `=` of a line from `j` on, `n` bytes before the end of the line: the first one
    that is not at `j`, if the text in front of it passes for the key. -/
def keyLoop (key p : List UInt8) (newlineStart : ℕ) : ℕ → ℕ → Option ℕ
  | 0, _ => none
  | n + 1, j =>
    if p.getD j 0 = byte '=' then none
    else if p.getD (j + 1) 0 = byte '=' ∧
        strncmp key (p.drop newlineStart) (j + 1 - newlineStart) = 0 then some (j + 1)
    else keyLoop key p newlineStart n (j + 1)

/-- The `=` of the line from `newlineStart` to `i`, if it is an entry for the key. -/
def lineKey (key p : List UInt8) (newlineStart i : ℕ) : Option ℕ :=
  if p.getD newlineStart 0 = byte ';' then none
  else keyLoop key p newlineStart (i - newlineStart) newlineStart

/-- How the lines of a section end: at `i`, or with an entry for the key. -/
inductive SectionEnd where
  | done (i : ℕ)
  | found (newlineStart j i : ℕ)

/-- The loop over the lines of a section. -/
def sectionLoop (key p : List UInt8) : ℕ → ℕ → Except Fault SectionEnd
  | 0, _ => .error .overrun
  | n + 1, i =>
    match p[i]? with
    | none => .error .overrun
    | some c =>
      if (newline (p.getD (i - 1) 0) && leftBarce c) || endOfString c then .ok (.done i)
      else do
        let e ← scanTo (fun c => newline c || endOfString c) (p.drop i) i
        match lineKey key p i e with
        | some j => pure (.found i j e)
        | none => sectionLoop key p n (e + 1)

/-- The loop over the text, which looks for headers. -/
def fileLoop (sect key p : List UInt8) : ℕ → ℕ → Spans → Except Fault (Bool × Spans)
  | 0, _, _ => .error .overrun
  | n + 1, i, f =>
    match p[i]? with
    | none => .error .overrun
    | some c =>
      if endOfString c then .ok (false, f)
      else if (i = 0 || newline (p.getD (i - 1) 0)) && leftBarce c then do
        let e ← scanTo (fun c => isrightBrace c || endOfString c) (p.drop (i + 1)) (i + 1)
        if strncmp (p.drop (i + 1)) sect (e - (i + 1)) = 0 then do
          let b ← scanTo (fun c => !isSpace c) (p.drop (e + 1)) (e + 1)
          let f := { f with secS := i + 1, secE := b }
          match ← sectionLoop key p p.length b with
          | .done i => fileLoop sect key p n i f
          | .found s j i =>
            pure (true, { f with keyS := s, keyE := j - 1, valueS := j + 1, valueE := i })
        else fileLoop sect key p n e f
      else fileLoop sect key p n (i + 1) f

def parseFile (sect key buf : List UInt8) : Except Fault (Bool × Spans) :=
  if sect = [] ∨ key = [] then .error .assertion
  else fileLoop sect key buf buf.length 0 {}

theorem newline_space {c : UInt8} (h : newline c = true) : isSpace c = true := by
  rcases (by simpa [newline] using h : c = byte '\n' ∨ c = byte '\r') with rfl | rfl <;> rfl

theorem ne_of_space {c d : UInt8} (hc : isSpace c = true) (hd : isSpace d = false) : c ≠ d := by
  rintro rfl
  rw [hc] at hd
  exact Bool.noConfusion hd

/-! ### What the loops do on a line -/

/-- The text before the first `=` of a line, if it has one. -/
def cut (s : List UInt8) : Option (List UInt8) :=
  if byte '=' ∈ s then some (s.takeWhile (· ≠ byte '=')) else none

/-- A line is an entry for the key if it is no comment, and the text before its first `=` is not
    empty and a prefix of the key. -/
def matchKey (key s : List UInt8) : Option ℕ :=
  match cut s with
  | none => none
  | some k => if k ≠ [] ∧ k.head? ≠ some (byte ';') ∧ k <+: key then some k.length else none

/-- The scanner takes the line for the key. -/
theorem matchKey_eq_some {key text : List UInt8} {k : ℕ} : matchKey key text = some k ↔
    ∃ t, cut text = some t ∧ (t ≠ [] ∧ t.head? ≠ some (byte ';') ∧ t <+: key) ∧ k = t.length := by
  unfold matchKey
  cases cut text with
  | none => simp
  | some t =>
    dsimp only
    split
    · rename_i h
      simp [h, eq_comm]
    · rename_i h
      simp [h]

theorem scanTo_skip {stop : UInt8 → Bool} {s : List UInt8} (hs : ∀ c ∈ s, stop c = false)
    (rest : List UInt8) (i : ℕ) : scanTo stop (s ++ rest) i = scanTo stop rest (i + s.length) := by
  induction s generalizing i with
  | nil => rfl
  | cons c s ih =>
    rw [List.cons_append, scanTo, if_neg (by simp [hs c List.mem_cons_self]),
      ih fun d hd => hs d (List.mem_cons_of_mem c hd), List.length_cons]
    congr 1
    omega

theorem scanTo_stop {stop : UInt8 → Bool} {c : UInt8} (hc : stop c = true) (rest : List UInt8)
    (i : ℕ) : scanTo stop (c :: rest) i = .ok i := if_pos hc

theorem scanTo_eq {stop : UInt8 → Bool} {s : List UInt8} {c : UInt8}
    (hs : ∀ c ∈ s, stop c = false) (hc : stop c = true) (rest : List UInt8) (i : ℕ) :
    scanTo stop (s ++ c :: rest) i = .ok (i + s.length) := by
  rw [scanTo_skip hs, scanTo_stop hc]

theorem getD_behind (pre s : List UInt8) (k : ℕ) :
    (pre ++ s).getD (pre.length + k) 0 = s.getD k 0 := by
  rw [List.getD_eq_getElem?_getD, List.getD_eq_getElem?_getD,
    List.getElem?_append_right (by omega), Nat.add_sub_cancel_left]

theorem keyLoop_none {key p : List UInt8} {start n j : ℕ}
    (h : ∀ m, j ≤ m → m ≤ j + n → p.getD m 0 ≠ byte '=') : keyLoop key p start n j = none := by
  induction n generalizing j with
  | zero => rfl
  | succ n ih =>
    rw [keyLoop, if_neg (h j (by omega) (by omega)), if_neg fun hq => h (j + 1) (by omega)
      (by omega) hq.1]
    exact ih fun m h₁ h₂ => h m (by omega) (by omega)

theorem keyLoop_eq {key p : List UInt8} {start n j q : ℕ} (hj : j < q) (hn : q ≤ j + n)
    (h : ∀ m, j ≤ m → m < q → p.getD m 0 ≠ byte '=') (hq : p.getD q 0 = byte '=') :
    keyLoop key p start n j =
      if strncmp key (p.drop start) (q - start) = 0 then some q else none := by
  induction n generalizing j with
  | zero => omega
  | succ n ih =>
    rw [keyLoop, if_neg (h j (by omega) (by omega))]
    rcases Nat.eq_or_lt_of_le hj with rfl | hlt
    · rw [Nat.succ_eq_add_one] at hq ⊢
      split
      · rename_i hmatch
        rw [if_pos hmatch.2]
      · rename_i hmatch
        rw [if_neg fun hs => hmatch ⟨hq, hs⟩]
        -- the loop ends on the `=` it has just looked at
        cases n with
        | zero => rfl
        | succ n => rw [keyLoop, if_pos hq]
    · rw [if_neg fun hm => h (j + 1) (by omega) (by omega) hm.1]
      exact ih (by omega) (by omega) fun m h₁ h₂ => h m (by omega) h₂

theorem getD_ne {s : List UInt8} {a c : UInt8} (ha : a ∉ s) (hc : c ≠ a) (rest : List UInt8) {m : ℕ}
    (hm : m ≤ s.length) : (s ++ c :: rest).getD m 0 ≠ a := by
  rw [List.getD_eq_getElem?_getD]
  rcases Nat.eq_or_lt_of_le hm with rfl | hlt
  · rw [List.getElem?_append_right (Nat.le_refl _), Nat.sub_self]
    exact hc
  · rw [List.getElem?_append_left hlt, List.getElem?_eq_getElem hlt]
    exact fun h => ha (h ▸ List.getElem_mem hlt)

theorem cut_none {s : List UInt8} (h : byte '=' ∉ s) : cut s = none := if_neg h

theorem cut_eq {k : List UInt8} (hk : byte '=' ∉ k) (v : List UInt8) :
    cut (k ++ byte '=' :: v) = some k := by
  have hall : ∀ c ∈ k, decide (c ≠ byte '=') = true := fun c hc =>
    decide_eq_true fun heq => hk (heq ▸ hc)
  rw [cut, if_pos (by simp), List.takeWhile_append_of_pos hall]
  simp

/-- The text before the first `=`, and what is behind it. -/
theorem cut_eq_some {s k : List UInt8} (h : cut s = some k) :
    byte '=' ∉ k ∧ ∃ v, s = k ++ byte '=' :: v := by
  unfold cut at h
  split at h
  · rename_i hmem
    obtain ⟨l, r, rfl, hl⟩ := List.eq_append_cons_of_mem hmem
    have hcut := cut_eq hl r
    rw [cut, if_pos hmem] at hcut
    obtain rfl : l = k := (Option.some.inj hcut).symm.trans (Option.some.inj h)
    exact ⟨hl, r, rfl⟩
  · exact nomatch h

/-- The search for the key on a line of the buffer is `matchKey` on the line. -/
theorem lineKey_eq {key pre s rest : List UInt8} {c : UInt8} (hz : 0 ∉ s) (hc : c ≠ byte '=') :
    lineKey key (pre ++ (s ++ c :: rest)) pre.length (pre.length + s.length) =
      (matchKey key s).map (pre.length + ·) := by
  have hfirst : (pre ++ (s ++ c :: rest)).getD pre.length 0 = (s ++ c :: rest).getD 0 0 :=
    getD_behind pre _ 0
  rw [lineKey, Nat.add_sub_cancel_left, hfirst, matchKey]
  rcases Classical.em (byte '=' ∈ s) with heq | heq
  · obtain ⟨k, v, rfl, hk⟩ := List.eq_append_cons_of_mem heq
    rw [cut_eq hk]
    cases k with
    | nil =>
      have hat : (pre ++ byte '=' :: (v ++ c :: rest)).getD pre.length 0 = byte '=' := hfirst
      have hne : ¬ byte '=' = byte ';' := by decide
      rw [List.nil_append, List.cons_append, List.getD_cons_zero, if_neg hne, List.length_cons,
        keyLoop, if_pos hat]
      rfl
    | cons a k =>
      rw [show (a :: k ++ byte '=' :: v ++ c :: rest).getD 0 0 = a from rfl]
      rcases eq_or_ne a (byte ';') with rfl | ha
      · rw [if_pos rfl]
        simp
      · have hlen : (a :: k ++ byte '=' :: v).length = (a :: k).length + (v.length + 1) := by
          rw [List.length_append, List.length_cons (a := byte '=')]
        have hbefore : ∀ m, pre.length ≤ m → m < pre.length + (a :: k).length →
            (pre ++ (a :: k ++ byte '=' :: v ++ c :: rest)).getD m 0 ≠ byte '=' := by
          intro m h₁ h₂
          obtain ⟨i, rfl⟩ := Nat.exists_eq_add_of_le h₁
          rw [getD_behind, List.append_assoc, List.getD_eq_getElem?_getD,
            List.getElem?_append_left (by omega), List.getElem?_eq_getElem (by omega)]
          exact fun h => hk (h ▸ List.getElem_mem _)
        have hat : (pre ++ (a :: k ++ byte '=' :: v ++ c :: rest)).getD
            (pre.length + (a :: k).length) 0 = byte '=' := by
          rw [getD_behind, List.append_assoc]
          exact getD_behind (a :: k) _ 0
        have hzk : 0 ∉ a :: k := fun h => hz (List.mem_append_left _ h)
        have hcmp : strncmp key (a :: k ++ byte '=' :: v ++ c :: rest) (a :: k).length = 0 ↔
            a :: k <+: key := by
          rw [strncmp_comm, List.append_assoc, strncmp_eq_zero hzk]
        rw [if_neg ha, keyLoop_eq (q := pre.length + (a :: k).length) (by simp) (by omega) hbefore hat,
          List.drop_left, Nat.add_sub_cancel_left]
        simp only [hcmp, ne_eq, reduceCtorEq, not_false_eq_true, List.head?_cons, Option.some.injEq,
          ha, true_and]
        split <;> rfl
  · rw [cut_none heq]
    split
    · rfl
    · refine keyLoop_none fun m h₁ h₂ => ?_
      obtain ⟨i, rfl⟩ := Nat.exists_eq_add_of_le h₁
      rw [getD_behind]
      exact getD_ne heq hc rest (by omega)

/-! ### The loops at a position of the buffer -/

/-- The byte in front of the position starts a line, as does the position 0. -/
def lineStart (pre : List UInt8) : Bool := pre.getLast?.all newline

/-- From `i` on, `parse_file` returns `r`. -/
def Returns (sect key p : List UInt8) (i : ℕ) (f : Spans) (r : Bool × Spans) : Prop :=
  ∀ n, p.length ≤ i + n → fileLoop sect key p n i f = .ok r

/-- From the line of a section at `i` on, `parse_file` returns `r`. -/
def Inside (sect key p : List UInt8) (i : ℕ) (f : Spans) (r : Bool × Spans) : Prop :=
  ∃ o, (∀ n, p.length ≤ i + n → sectionLoop key p n i = .ok o) ∧
    match o with
    | .done j => i ≤ j ∧ Returns sect key p j f r
    | .found s j e => r = (true, { f with keyS := s, keyE := j - 1, valueS := j + 1, valueE := e })

/-- From the space behind a header at `i` on, `parse_file` returns `r`. -/
def Fresh (sect key p : List UInt8) (i : ℕ) (f : Spans) (r : Bool × Spans) : Prop :=
  ∃ b, i ≤ b ∧ scanTo (fun c => !isSpace c) (p.drop i) i = .ok b ∧
    Inside sect key p b { f with secE := b } r

section
variable {sect key pre rest : List UInt8} {f : Spans} {r : Bool × Spans} {c : UInt8}

theorem getElem?_here (pre rest : List UInt8) (c : UInt8) :
    (pre ++ c :: rest)[pre.length]? = some c := by
  rw [List.getElem?_append_right (Nat.le_refl _), Nat.sub_self, List.getElem?_cons_zero]

theorem lineStart_eq (pre rest : List UInt8) :
    (pre.length = 0 || newline ((pre ++ rest).getD (pre.length - 1) 0)) = lineStart pre := by
  rcases List.eq_nil_or_concat pre with rfl | ⟨s, d, rfl⟩
  · rfl
  · have hlen : (s.concat d).length ≠ 0 := by simp
    have hat : (s.concat d ++ rest).getD ((s.concat d).length - 1) 0 = d := by
      rw [List.length_concat, Nat.add_sub_cancel, List.concat_eq_append, List.append_assoc]
      exact getD_behind s _ 0
    rw [hat, lineStart, List.concat_eq_append, List.getLast?_append]
    simp

/-- The buffer reaches to the position at least. -/
theorem fuel_pos {n : ℕ} (h : (pre ++ c :: rest).length ≤ pre.length + n) : ∃ m, n = m + 1 := by
  rw [List.length_append, List.length_cons] at h
  exact ⟨n - 1, by omega⟩

theorem returns_end : Returns sect key (pre ++ 0 :: rest) pre.length f (false, f) := by
  intro n hn
  obtain ⟨n, rfl⟩ := fuel_pos hn
  rw [fileLoop, getElem?_here]
  rfl

/-- A byte that starts no header is passed over. -/
theorem returns_skip (hc : c ≠ 0) (hh : lineStart pre = true → c ≠ byte '[')
    (h : Returns sect key (pre ++ c :: rest) (pre.length + 1) f r) :
    Returns sect key (pre ++ c :: rest) pre.length f r := by
  intro n hn
  obtain ⟨n, rfl⟩ := fuel_pos hn
  have hz : ¬ endOfString c = true := by simpa [endOfString] using hc
  have hb : ¬ (lineStart pre && leftBarce c) = true := by
    simpa [leftBarce] using hh
  rw [fileLoop, getElem?_here]
  dsimp only
  rw [if_neg hz, lineStart_eq, if_neg hb]
  exact h n (by omega)

/-- The name of a header: neither its end nor the end of the text is inside it. -/
def Named (name : List UInt8) : Prop := ∀ c ∈ name, c ≠ byte ']' ∧ c ≠ 0

theorem Named.zero {name : List UInt8} (h : Named name) : 0 ∉ name := fun hm => (h 0 hm).2 rfl

theorem Named.scan {name : List UInt8} (h : Named name) {d : UInt8} (hd : d = byte ']' ∨ d = 0)
    (rest : List UInt8) (i : ℕ) :
    scanTo (fun c => isrightBrace c || endOfString c) (name ++ d :: rest) i =
      .ok (i + name.length) := by
  refine scanTo_eq ?_ ?_ rest i
  · intro c hc
    simpa [isrightBrace, endOfString] using h c hc
  · simpa [isrightBrace, endOfString] using hd

/-- The rest of the buffer behind a part of it. -/
theorem drop_behind (pre s rest : List UInt8) :
    (pre ++ (s ++ rest)).drop (pre.length + s.length) = rest := by
  rw [← List.append_assoc, ← List.length_append, List.drop_left]

/-- At a header the code looks for the `]` and compares. -/
theorem returns_header {name : List UInt8} {d : UInt8} (hl : lineStart pre = true)
    (hn : Named name) (hd : d = byte ']' ∨ d = 0)
    (h : if name <+: sect then
        Fresh sect key (pre ++ byte '[' :: (name ++ d :: rest)) (pre.length + name.length + 2)
          { f with secS := pre.length + 1 } r
      else Returns sect key (pre ++ byte '[' :: (name ++ d :: rest)) (pre.length + name.length + 1)
        f r) :
    Returns sect key (pre ++ byte '[' :: (name ++ d :: rest)) pre.length f r := by
  intro n hlen
  obtain ⟨n, rfl⟩ := fuel_pos hlen
  have hz : ¬ endOfString (byte '[') = true := by decide
  have hb : (lineStart pre && leftBarce (byte '[')) = true := by rw [hl]; rfl
  have hdrop : (pre ++ byte '[' :: (name ++ d :: rest)).drop (pre.length + 1) = name ++ d :: rest :=
    drop_behind pre [byte '['] _
  rw [fileLoop, getElem?_here]
  dsimp only
  rw [if_neg hz, lineStart_eq, if_pos hb, hdrop, hn.scan hd]
  simp only [bind, Except.bind, Nat.add_sub_cancel_left, strncmp_eq_zero hn.zero]
  split at h
  · rename_i hpre
    obtain ⟨b, hib, hscan, o, hsec, ho⟩ := h
    have hpos : pre.length + 1 + name.length + 1 = pre.length + name.length + 2 := by omega
    rw [if_pos hpre, hpos, hscan]
    dsimp only
    rw [hsec _ (by omega)]
    cases o with
    | done j => exact ho.2 n (by omega)
    | found s j e => exact congrArg Except.ok ho.symm
  · rename_i hpre
    rw [if_neg hpre, Nat.add_right_comm]
    exact h n (by omega)

/-- The lines of a section end at the next header and at the end of the text. -/
theorem inside_stop (hp : pre ≠ []) (hc : c = 0 ∨ lineStart pre = true ∧ c = byte '[')
    (h : Returns sect key (pre ++ c :: rest) pre.length f r) :
    Inside sect key (pre ++ c :: rest) pre.length f r := by
  refine ⟨.done pre.length, ?_, Nat.le_refl _, h⟩
  intro n hn
  obtain ⟨n, rfl⟩ := fuel_pos hn
  have hlen : decide (pre.length = 0) = false := by simpa using hp
  have hline := lineStart_eq pre (c :: rest)
  rw [hlen, Bool.false_or] at hline
  have hstop : (lineStart pre && leftBarce c || endOfString c) = true := by
    rcases hc with rfl | ⟨hl, rfl⟩
    · simp [endOfString]
    · simp [hl, leftBarce]
  rw [sectionLoop, getElem?_here]
  dsimp only
  rw [hline, if_pos hstop]

/-- A line of a section, up to its end. -/
structure IsLine (pre s : List UInt8) (c : UInt8) : Prop where
  text : ∀ b ∈ s, newline b = false ∧ b ≠ 0
  stop : newline c = true ∨ c = 0 ∧ s ≠ []
  head : lineStart pre = true → s.head? ≠ some (byte '[')

theorem IsLine.zero {s : List UInt8} (h : IsLine pre s c) : 0 ∉ s := fun hm => (h.text 0 hm).2 rfl

variable (key) in
theorem sectionLoop_line {s : List UInt8} (hp : pre ≠ []) (hl : IsLine pre s c) {n : ℕ}
    (hn : (pre ++ (s ++ c :: rest)).length ≤ pre.length + n) :
    ∃ m, n = m + 1 ∧ sectionLoop key (pre ++ (s ++ c :: rest)) n pre.length =
      match matchKey key s with
      | some k => .ok (.found pre.length (pre.length + k) (pre.length + s.length))
      | none => sectionLoop key (pre ++ (s ++ c :: rest)) m (pre.length + s.length + 1) := by
  obtain ⟨d, t, hdt, hd⟩ : ∃ d t, s ++ c :: rest = d :: t ∧
      (lineStart pre && leftBarce d || endOfString d) = false := by
    cases s with
    | nil =>
      have hc : newline c = true := by simpa using hl.stop
      have hb : c ≠ byte '[' := ne_of_space (newline_space hc) rfl
      have hz : c ≠ 0 := ne_of_space (newline_space hc) rfl
      exact ⟨c, rest, rfl, by simp [leftBarce, endOfString, hb, hz]⟩
    | cons b s =>
      refine ⟨b, s ++ c :: rest, rfl, ?_⟩
      have hb := (hl.text b List.mem_cons_self).2
      have hh := hl.head
      simp only [List.head?_cons, ne_eq, Option.some.injEq] at hh
      simp [leftBarce, endOfString, hb]
      exact hh
  have hscan : scanTo (fun c => newline c || endOfString c) (s ++ c :: rest) pre.length =
      .ok (pre.length + s.length) := by
    refine scanTo_eq ?_ ?_ rest _
    · intro b hb
      simpa [endOfString] using hl.text b hb
    · rcases hl.stop with h | ⟨h, -⟩
      · simp [h]
      · simp [h, endOfString]
  have hne : c ≠ byte '=' := by
    rcases hl.stop with h | ⟨rfl, -⟩
    · exact ne_of_space (newline_space h) rfl
    · decide
  have hlen : decide (pre.length = 0) = false := by simpa using hp
  have hline := lineStart_eq pre (s ++ c :: rest)
  rw [hlen, Bool.false_or] at hline
  have hhere : (pre ++ (s ++ c :: rest))[pre.length]? = some d := by rw [hdt]; exact getElem?_here _ _ _
  obtain ⟨m, rfl⟩ : ∃ m, n = m + 1 := by
    rw [hdt] at hn
    exact fuel_pos hn
  refine ⟨m, rfl, ?_⟩
  rw [sectionLoop, hhere]
  dsimp only
  rw [hline, if_neg (by rw [hd]; exact Bool.false_ne_true), List.drop_left, hscan]
  simp only [bind, Except.bind, lineKey_eq hl.zero hne]
  cases matchKey key s with
  | none => rfl
  | some k => rfl

variable (sect rest f) in
theorem inside_found {s : List UInt8} {k : ℕ} (hp : pre ≠ []) (hl : IsLine pre s c)
    (hk : matchKey key s = some k) :
    Inside sect key (pre ++ (s ++ c :: rest)) pre.length f
      (true, { f with
        keyS := pre.length, keyE := (pre.length + k : ℕ) - 1
        valueS := (pre.length + k : ℕ) + 1, valueE := (pre.length + s.length : ℕ) }) := by
  refine ⟨.found pre.length (pre.length + k) (pre.length + s.length), ?_, rfl⟩
  intro n hn
  obtain ⟨m, rfl, hstep⟩ := sectionLoop_line key hp hl hn
  rw [hstep, hk]

theorem inside_next {s : List UInt8} (hp : pre ≠ []) (hl : IsLine pre s c)
    (hk : matchKey key s = none)
    (h : Inside sect key (pre ++ (s ++ c :: rest)) (pre.length + s.length + 1) f r) :
    Inside sect key (pre ++ (s ++ c :: rest)) pre.length f r := by
  obtain ⟨o, ho, hr⟩ := h
  refine ⟨o, ?_, ?_⟩
  · intro n hn
    obtain ⟨m, rfl, hstep⟩ := sectionLoop_line key hp hl hn
    rw [hstep, hk]
    exact ho m (by omega)
  · cases o with
    | done j => exact ⟨by omega, hr.2⟩
    | found s j e => exact hr

end

end AcqBoard.Ini
