import AcqBoard.Ini.Scanner
import Mathlib.Data.List.TakeWhile

/-! What the scanner sees in a text.

    A text is a list of headers and lines with whatever follows the last line. The scanner walks over
    it with three states: outside of a section that passes for the one asked for, in the white space
    behind such a section's header, and among its lines. `parseFile_document` says that `parse_file`
    is this walk. Every text without a NUL is a document (`exists_document`), and which one does not
    depend on the section and the key. -/

namespace AcqBoard.Ini
open Schemes

inductive Token where
  | header (name : List UInt8)                -- `[name]`, and not the end of its line
  | line (text : List UInt8) (nl : UInt8)     -- a line with its CR or LF

/-- What follows the last CR or LF: a line without one, or a header without its `]`. -/
inductive Tail where
  | line (text : List UInt8)
  | opened (name : List UInt8)

structure Document where
  tokens : List Token
  tail : Tail

def Token.bytes : Token → List UInt8
  | .header name => byte '[' :: (name ++ [byte ']'])
  | .line text nl => text ++ [nl]

def Tail.bytes : Tail → List UInt8
  | .line text => text
  | .opened name => byte '[' :: name

def bytesOf (ts : List Token) : List UInt8 := ts.flatMap Token.bytes

def Document.bytes (d : Document) : List UInt8 := bytesOf d.tokens ++ d.tail.bytes

/-- The text of a line: no header where a line starts. -/
structure Plain (start : Bool) (text : List UInt8) : Prop where
  inner : ∀ b ∈ text, newline b = false ∧ b ≠ 0
  head : start = true → text.head? ≠ some (byte '[')

/-- A token can stand where a line starts, or in the middle of one. -/
def Token.Fits : Bool → Token → Prop
  | start, .header name => start = true ∧ Named name
  | start, .line text nl => newline nl = true ∧ Plain start text

def Tail.Fits : Bool → Tail → Prop
  | start, .line text => Plain start text
  | start, .opened name => start = true ∧ Named name

/-- Whether a line starts behind the token. -/
def Token.starts : Token → Bool
  | .header _ => false
  | .line _ _ => true

def Tokens : Bool → List Token → Prop
  | _, [] => True
  | start, t :: ts => t.Fits start ∧ Tokens t.starts ts

/-- Whether a line starts behind the tokens. -/
def startAfter : Bool → List Token → Bool
  | start, [] => start
  | _, t :: ts => startAfter t.starts ts

structure Document.Valid (d : Document) : Prop where
  tokens : Tokens true d.tokens
  tail : d.tail.Fits (startAfter true d.tokens)

theorem tokens_append {ts us : List Token} {start : Bool} : Tokens start (ts ++ us) ↔
    Tokens start ts ∧ Tokens (startAfter start ts) us := by
  induction ts generalizing start with
  | nil => simp [Tokens, startAfter]
  | cons t ts ih => simp [Tokens, startAfter, ih, and_assoc]

theorem startAfter_append {ts us : List Token} {start : Bool} :
    startAfter start (ts ++ us) = startAfter (startAfter start ts) us := by
  induction ts generalizing start with
  | nil => rfl
  | cons t ts ih => exact ih

theorem Plain.zero {start : Bool} {text : List UInt8} (h : Plain start text) : 0 ∉ text :=
  fun hm => (h.inner 0 hm).2 rfl

theorem Token.Fits.zero {start : Bool} {t : Token} (h : t.Fits start) : 0 ∉ t.bytes := by
  have h₁ : (0 : UInt8) ≠ byte '[' := by decide
  have h₂ : (0 : UInt8) ≠ byte ']' := by decide
  cases t with
  | header name => simp [Token.bytes, h₁, h₂, h.2.zero]
  | line text nl =>
    have hnl : nl ≠ 0 := by
      rintro rfl
      exact absurd h.1 (by decide)
    simp [Token.bytes, h.2.zero, hnl.symm]

theorem tokens_zero {ts : List Token} {start : Bool} (h : Tokens start ts) : 0 ∉ bytesOf ts := by
  induction ts generalizing start with
  | nil => simp [bytesOf]
  | cons t ts ih =>
    intro hm
    rcases List.mem_append.mp (List.flatMap_cons ▸ hm : 0 ∈ t.bytes ++ bytesOf ts) with hm | hm
    · exact h.1.zero hm
    · exact ih h.2 hm

/-- The text of a document is a string. -/
theorem Document.Valid.zero {d : Document} (hd : d.Valid) : 0 ∉ d.bytes := by
  intro hm
  rcases List.mem_append.mp hm with hm | hm
  · exact tokens_zero hd.tokens hm
  · have hfits := hd.tail
    cases htail : d.tail with
    | line text =>
      rw [htail] at hfits hm
      exact hfits.zero hm
    | opened name =>
      rw [htail] at hfits hm
      rcases List.mem_cons.mp hm with h | h
      · exact absurd h (by decide)
      · exact hfits.2.zero h

/-! ### The walk -/

inductive Place where
  | outside   -- in no section, or in one with another name
  | fresh     -- in the white space behind a header
  | inside    -- among the lines of a section
  deriving DecidableEq

structure Walk where
  place : Place := .outside
  pos : ℕ := 0
  spans : Spans := {}

/-- The white space that the scanner skips in front of a line. -/
def Place.skipped (p : Place) (text : List UInt8) : ℕ :=
  if p = .fresh then (text.takeWhile isSpace).length else 0

/-- The spans at the first byte of a line that is looked at. -/
def Walk.entered (w : Walk) (text : List UInt8) : Spans :=
  if w.place = .fresh then { w.spans with secE := (w.pos + w.place.skipped text : ℕ) } else w.spans

@[simp] theorem entered_keyS (w : Walk) (text : List UInt8) :
    (w.entered text).keyS = w.spans.keyS := by
  rw [Walk.entered]
  split <;> rfl

@[simp] theorem entered_secS (w : Walk) (text : List UInt8) :
    (w.entered text).secS = w.spans.secS := by
  rw [Walk.entered]
  split <;> rfl

/-- The spans of an entry of the line, with its `=` at `k`. -/
def Walk.entry (w : Walk) (text : List UInt8) (k : ℕ) : Spans :=
  { w.entered text with
    keyS := (w.pos + w.place.skipped text : ℕ)
    keyE := (w.pos + w.place.skipped text + k : ℕ) - 1
    valueS := (w.pos + w.place.skipped text + k : ℕ) + 1
    valueE := (w.pos + text.length : ℕ) }

/-- A line of `len` bytes, its end included: the walk goes on, or ends with an entry. -/
def Walk.readLine (key : List UInt8) (w : Walk) (text : List UInt8) (len : ℕ) : Except Spans Walk :=
  if w.place = .outside then .ok { w with pos := w.pos + len }
  else if w.place = .fresh ∧ text.all isSpace = true then
    .ok { w with pos := w.pos + len, spans := { w.spans with secE := (w.pos + len : ℕ) } }
  else match matchKey key (text.drop (w.place.skipped text)) with
    | none => .ok { place := .inside, pos := w.pos + len, spans := w.entered text }
    | some k => .error (w.entry text k)

theorem readLine_outside {key : List UInt8} {w : Walk} (h : w.place = .outside)
    (text : List UInt8) (len : ℕ) :
    w.readLine key text len = .ok { w with pos := w.pos + len } := if_pos h

theorem readLine_blank {key : List UInt8} {w : Walk} {text : List UInt8} (h : w.place = .fresh)
    (hb : ∀ b ∈ text, isSpace b = true) (len : ℕ) :
    w.readLine key text len = .ok { w with
      pos := w.pos + len, spans := { w.spans with secE := (w.pos + len : ℕ) } } := by
  rw [Walk.readLine, if_neg (by simp [h]), if_pos ⟨h, List.all_eq_true.mpr hb⟩]

theorem readLine_entered {key : List UInt8} {w : Walk} {text : List UInt8}
    (hout : w.place ≠ .outside) (hb : ¬ (w.place = .fresh ∧ ∀ b ∈ text, isSpace b = true))
    (len : ℕ) : w.readLine key text len =
      match matchKey key (text.drop (w.place.skipped text)) with
      | none => .ok { place := .inside, pos := w.pos + len, spans := w.entered text }
      | some k => .error (w.entry text k) := by
  rw [Walk.readLine, if_neg hout, if_neg fun h => hb ⟨h.1, List.all_eq_true.mp h.2⟩]

/-- A header of `len` bytes. -/
def Walk.readHeader (sect : List UInt8) (w : Walk) (name : List UInt8) (len : ℕ) : Walk :=
  if name <+: sect then
    { place := .fresh, pos := w.pos + len
      spans := { w.spans with secS := w.pos + 1, secE := (w.pos + len : ℕ) } }
  else { w with place := .outside, pos := w.pos + len }

theorem readHeader_fresh {sect name : List UInt8} (h : name <+: sect) (w : Walk) (len : ℕ) :
    w.readHeader sect name len =
      { place := .fresh, pos := w.pos + len
        spans := { w.spans with secS := w.pos + 1, secE := (w.pos + len : ℕ) } } := if_pos h

theorem readHeader_outside {sect name : List UInt8} (h : ¬ name <+: sect) (w : Walk) (len : ℕ) :
    w.readHeader sect name len = { w with place := .outside, pos := w.pos + len } := if_neg h

def step (sect key : List UInt8) (w : Walk) : Token → Except Spans Walk
  | .header name => .ok (w.readHeader sect name (name.length + 2))
  | .line text _ => w.readLine key text (text.length + 1)

/-- The answer of a walk that is at the end of the text, or has come to an entry. -/
def answer : Except Spans Walk → Bool × Spans
  | .ok w => (false, w.spans)
  | .error f => (true, f)

/-- The walk over what follows the last line. -/
def readTail (sect key : List UInt8) (w : Walk) : Tail → Except Spans Walk
  | .line text => w.readLine key text text.length
  | .opened name => .ok (w.readHeader sect name (name.length + 2))

/-- The answer for a document. -/
def Document.lookUp (sect key : List UInt8) (d : Document) : Bool × Spans :=
  answer (run (step sect key) {} d.tokens >>= fun w => readTail sect key w d.tail)

/-! ### The code walks -/

/-- The walk stands behind the bytes `pre`. -/
structure Walk.At (w : Walk) (pre : List UInt8) : Prop where
  pos : w.pos = pre.length
  ne : w.place ≠ .outside → pre ≠ []
  secE : w.place = .fresh → w.spans.secE = w.pos

/-- From where the walk stands, `parse_file` returns `r`. -/
def Walk.Resumes (sect key p : List UInt8) (w : Walk) (r : Bool × Spans) : Prop :=
  match w.place with
  | .outside => Returns sect key p w.pos w.spans r
  | .fresh => Fresh sect key p w.pos w.spans r
  | .inside => Inside sect key p w.pos w.spans r

section
variable {sect key pre rest : List UInt8} {w : Walk} {r : Bool × Spans} {c : UInt8}

@[simp] theorem lineStart_concat (pre : List UInt8) (c : UInt8) :
    lineStart (pre ++ [c]) = newline c := by
  rw [lineStart, List.getLast?_concat]
  rfl

theorem spans_secE {f : Spans} {x : ℤ} (h : f.secE = x) : { f with secE := x } = f := by
  rw [← h]

/-- Behind the white space of a header. -/
theorem fresh_of_inside {f : Spans} (hc : isSpace c = false)
    (h : Inside sect key (pre ++ c :: rest) pre.length { f with secE := pre.length } r) :
    Fresh sect key (pre ++ c :: rest) pre.length f r := by
  refine ⟨pre.length, Nat.le_refl _, ?_, h⟩
  rw [List.drop_left]
  exact scanTo_stop (by simp [hc]) rest _

/-- At a header and at the end of the text every place is like outside. -/
theorem resumes_of_returns (hat : w.At pre) (hc : c = 0 ∨ lineStart pre = true ∧ c = byte '[')
    (h : Returns sect key (pre ++ c :: rest) pre.length w.spans r) :
    w.Resumes sect key (pre ++ c :: rest) r := by
  have hspace : isSpace c = false := by
    rcases hc with rfl | ⟨-, rfl⟩
    · rfl
    · rfl
  obtain ⟨place, pos, spans⟩ := w
  obtain ⟨rfl, hne, hsec⟩ := hat
  cases place with
  | outside => exact h
  | fresh =>
    refine fresh_of_inside hspace ?_
    rw [spans_secE (hsec rfl)]
    exact inside_stop (hne (by simp)) hc h
  | inside => exact inside_stop (hne (by simp)) hc h

theorem returns_line {text : List UInt8} {f : Spans} (ht : Plain (lineStart pre) text)
    (h : Returns sect key (pre ++ (text ++ rest)) (pre.length + text.length) f r) :
    Returns sect key (pre ++ (text ++ rest)) pre.length f r := by
  induction text generalizing pre with
  | nil => exact h
  | cons b text ih =>
    have hb := ht.inner b List.mem_cons_self
    have hhead : lineStart pre = true → b ≠ byte '[' := fun hl heq => ht.head hl (by rw [heq]; rfl)
    have ht' : Plain (lineStart (pre ++ [b])) text := by
      refine ⟨fun d hd => ht.inner d (List.mem_cons_of_mem b hd), ?_⟩
      rw [lineStart_concat, hb.1]
      exact fun hf => Bool.noConfusion hf
    have hassoc : pre ++ (b :: text ++ rest) = pre ++ [b] ++ (text ++ rest) := by simp
    have hlen : pre.length + (b :: text).length = (pre ++ [b]).length + text.length := by
      simp only [List.length_cons, List.length_append, List.length_nil]
      omega
    refine returns_skip hb.2 hhead ?_
    rw [hlen, hassoc] at h
    have hrest := ih ht' h
    rw [List.length_append, ← hassoc] at hrest
    exact hrest

/-- The white space behind a header is skipped. -/
theorem fresh_skip {s : List UInt8} {f : Spans} {x : ℤ} (hs : ∀ b ∈ s, isSpace b = true)
    (h : Fresh sect key (pre ++ (s ++ rest)) (pre.length + s.length) { f with secE := x } r) :
    Fresh sect key (pre ++ (s ++ rest)) pre.length f r := by
  obtain ⟨b, hb, hscan, hin⟩ := h
  refine ⟨b, by omega, ?_, hin⟩
  rw [List.drop_left, scanTo_skip (by simpa using hs)]
  rw [drop_behind] at hscan
  exact hscan

theorem isLine_drop {text : List UInt8} {k : ℕ} (ht : Plain (lineStart pre) text)
    (hc : newline c = true ∨ c = 0 ∧ text.drop k ≠ []) :
    IsLine (pre ++ text.take k) (text.drop k) c := by
  refine ⟨fun b hb => ht.inner b (List.mem_of_mem_drop hb), hc, ?_⟩
  rcases List.eq_nil_or_concat (text.take k) with hnil | ⟨s, b, hs⟩
  · have hdrop : text.drop k = text := by simpa [hnil] using List.take_append_drop k text
    rw [hnil, List.append_nil, hdrop]
    exact ht.head
  · have hb : b ∈ text := List.mem_of_mem_take (i := k) (by simp [hs])
    rw [hs, List.concat_eq_append, ← List.append_assoc, lineStart_concat, (ht.inner b hb).1]
    exact fun hf => Bool.noConfusion hf

theorem take_skipped {text : List UInt8} : text.take (Place.fresh.skipped text) =
    text.takeWhile isSpace := by
  conv_lhs => rw [← List.takeWhile_append_dropWhile (p := isSpace) (l := text)]
  exact List.take_left' (by simp [Place.skipped])

theorem drop_skipped {text : List UInt8} : text.drop (Place.fresh.skipped text) =
    text.dropWhile isSpace := by
  conv_lhs => rw [← List.takeWhile_append_dropWhile (p := isSpace) (l := text)]
  exact List.drop_left' (by simp [Place.skipped])

/-- Past the white space in front of it, the line is looked at. -/
theorem resumes_of_entered {text : List UInt8} (hat : w.At pre) (hout : w.place ≠ .outside)
    (hblank : ¬ (w.place = .fresh ∧ ∀ b ∈ text, isSpace b = true))
    (h : Inside sect key (pre ++ (text ++ c :: rest)) (pre.length + w.place.skipped text)
      (w.entered text) r) :
    w.Resumes sect key (pre ++ (text ++ c :: rest)) r := by
  obtain ⟨place, pos, spans⟩ := w
  obtain ⟨rfl, hne, hsec⟩ := hat
  cases place with
  | outside => exact (hout rfl).elim
  | inside => exact h
  | fresh =>
    have hsplit : text = text.takeWhile isSpace ++ text.dropWhile isSpace :=
      (List.takeWhile_append_dropWhile).symm
    obtain ⟨b, t, hbt⟩ : ∃ b t, text.dropWhile isSpace = b :: t := by
      refine List.exists_cons_of_ne_nil fun hnil => hblank ⟨rfl, ?_⟩
      exact List.dropWhile_eq_nil_iff.mp hnil
    have hb : isSpace b = false := by
      have := List.head_dropWhile_not isSpace (l := text) (by simp [hbt])
      simpa [hbt] using this
    refine ⟨pre.length + Place.fresh.skipped text, Nat.le_add_right _ _, ?_, h⟩
    rw [List.drop_left]
    conv_lhs => rw [hsplit, hbt, List.append_assoc]
    refine scanTo_eq ?_ (by simp [hb]) _ _
    intro d hd
    simpa using List.mem_takeWhile_imp hd

variable (sect key rest) in
theorem resumes_entered {text : List UInt8} (hat : w.At pre) (ht : Plain (lineStart pre) text)
    (hout : w.place ≠ .outside) (hblank : ¬ (w.place = .fresh ∧ ∀ b ∈ text, isSpace b = true))
    (hc : newline c = true ∨ c = 0 ∧ text.drop (w.place.skipped text) ≠ []) :
    match matchKey key (text.drop (w.place.skipped text)) with
    | none => ∀ {r}, Inside sect key (pre ++ (text ++ c :: rest)) (pre.length + text.length + 1)
        (w.entered text) r → w.Resumes sect key (pre ++ (text ++ c :: rest)) r
    | some k => w.Resumes sect key (pre ++ (text ++ c :: rest)) (true, w.entry text k) := by
  have hpre : pre ≠ [] := hat.ne hout
  have hk : w.place.skipped text ≤ text.length := by
    unfold Place.skipped
    split
    · exact (List.takeWhile_sublist _).length_le
    · exact Nat.zero_le _
  have hlen : (pre ++ text.take (w.place.skipped text)).length =
      pre.length + w.place.skipped text := by
    rw [List.length_append, List.length_take, Nat.min_eq_left hk]
  have hbuf : pre ++ (text ++ c :: rest) = pre ++ text.take (w.place.skipped text) ++
      (text.drop (w.place.skipped text) ++ c :: rest) := by
    rw [List.append_assoc, ← List.append_assoc (text.take _), List.take_append_drop]
  have hend : (pre ++ text.take (w.place.skipped text)).length +
      (text.drop (w.place.skipped text)).length = pre.length + text.length := by
    rw [hlen, List.length_drop]
    omega
  have hne : pre ++ text.take (w.place.skipped text) ≠ [] := by simp [hpre]
  have hl := isLine_drop ht hc
  split
  · rename_i hm
    intro r h
    refine resumes_of_entered hat hout hblank ?_
    rw [hbuf, ← hend] at h
    rw [hbuf, ← hlen]
    exact inside_next hne hl hm h
  · rename_i k hm
    refine resumes_of_entered hat hout hblank ?_
    have hin := inside_found sect rest (w.entered text) hne hl hm
    rw [hend, hlen, ← hbuf, ← hat.pos] at hin
    rw [← hat.pos]
    exact hin

variable (sect key rest) in
/-- The header of another section is passed over, that of a matching one is entered. -/
theorem resumes_readHeader {name : List UInt8} (hat : w.At pre) (hl : lineStart pre = true)
    (hn : Named name) :
    (w.readHeader sect name (name.length + 2)).At (pre ++ (Token.header name).bytes) ∧
      ((w.readHeader sect name (name.length + 2)).Resumes sect key
        (pre ++ ((Token.header name).bytes ++ rest)) r →
        w.Resumes sect key (pre ++ ((Token.header name).bytes ++ rest)) r) := by
  have hbuf : pre ++ ((Token.header name).bytes ++ rest) =
      pre ++ byte '[' :: (name ++ byte ']' :: rest) := by simp [Token.bytes]
  have hlen : pre.length + (Token.header name).bytes.length = pre.length + name.length + 2 := by
    simp only [Token.bytes, List.length_cons, List.length_append, List.length_nil]
    omega
  have hpos : w.pos + (name.length + 2) = (pre ++ (Token.header name).bytes).length := by
    rw [List.length_append, hlen, hat.pos, Nat.add_assoc]
  constructor
  · rcases Classical.em (name <+: sect) with hpre | hpre
    · rw [readHeader_fresh hpre]
      exact ⟨hpos, fun _ => by simp [Token.bytes], fun _ => rfl⟩
    · rw [readHeader_outside hpre]
      exact ⟨hpos, fun h => (h rfl).elim, fun h => Place.noConfusion h⟩
  · intro h
    rw [hbuf] at h ⊢
    refine resumes_of_returns hat (Or.inr ⟨hl, rfl⟩) (returns_header hl hn (Or.inl rfl) ?_)
    rcases Classical.em (name <+: sect) with hpre | hpre
    · rw [readHeader_fresh hpre] at h
      rw [if_pos hpre]
      obtain ⟨b, hb, hscan, hin⟩ : Fresh sect key (pre ++ byte '[' :: (name ++ byte ']' :: rest))
        (w.pos + (name.length + 2)) _ r := h
      rw [hat.pos, ← Nat.add_assoc] at hb hscan
      rw [hat.pos] at hin
      exact ⟨b, hb, hscan, hin⟩
    · rw [readHeader_outside hpre] at h
      rw [if_neg hpre]
      have hend : pre ++ byte '[' :: (name ++ byte ']' :: rest) =
          pre ++ byte '[' :: name ++ byte ']' :: rest := by simp
      have hpos : (pre ++ byte '[' :: name).length = pre.length + name.length + 1 := by
        simp only [List.length_append, List.length_cons]
        omega
      have hret : Returns sect key (pre ++ byte '[' :: (name ++ byte ']' :: rest))
        (w.pos + (name.length + 2)) w.spans r := h
      rw [hend, ← hpos]
      refine returns_skip (by decide) (fun _ => by decide) ?_
      rw [← hend, hpos]
      rw [hat.pos] at hret
      exact hret

/-- Outside every byte is passed over. -/
theorem resumes_line_outside {text : List UInt8} (hat : w.At pre) (ht : Plain (lineStart pre) text)
    (hc : newline c = true) (hout : w.place = .outside)
    (h : Walk.Resumes sect key (pre ++ (text ++ c :: rest))
      { w with pos := w.pos + (text.length + 1) } r) :
    w.Resumes sect key (pre ++ (text ++ c :: rest)) r := by
  unfold Walk.Resumes at h ⊢
  dsimp only at h
  rw [hout] at h ⊢
  dsimp only at h ⊢
  rw [hat.pos] at h ⊢
  refine returns_line ht ?_
  rw [← List.append_assoc, ← List.length_append]
  refine returns_skip (ne_of_space (newline_space hc) rfl)
    (fun _ => ne_of_space (newline_space hc) rfl) ?_
  rw [List.append_assoc, List.length_append, Nat.add_assoc]
  exact h

/-- A blank line behind a header is passed over with the white space. -/
theorem resumes_line_blank {text : List UInt8} (hat : w.At pre) (hc : newline c = true)
    (hfresh : w.place = .fresh) (hall : ∀ b ∈ text, isSpace b = true)
    (h : Walk.Resumes sect key (pre ++ (text ++ c :: rest)) { w with
      pos := w.pos + (text.length + 1)
      spans := { w.spans with secE := (w.pos + (text.length + 1) : ℕ) } } r) :
    w.Resumes sect key (pre ++ (text ++ c :: rest)) r := by
  have hbuf : pre ++ (text ++ c :: rest) = pre ++ (text ++ [c] ++ rest) := by simp
  have hspace : ∀ b ∈ text ++ [c], isSpace b = true := by
    intro b hb
    rcases List.mem_append.mp hb with hb | hb
    · exact hall b hb
    · rw [List.mem_singleton.mp hb]
      exact newline_space hc
  unfold Walk.Resumes at h ⊢
  dsimp only at h
  rw [hfresh] at h ⊢
  dsimp only at h ⊢
  rw [hat.pos] at h ⊢
  rw [hbuf] at h ⊢
  refine fresh_skip (x := ((pre.length + (text.length + 1) : ℕ) : ℤ)) hspace ?_
  rw [List.length_append, List.length_singleton]
  exact h

variable (sect key rest) in
/-- A line is passed over, or ends the walk. -/
theorem resumes_readLine {text : List UInt8} (hat : w.At pre) (ht : Plain (lineStart pre) text)
    (hc : newline c = true) :
    match w.readLine key text (text.length + 1) with
    | .ok w' => w'.At (pre ++ (Token.line text c).bytes) ∧
        ∀ {r}, w'.Resumes sect key (pre ++ (text ++ c :: rest)) r →
          w.Resumes sect key (pre ++ (text ++ c :: rest)) r
    | .error f => w.Resumes sect key (pre ++ (text ++ c :: rest)) (true, f) := by
  have hpos : w.pos + (text.length + 1) = (pre ++ (Token.line text c).bytes).length := by
    rw [hat.pos, List.length_append, Token.bytes, List.length_append, List.length_singleton]
  have hne : pre ++ (Token.line text c).bytes ≠ [] := by simp [Token.bytes]
  rcases eq_or_ne w.place .outside with hout | hout
  · rw [readLine_outside hout]
    refine ⟨⟨hpos, fun h => (h hout).elim, fun h => ?_⟩, resumes_line_outside hat ht hc hout⟩
    exact Place.noConfusion (hout.symm.trans h)
  rcases Classical.em (w.place = .fresh ∧ ∀ b ∈ text, isSpace b = true) with hblank | hblank
  · obtain ⟨hfresh, hall⟩ := hblank
    rw [readLine_blank hfresh hall]
    exact ⟨⟨hpos, fun _ => hne, fun _ => rfl⟩, resumes_line_blank hat hc hfresh hall⟩
  · have hin := resumes_entered sect key rest hat ht hout hblank (Or.inl hc)
    rw [readLine_entered hout hblank]
    cases hm : matchKey key (text.drop (w.place.skipped text)) with
    | none =>
      rw [hm] at hin
      refine ⟨⟨hpos, fun _ => hne, fun h => Place.noConfusion h⟩, ?_⟩
      intro r h
      unfold Walk.Resumes at h
      dsimp only at h
      rw [hat.pos] at h
      exact hin h
    | some k =>
      rw [hm] at hin
      exact hin

/-- Outside of a section that passes, behind nothing but white space and where a line would start, the
    scanner stops at the NUL. -/
theorem resumes_tail_stop {text : List UInt8} (hat : w.At pre) (ht : Plain (lineStart pre) text)
    (hstop : w.place = .outside ∨ (w.place = .fresh ∧ ∀ b ∈ text, isSpace b = true) ∨ text = []) :
    w.Resumes sect key (pre ++ (text ++ 0 :: rest))
      (answer (w.readLine key text text.length)) := by
  have hbuf : pre ++ (text ++ 0 :: rest) = pre ++ text ++ 0 :: rest := (List.append_assoc ..).symm
  have hend : ∀ {f}, Returns sect key (pre ++ (text ++ 0 :: rest)) (pre.length + text.length) f
      (false, f) := by
    intro f
    rw [hbuf, ← List.length_append]
    exact returns_end
  rcases eq_or_ne w.place .outside with hout | hout
  · rw [readLine_outside hout]
    unfold Walk.Resumes
    rw [hout, hat.pos]
    exact returns_line ht hend
  rcases Classical.em (w.place = .fresh ∧ ∀ b ∈ text, isSpace b = true) with hblank | hblank
  · obtain ⟨hfresh, hall⟩ := hblank
    have hne : pre ++ text ≠ [] := by simp [hat.ne hout]
    rw [readLine_blank hfresh hall]
    unfold Walk.Resumes
    rw [hfresh, hat.pos]
    refine fresh_skip (x := ((pre.length + text.length : ℕ) : ℤ)) hall ?_
    rw [← List.length_append, hbuf]
    exact fresh_of_inside rfl (inside_stop hne (Or.inl rfl) returns_end)
  · -- a section that ends with its last line
    obtain rfl := (hstop.resolve_left hout).resolve_left hblank
    have hin : w.place = .inside := by
      cases hp : w.place with
      | outside => exact (hout hp).elim
      | fresh => exact (hblank ⟨hp, by simp⟩).elim
      | inside => rfl
    have hspans : w.entered [] = w.spans := if_neg (by simp [hin])
    rw [readLine_entered hout hblank, List.drop_nil, show matchKey key [] = none from rfl]
    dsimp only
    rw [hspans]
    exact resumes_of_returns hat (Or.inl rfl) hend

/-- In a line that is looked at there is text. -/
theorem drop_skipped_ne {text : List UInt8} (hout : w.place ≠ .outside)
    (hblank : ¬ (w.place = .fresh ∧ ∀ b ∈ text, isSpace b = true)) (hne : text ≠ []) :
    text.drop (w.place.skipped text) ≠ [] := by
  cases hp : w.place with
  | outside => exact (hout hp).elim
  | inside => exact hne
  | fresh =>
    rw [drop_skipped]
    exact fun h => hblank ⟨hp, List.dropWhile_eq_nil_iff.mp h⟩

/-- The bytes up to the end of the text are the last line. -/
theorem resumes_tail_line {text : List UInt8} (hat : w.At pre) (ht : Plain (lineStart pre) text)
    (hrest : text ≠ [] → ∃ s, rest = 0 :: s) :
    w.Resumes sect key (pre ++ (text ++ 0 :: rest))
      (answer (w.readLine key text text.length)) := by
  rcases Classical.em (w.place = .outside ∨ (w.place = .fresh ∧ ∀ b ∈ text, isSpace b = true) ∨
    text = []) with hstop | hgo
  · exact resumes_tail_stop hat ht hstop
  rw [not_or, not_or] at hgo
  obtain ⟨hout, hblank, hne⟩ := hgo
  rw [readLine_entered hout hblank]
  obtain ⟨s, rfl⟩ := hrest hne
  have hin := resumes_entered sect key (0 :: s) hat ht hout hblank
    (Or.inr ⟨rfl, drop_skipped_ne hout hblank hne⟩)
  cases hm : matchKey key (text.drop (w.place.skipped text)) with
  | none =>
    rw [hm] at hin
    have hbuf' : pre ++ (text ++ 0 :: 0 :: s) = pre ++ text ++ [0] ++ 0 :: s := by simp
    have hlen : pre.length + text.length + 1 = (pre ++ text ++ [0]).length := by
      simp only [List.length_append, List.length_singleton]
    refine hin ?_
    rw [hbuf', hlen]
    exact inside_stop (by simp) (Or.inl rfl) returns_end
  | some k =>
    rw [hm] at hin
    exact hin

/-- A header that the end of the text cuts off. The scanner steps over the NUL. -/
theorem resumes_tail_opened {name : List UInt8} (hat : w.At pre) (hl : lineStart pre = true)
    (hn : Named name) :
    w.Resumes sect key (pre ++ byte '[' :: (name ++ 0 :: 0 :: rest))
      (false, (w.readHeader sect name (name.length + 2)).spans) := by
  have hbuf : pre ++ byte '[' :: (name ++ 0 :: 0 :: rest) =
      pre ++ byte '[' :: name ++ [0] ++ 0 :: rest := by simp
  have hlen : pre.length + name.length + 2 = (pre ++ byte '[' :: name ++ [0]).length := by
    simp only [List.length_append, List.length_cons, List.length_nil]
    omega
  refine resumes_of_returns hat (Or.inr ⟨hl, rfl⟩) (returns_header hl hn (Or.inr rfl) ?_)
  rcases Classical.em (name <+: sect) with hpre | hpre
  · rw [readHeader_fresh hpre, if_pos hpre]
    dsimp only
    rw [hat.pos, ← Nat.add_assoc, hbuf, hlen]
    exact fresh_of_inside rfl (inside_stop (by simp) (Or.inl rfl) returns_end)
  · rw [readHeader_outside hpre, if_neg hpre]
    have hbuf' : pre ++ byte '[' :: (name ++ 0 :: 0 :: rest) =
        pre ++ byte '[' :: name ++ 0 :: 0 :: rest := by simp
    have hlen' : pre.length + name.length + 1 = (pre ++ byte '[' :: name).length := by
      simp only [List.length_append, List.length_cons]
      omega
    rw [hbuf', hlen']
    exact returns_end

theorem lineStart_token (pre : List UInt8) {t : Token} {start : Bool} (ht : t.Fits start) :
    lineStart (pre ++ t.bytes) = t.starts := by
  cases t with
  | header name =>
    rw [Token.bytes, ← List.cons_append, ← List.append_assoc, lineStart_concat]
    rfl
  | line text nl =>
    rw [Token.bytes, ← List.append_assoc, lineStart_concat]
    exact ht.1

variable (sect key rest) in
/-- From `w` on, over a part of the text: a walk takes over, or `parse_file` gives the answer of the
    end. -/
def Walk.Leads {ε : Type} (stop : ε → Bool × Spans) (pre part : List UInt8) (w : Walk) :
    Except ε Walk → Prop
  | .ok w' => w'.At (pre ++ part) ∧ ∀ {r}, w'.Resumes sect key (pre ++ (part ++ rest)) r →
      w.Resumes sect key (pre ++ (part ++ rest)) r
  | .error e => w.Resumes sect key (pre ++ (part ++ rest)) (stop e)

variable (sect key rest) in
/-- One token. -/
theorem resumes_step {t : Token} (hat : w.At pre) (ht : t.Fits (lineStart pre)) :
    w.Leads sect key rest (true, ·) pre t.bytes (step sect key w t) := by
  cases t with
  | header name =>
    have hread := fun {r} => resumes_readHeader sect key rest (r := r) hat ht.1 ht.2
    exact ⟨(hread (r := (false, {}))).1, fun {r} => hread.2⟩
  | line text nl =>
    have hbuf : (Token.line text nl).bytes ++ rest = text ++ nl :: rest := by simp [Token.bytes]
    have hread := resumes_readLine sect key rest hat ht.2 ht.1
    rw [← hbuf] at hread
    rw [step]
    cases hw : w.readLine key text (text.length + 1) with
    | ok w' =>
      rw [hw] at hread
      exact hread
    | error f =>
      rw [hw] at hread
      exact hread

/-- RULE (run): what leads over each part of a text leads over all of it, by induction with the bytes
    in front generalized. `L` says that the parts can follow one another. -/
theorem leads_run {τ ε : Type} {bytes : τ → List UInt8} {L : Bool → List τ → Prop}
    {go : Walk → τ → Except ε Walk} {stop : ε → Bool × Spans}
    (hL : ∀ {pre t ts}, L (lineStart pre) (t :: ts) → L (lineStart (pre ++ bytes t)) ts)
    (hgo : ∀ {w : Walk} {pre t ts} rest, w.At pre → L (lineStart pre) (t :: ts) →
      w.Leads sect key rest stop pre (bytes t) (go w t))
    {ts : List τ} (hat : w.At pre) (hts : L (lineStart pre) ts) :
    w.Leads sect key rest stop pre (ts.flatMap bytes) (run go w ts) := by
  induction ts generalizing w pre with
  | nil => exact ⟨by simpa using hat, fun h => h⟩
  | cons t ts ih =>
    have hstep := hgo (ts.flatMap bytes ++ rest) hat hts
    rw [run_cons, List.flatMap_cons]
    unfold Walk.Leads at hstep ⊢
    rw [List.append_assoc]
    cases hw : go w t with
    | error e =>
      rw [hw] at hstep
      exact hstep
    | ok w' =>
      rw [hw] at hstep
      obtain ⟨hat', hback⟩ := hstep
      have hrun := ih hat' (hL hts)
      unfold Walk.Leads at hrun
      rw [List.append_assoc, List.append_assoc] at hrun
      change match run go w' ts with
        | .ok _ => _
        | .error _ => _
      cases hr : run go w' ts with
      | error e =>
        rw [hr] at hrun
        exact hback hrun
      | ok w'' =>
        rw [hr] at hrun
        exact ⟨hrun.1, fun h => hback (hrun.2 h)⟩

variable (sect key rest) in
/-- All the tokens. -/
theorem resumes_run {ts : List Token} (hat : w.At pre) (hts : Tokens (lineStart pre) ts) :
    w.Leads sect key rest (true, ·) pre (bytesOf ts) (run (step sect key) w ts) := by
  refine leads_run (L := Tokens) ?_ ?_ hat hts
  · intro pre t ts hts
    rw [lineStart_token pre hts.1]
    exact hts.2
  · intro w pre t ts rest hat hts
    exact resumes_step sect key rest hat hts.1

theorem lineStart_tokens {ts : List Token} (hts : Tokens (lineStart pre) ts) :
    lineStart (pre ++ bytesOf ts) = startAfter (lineStart pre) ts := by
  induction ts generalizing pre with
  | nil => simp [bytesOf, startAfter]
  | cons t ts ih =>
    have hbytes : bytesOf (t :: ts) = t.bytes ++ bytesOf ts := List.flatMap_cons
    have hstart := lineStart_token pre hts.1
    rw [hbytes, ← List.append_assoc, ih (by rw [hstart]; exact hts.2), hstart]
    rfl

end

/-! ### `parse_file` -/

section
variable {sect key : List UInt8}

theorem at_start : ({} : Walk).At [] := ⟨rfl, fun h => (h rfl).elim, fun h => Place.noConfusion h⟩

theorem parseFile_of_resumes {p : List UInt8} {r : Bool × Spans} (hs : sect ≠ []) (hk : key ≠ [])
    (h : ({} : Walk).Resumes sect key p r) : parseFile sect key p = .ok r := by
  rw [parseFile, if_neg (by simp [hs, hk])]
  exact h p.length (Nat.le_add_left _ _)

/-- `parse_file` is the walk. Only behind an unfinished line does it look past the NUL. -/
theorem parseFile_document {d : Document} (hs : sect ≠ []) (hk : key ≠ []) (hd : d.Valid)
    {rest : List UInt8} (hrest : d.tail ≠ .line [] → ∃ s, rest = 0 :: s) :
    parseFile sect key (d.bytes ++ 0 :: rest) = .ok (d.lookUp sect key) := by
  have hbuf : d.bytes ++ 0 :: rest = bytesOf d.tokens ++ (d.tail.bytes ++ 0 :: rest) :=
    List.append_assoc ..
  have htok : Tokens (lineStart []) d.tokens := hd.tokens
  have hres := resumes_run sect key (d.tail.bytes ++ 0 :: rest) at_start htok
  unfold Document.lookUp
  rw [hbuf]
  cases hrun : run (step sect key) {} d.tokens with
  | error f =>
    rw [hrun] at hres
    exact parseFile_of_resumes hs hk hres
  | ok w =>
    rw [hrun] at hres
    obtain ⟨hat, hback⟩ := hres
    have hfits : d.tail.Fits (lineStart ([] ++ bytesOf d.tokens)) := by
      rw [lineStart_tokens htok]
      exact hd.tail
    refine parseFile_of_resumes hs hk (hback ?_)
    cases ht : d.tail with
    | line text =>
      rw [ht] at hfits hrest
      refine resumes_tail_line hat hfits fun hne => hrest ?_
      intro heq
      exact hne (Tail.line.inj heq)
    | opened name =>
      rw [ht] at hfits hrest
      obtain ⟨s, rfl⟩ := hrest (by simp)
      exact resumes_tail_opened hat hfits.1 hfits.2

/-- From any place every text goes on as tokens. -/
theorem exists_tokens (start : Bool) (s : List UInt8) (hs : 0 ∉ s) : ∃ ts tail,
    Tokens start ts ∧ Tail.Fits (startAfter start ts) tail ∧ bytesOf ts ++ tail.bytes = s := by
  induction hn : s.length using Nat.strong_induction_on generalizing start s with
  | _ n ih =>
    subst hn
    rcases Classical.em (start = true ∧ s.head? = some (byte '[')) with ⟨rfl, hhead⟩ | hhead
    · -- a header, with or without its end
      obtain ⟨s, rfl⟩ := List.head?_eq_some_iff.mp hhead
      rcases Classical.em (byte ']' ∈ s) with hmem | hmem
      · obtain ⟨name, rest, rfl, hname⟩ := List.eq_append_cons_of_mem hmem
        have hn : Named name := fun c hc => ⟨fun h => hname (h ▸ hc), fun h => hs (by simp [← h, hc])⟩
        obtain ⟨ts, tail, hts, htail, hbytes⟩ := ih rest.length (by simp; omega) false rest
          (fun h => hs (by simp [h])) rfl
        refine ⟨.header name :: ts, tail, ⟨⟨rfl, hn⟩, hts⟩, htail, ?_⟩
        simp [bytesOf, Token.bytes, ← hbytes]
      · have hn : Named s := fun c hc => ⟨fun h => hmem (h ▸ hc), fun h => hs (by simp [← h, hc])⟩
        exact ⟨[], .opened s, trivial, ⟨rfl, hn⟩, rfl⟩
    · have hplain : ∀ {text rest}, s = text ++ rest → (∀ b ∈ text, newline b = false) →
          Plain start text := by
        rintro text rest rfl hnl
        refine ⟨fun b hb => ⟨hnl b hb, fun h => hs (by simp [← h, hb])⟩, fun hstart htext => ?_⟩
        refine hhead ⟨hstart, ?_⟩
        rw [List.head?_append, htext]
        rfl
      rcases Classical.em (∃ b ∈ s, newline b = true) with ⟨b, hb, hnl⟩ | hnone
      · -- a line with its end
        obtain ⟨text, c, rest, rfl, htext, hc⟩ : ∃ text c rest, s = text ++ c :: rest ∧
            (∀ b ∈ text, newline b = false) ∧ newline c = true := by
          obtain ⟨c, hfind⟩ := Option.isSome_iff_exists.mp (List.find?_isSome.mpr ⟨b, hb, hnl⟩)
          obtain ⟨hc, text, rest, hsplit, htext⟩ := List.find?_eq_some_iff_append.mp hfind
          exact ⟨text, c, rest, hsplit, fun b hb => by simpa using htext b hb, hc⟩
        obtain ⟨ts, tail, hts, htail, hbytes⟩ := ih rest.length (by simp; omega) true rest
          (fun h => hs (by simp [h])) rfl
        refine ⟨.line text c :: ts, tail, ⟨⟨hc, hplain rfl htext⟩, hts⟩, htail, ?_⟩
        simp [bytesOf, Token.bytes, ← hbytes]
      · have hnl : ∀ b ∈ s, newline b = false := by
          intro b hb
          by_contra h
          exact hnone ⟨b, hb, by simpa using h⟩
        exact ⟨[], .line s, trivial, hplain (List.append_nil s).symm hnl, rfl⟩

theorem exists_document {s : List UInt8} (hs : 0 ∉ s) : ∃ d : Document, d.Valid ∧ d.bytes = s := by
  obtain ⟨ts, tail, hts, htail, hbytes⟩ := exists_tokens true s hs
  exact ⟨⟨ts, tail⟩, ⟨hts, htail⟩, hbytes⟩

end

end AcqBoard.Ini
