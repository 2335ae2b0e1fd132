import AcqBoard.Ini.Document
import Mathlib.Data.Bool.AllAny
import Mathlib.Data.Nat.Find
import Mathlib.Order.Bounds.Basic

/-! Which entry `parse_file` finds in a well-formed profile.

    `strncmp` is bounded by the length of the name in the file, so that a header or a key of the file
    passes for every section or key that it is a prefix of. `parseFile_exact_iff` says when the first
    entry that passes is the one that was asked for. -/

namespace AcqBoard.Ini
open Schemes

/-! ### Well-formed profiles -/

/-- The bytes of a comment or a value. -/
structure Chars where
  bytes : List UInt8
  plain : ∀ b ∈ bytes, newline b = false ∧ b ≠ 0

structure Name where
  bytes : List UInt8
  ne : bytes ≠ []
  plain : ∀ b ∈ bytes, newline b = false ∧ b ≠ 0 ∧ b ≠ byte ']'

theorem Name.named (name : Name) : Named name.bytes := fun c hc =>
  ⟨(name.plain c hc).2.2, (name.plain c hc).2.1⟩

structure Key where
  bytes : List UInt8
  ne : bytes ≠ []
  plain : ∀ b ∈ bytes, newline b = false ∧ b ≠ 0 ∧ b ≠ byte '='
  head : ∀ b, bytes.head? = some b → b ≠ byte '[' ∧ b ≠ byte ';' ∧ isSpace b = false

/-- What is asked for. -/
structure Query where
  bytes : List UInt8
  ne : bytes ≠ []
  plain : ∀ b ∈ bytes, newline b = false ∧ b ≠ 0 ∧ b ≠ byte ']' ∧ b ≠ byte '='

inductive IniLine where
  | empty
  | comment (text : Chars)
  | header (name : Name)
  | entry (key : Key) (value : Chars)

inductive Ending where
  | lf
  | cr
  | crlf

def IniLine.bytes : IniLine → List UInt8
  | .empty => []
  | .comment text => byte ';' :: text.bytes
  | .header name => byte '[' :: (name.bytes ++ [byte ']'])
  | .entry key value => key.bytes ++ byte '=' :: value.bytes

def Ending.bytes : Ending → List UInt8
  | .lf => [byte '\n']
  | .cr => [byte '\r']
  | .crlf => [byte '\r', byte '\n']

abbrev Profile := List (IniLine × Ending)

def Profile.bytes (t : Profile) : List UInt8 := t.flatMap fun l => l.1.bytes ++ l.2.bytes

/-- Where line `n` begins. -/
def Profile.offset (t : Profile) (n : ℕ) : ℕ := (Profile.bytes (t.take n)).length

def Profile.line (t : Profile) (n : ℕ) : Option IniLine := (t[n]?).map Prod.fst

def Profile.header (t : Profile) (n : ℕ) : Option (List UInt8) :=
  match t.line n with
  | some (.header name) => some name.bytes
  | _ => none

/-- Some header that passes is followed, before the next header, by line `n`, and the text before the
    first `=` of that line passes. -/
def Profile.Hit (t : Profile) (isSect isKey : List UInt8 → Prop) (n : ℕ) : Prop :=
  ∃ m < n, (∃ name, t.header m = some name ∧ isSect name) ∧
    (∀ j, m < j → j ≤ n → t.header j = none) ∧
    ∃ l k, t.line n = some l ∧ cut l.bytes = some k ∧ isKey k

/-- The line asked for. -/
def Profile.Asked (t : Profile) (sect key : List UInt8) : ℕ → Prop :=
  t.Hit (· = sect) (· = key)

/-- A line that the scanner takes for it. -/
def Profile.Taken (t : Profile) (sect key : List UInt8) : ℕ → Prop :=
  t.Hit (· <+: sect) fun k => k ≠ [] ∧ k.head? ≠ some (byte ';') ∧ k <+: key

/-- The law: the answer is yes exactly if there is a line as asked for, and the value is what follows
    the `=` of the first one. -/
def Profile.Answers (t : Profile) (sect key : List UInt8) (r : Bool × Spans) : Prop :=
  (r.1 = true ↔ ∃ n, t.Asked sect key n) ∧
    ∀ n l, IsLeast {n | t.Asked sect key n} n → t.line n = some l →
      r.2.valueS = (t.offset n + key.length + 1 : ℕ) ∧
        r.2.valueE = (t.offset n + l.bytes.length : ℕ)

/-- The condition: the first line that is taken is asked for, and no comment is. -/
structure Profile.Exact (t : Profile) (sect key : List UInt8) : Prop where
  first : ∀ n, IsLeast {n | t.Taken sect key n} n → t.Asked sect key n
  comment : key.head? = some (byte ';') → ∀ n, ¬ t.Asked sect key n

/-! ### Hits, line by line -/

/-- `Hit`, where `inSect` says whether the first line is in a section that passes. -/
def HitFrom (isSect isKey : List UInt8 → Prop) : Prop → Profile → ℕ → Prop
  | _, [], _ => False
  | inSect, l :: t, 0 => inSect ∧ Profile.header (l :: t) 0 = none ∧
      ∃ k, cut l.1.bytes = some k ∧ isKey k
  | inSect, l :: t, n + 1 => HitFrom isSect isKey
      (match Profile.header (l :: t) 0 with
        | some name => isSect name
        | none => inSect) t n

section
variable {isSect isKey : List UInt8 → Prop}

theorem line_succ (l : IniLine × Ending) (t : Profile) (n : ℕ) :
    Profile.line (l :: t) (n + 1) = t.line n := rfl

/-- A hit behind the first line: a header of the rest is followed by it, or the first line is. -/
theorem hit_succ {l : IniLine × Ending} {t : Profile} {n : ℕ} :
    Profile.Hit (l :: t) isSect isKey (n + 1) ↔ t.Hit isSect isKey n ∨
      (∃ name, Profile.header (l :: t) 0 = some name ∧ isSect name) ∧
        (∀ j ≤ n, t.header j = none) ∧
        ∃ l k, t.line n = some l ∧ cut l.bytes = some k ∧ isKey k := by
  constructor
  · rintro ⟨m, hm, hhead, hnone, hline⟩
    cases m with
    | zero => exact Or.inr ⟨hhead, fun j hj => hnone (j + 1) (by omega) (by omega), hline⟩
    | succ m =>
      exact Or.inl ⟨m, by omega, hhead, fun j h₁ h₂ => hnone (j + 1) (by omega) (by omega), hline⟩
  · rintro (⟨m, hm, hhead, hnone, hline⟩ | ⟨hhead, hnone, hline⟩)
    · refine ⟨m + 1, by omega, hhead, ?_, hline⟩
      intro j h₁ h₂
      obtain ⟨j, rfl⟩ := Nat.exists_eq_add_one_of_ne_zero (by omega : j ≠ 0)
      exact hnone j (by omega) (by omega)
    · refine ⟨0, by omega, hhead, ?_, hline⟩
      intro j h₁ h₂
      obtain ⟨j, rfl⟩ := Nat.exists_eq_add_one_of_ne_zero (by omega : j ≠ 0)
      exact hnone j (by omega)

theorem hitFrom_iff {t : Profile} {inSect : Prop} {n : ℕ} : HitFrom isSect isKey inSect t n ↔
    t.Hit isSect isKey n ∨ inSect ∧ (∀ j ≤ n, t.header j = none) ∧
      ∃ l k, t.line n = some l ∧ cut l.bytes = some k ∧ isKey k := by
  induction t generalizing n inSect with
  | nil =>
    refine iff_of_false id ?_
    rintro (⟨m, -, -, -, l, k, hl, -⟩ | ⟨-, -, l, k, hl, -⟩)
    · simp [Profile.line] at hl
    · simp [Profile.line] at hl
  | cons l t ih =>
    cases n with
    | zero =>
      constructor
      · rintro ⟨hin, hnone, k, hk⟩
        refine Or.inr ⟨hin, ?_, l.1, k, rfl, hk⟩
        intro j hj
        rw [Nat.le_zero.mp hj]
        exact hnone
      · rintro (⟨m, hm, -⟩ | ⟨hin, hnone, l', k, hl, hk⟩)
        · exact absurd hm (Nat.not_lt_zero m)
        · obtain rfl : l.1 = l' := Option.some.inj hl
          exact ⟨hin, hnone 0 (Nat.le_refl 0), k, hk⟩
    | succ n =>
      have hall : (∀ j ≤ n + 1, Profile.header (l :: t) j = none) ↔
          Profile.header (l :: t) 0 = none ∧ ∀ j ≤ n, Profile.header t j = none := by
        constructor
        · exact fun h => ⟨h 0 (by omega), fun j hj => h (j + 1) (by omega)⟩
        · rintro ⟨h₀, h⟩ j hj
          cases j with
          | zero => exact h₀
          | succ j => exact h j (by omega)
      rw [HitFrom, ih, hit_succ, hall, line_succ]
      cases Profile.header (l :: t) 0 with
      | none => simp
      | some name => simp

end

/-! ### The walk over a well-formed profile -/

def Ending.tokens (text : List UInt8) : Ending → List Token
  | .lf => [.line text (byte '\n')]
  | .cr => [.line text (byte '\r')]
  | .crlf => [.line text (byte '\r'), .line [] (byte '\n')]

def IniLine.tokens (l : IniLine) (e : Ending) : List Token :=
  match l with
  | .header name => .header name.bytes :: e.tokens []
  | l => e.tokens l.bytes

def Profile.document (t : Profile) : Document := ⟨t.flatMap fun l => l.1.tokens l.2, .line []⟩

section
variable {sect key text : List UInt8} {w : Walk}

theorem skipped_of_none (p : Place) (hs : text.takeWhile isSpace = []) : p.skipped text = 0 := by
  unfold Place.skipped
  split
  · rw [hs]; rfl
  · rfl

theorem blank_nil : ([] : List UInt8).takeWhile isSpace = [] := rfl

variable (key w) in
/-- A line that does not begin with white space and is no entry. -/
theorem readLine_other (hs : text.takeWhile isSpace = [])
    (h : w.place = .outside ∨ matchKey key text = none) (len : ℕ) :
    ∃ w', w.readLine key text len = .ok w' ∧ (w'.place = .outside ↔ w.place = .outside) ∧
      w'.pos = w.pos + len := by
  rcases eq_or_ne w.place .outside with hout | hout
  · exact ⟨_, readLine_outside hout text len, Iff.rfl, rfl⟩
  rcases Classical.em (w.place = .fresh ∧ ∀ b ∈ text, isSpace b = true) with hblank | hblank
  · exact ⟨_, readLine_blank hblank.1 hblank.2 len, Iff.rfl, rfl⟩
  · have hskip : w.place.skipped text = 0 := by simp [Place.skipped, hs]
    have hm : matchKey key text = none := h.resolve_left hout
    refine ⟨{ place := .inside, pos := w.pos + len, spans := w.entered text }, ?_,
      iff_of_false (by simp) hout, rfl⟩
    rw [readLine_entered hout hblank, hskip, List.drop_zero, hm]

/-- A line that does not begin with white space and is an entry. -/
theorem readLine_entry {k : ℕ} (hs : text.takeWhile isSpace = []) (hout : w.place ≠ .outside)
    (hk : matchKey key text = some k) (len : ℕ) :
    ∃ f, w.readLine key text len = .error f ∧ f.valueS = (w.pos + k + 1 : ℕ) ∧
      f.valueE = (w.pos + text.length : ℕ) := by
  have hskip := skipped_of_none w.place hs
  have hblank : ¬ (w.place = .fresh ∧ ∀ b ∈ text, isSpace b = true) := by
    rintro ⟨-, hall⟩
    cases text with
    | nil => simp [matchKey, cut] at hk
    | cons b text => simp [hall b List.mem_cons_self] at hs
  refine ⟨w.entry text k, ?_, ?_, rfl⟩
  · rw [readLine_entered hout hblank, hskip, List.drop_zero, hk]
  · rw [Walk.entry, hskip]
    push_cast
    rfl

variable (sect key w) in
theorem run_other (hs : text.takeWhile isSpace = [])
    (h : w.place = .outside ∨ matchKey key text = none) (e : Ending) :
    ∃ w', run (step sect key) w (e.tokens text) = .ok w' ∧
      (w'.place = .outside ↔ w.place = .outside) ∧ w'.pos = w.pos + (text ++ e.bytes).length := by
  obtain ⟨v, hv, hplace, hpos⟩ := readLine_other key w hs h (text.length + 1)
  cases e with
  | lf => exact ⟨v, run_cons_ok.mpr ⟨v, hv, rfl⟩, hplace, by simpa [Ending.bytes] using hpos⟩
  | cr => exact ⟨v, run_cons_ok.mpr ⟨v, hv, rfl⟩, hplace, by simpa [Ending.bytes] using hpos⟩
  | crlf =>
    obtain ⟨u, hu, hplace', hpos'⟩ := readLine_other key v blank_nil (Or.inr rfl) 1
    refine ⟨u, run_cons_ok.mpr ⟨v, hv, run_cons_ok.mpr ⟨u, hu, rfl⟩⟩, hplace'.trans hplace, ?_⟩
    rw [hpos', hpos, List.length_append]
    exact Nat.add_assoc ..

variable (sect) in
theorem run_entry {k : ℕ} (hs : text.takeWhile isSpace = []) (hout : w.place ≠ .outside)
    (hk : matchKey key text = some k) (e : Ending) :
    ∃ f, run (step sect key) w (e.tokens text) = .error f ∧ f.valueS = (w.pos + k + 1 : ℕ) ∧
      f.valueE = (w.pos + text.length : ℕ) := by
  obtain ⟨f, hf, hval⟩ := readLine_entry hs hout hk (text.length + 1)
  refine ⟨f, ?_, hval⟩
  cases e with
  | lf => exact bind_eq_error.mpr (Or.inl hf)
  | cr => exact bind_eq_error.mpr (Or.inl hf)
  | crlf => exact bind_eq_error.mpr (Or.inl hf)

/-- No line of a well-formed profile begins with white space. -/
theorem IniLine.takeWhile_bytes (l : IniLine) : l.bytes.takeWhile isSpace = [] := by
  cases l with
  | empty => rfl
  | comment c => rfl
  | header name => rfl
  | entry key value =>
    obtain ⟨b, k, hb⟩ := List.exists_cons_of_ne_nil key.ne
    have hspace := (key.head b (by rw [hb]; rfl)).2.2
    rw [IniLine.bytes, hb]
    simp [hspace]

/-- The places where lines are looked at. -/
def InSection (w : Walk) : Prop := w.place ≠ .outside

theorem header_zero (l : IniLine) (e : Ending) (t : Profile) : Profile.header ((l, e) :: t) 0 =
    match l with
    | .header name => some name.bytes
    | _ => none := by
  cases l with
  | empty => rfl
  | comment c => rfl
  | header name => rfl
  | entry k v => rfl

theorem tokens_of_header {l : IniLine} {e : Ending} {t : Profile}
    (h : Profile.header ((l, e) :: t) 0 = none) : l.tokens e = e.tokens l.bytes := by
  cases l with
  | empty => rfl
  | comment c => rfl
  | header name => simp [header_zero] at h
  | entry k v => rfl

variable (sect key w) in
/-- One line. -/
theorem run_line (l : IniLine) (e : Ending) (t : Profile) :
    match run (step sect key) w (l.tokens e) with
    | .ok w' => (InSection w' ↔ match Profile.header ((l, e) :: t) 0 with
          | some name => name <+: sect
          | none => InSection w) ∧ w'.pos = w.pos + (l.bytes ++ e.bytes).length ∧
        ¬ (InSection w ∧ Profile.header ((l, e) :: t) 0 = none ∧ matchKey key l.bytes ≠ none)
    | .error f => InSection w ∧ Profile.header ((l, e) :: t) 0 = none ∧ ∃ k,
        matchKey key l.bytes = some k ∧ f.valueS = (w.pos + k + 1 : ℕ) ∧
          f.valueE = (w.pos + l.bytes.length : ℕ) := by
  cases hh : Profile.header ((l, e) :: t) 0 with
  | some name =>
    obtain ⟨n, rfl, rfl⟩ : ∃ n : Name, l = .header n ∧ n.bytes = name := by
      cases l with
      | header n => exact ⟨n, rfl, Option.some.inj hh⟩
      | empty => simp [header_zero] at hh
      | comment c => simp [header_zero] at hh
      | entry k v => simp [header_zero] at hh
    obtain ⟨w', hw, hplace, hpos⟩ := run_other sect key
      (w.readHeader sect n.bytes (n.bytes.length + 2)) blank_nil (Or.inr rfl) e
    have hrun : run (step sect key) w (IniLine.tokens (.header n) e) = .ok w' :=
      run_cons_ok.mpr ⟨_, rfl, hw⟩
    have hread : (w.readHeader sect n.bytes (n.bytes.length + 2)).pos =
        w.pos + (n.bytes.length + 2) ∧
        (InSection (w.readHeader sect n.bytes (n.bytes.length + 2)) ↔ n.bytes <+: sect) := by
      rcases Classical.em (n.bytes <+: sect) with h | h
      · rw [readHeader_fresh h]
        exact ⟨rfl, iff_of_true (by simp [InSection]) h⟩
      · rw [readHeader_outside h]
        exact ⟨rfl, iff_of_false (by simp [InSection]) h⟩
    rw [hrun]
    refine ⟨(not_congr hplace).trans hread.2, ?_, fun h => by simp at h⟩
    rw [hpos, hread.1, IniLine.bytes]
    simp only [List.length_append, List.length_cons, List.length_nil]
    omega
  | none =>
    rw [tokens_of_header hh]
    rcases Classical.em (InSection w ∧ matchKey key l.bytes ≠ none) with ⟨hin, hm⟩ | hno
    · obtain ⟨k, hk⟩ := Option.ne_none_iff_exists'.mp hm
      obtain ⟨f, hf, hval⟩ := run_entry sect l.takeWhile_bytes hin hk e
      rw [hf]
      exact ⟨hin, rfl, k, hk, hval⟩
    · have hor : w.place = .outside ∨ matchKey key l.bytes = none := by
        rcases not_and_or.mp hno with h | h
        · exact Or.inl (not_not.mp h)
        · exact Or.inr (not_not.mp h)
      obtain ⟨w', hw, hplace, hpos⟩ := run_other sect key w l.takeWhile_bytes hor e
      rw [hw]
      exact ⟨not_congr hplace, hpos, fun h => hno ⟨h.1, h.2.2⟩⟩

theorem offset_succ (l : IniLine × Ending) (t : Profile) (n : ℕ) :
    Profile.offset (l :: t) (n + 1) = (l.1.bytes ++ l.2.bytes).length + t.offset n := by
  rw [Profile.offset, List.take_succ_cons, Profile.bytes, List.flatMap_cons, List.length_append]
  rfl

/-- What the scanner takes a line for, as `matchKey` says it. -/
abbrev TakenFrom (sect key : List UInt8) : Prop → Profile → ℕ → Prop :=
  HitFrom (· <+: sect) fun k => k ≠ [] ∧ k.head? ≠ some (byte ';') ∧ k <+: key

variable (sect) in
theorem takenFrom_zero {inSect : Prop} {l : IniLine} {e : Ending} {t : Profile} :
    TakenFrom sect key inSect ((l, e) :: t) 0 ↔
      inSect ∧ Profile.header ((l, e) :: t) 0 = none ∧ matchKey key l.bytes ≠ none := by
  have hm : matchKey key l.bytes ≠ none ↔ ∃ k, cut l.bytes = some k ∧
      (k ≠ [] ∧ k.head? ≠ some (byte ';') ∧ k <+: key) := by
    rw [Option.ne_none_iff_exists']
    constructor
    · rintro ⟨k, hk⟩
      obtain ⟨t, hcut, ht, -⟩ := matchKey_eq_some.mp hk
      exact ⟨t, hcut, ht⟩
    · rintro ⟨t, hcut, ht⟩
      exact ⟨t.length, matchKey_eq_some.mpr ⟨t, hcut, ht, rfl⟩⟩
  rw [hm]
  exact Iff.rfl

/-- The walk over all the lines stops at the first one that is taken. -/
theorem run_profile (t : Profile) :
    match run (step sect key) w t.document.tokens with
    | .ok _ => ∀ n, ¬ TakenFrom sect key (InSection w) t n
    | .error f => ∃ n l k, IsLeast {n | TakenFrom sect key (InSection w) t n} n ∧
        t.line n = some l ∧ matchKey key l.bytes = some k ∧
        f.valueS = (w.pos + t.offset n + k + 1 : ℕ) ∧
        f.valueE = (w.pos + t.offset n + l.bytes.length : ℕ) := by
  induction t generalizing w with
  | nil => exact fun n h => h
  | cons a t ih =>
    obtain ⟨l, e⟩ := a
    have hline := run_line sect key w l e t
    have hrun : run (step sect key) w (Profile.document ((l, e) :: t)).tokens =
        run (step sect key) w (l.tokens e) >>= fun w' =>
          run (step sect key) w' (Profile.document t).tokens := by
      rw [← run_append]
      rfl
    rw [hrun]
    cases hl : run (step sect key) w (l.tokens e) with
    | error f =>
      rw [hl] at hline
      obtain ⟨hin, hh, k, hk, hs, he⟩ := hline
      have hzero : TakenFrom sect key (InSection w) ((l, e) :: t) 0 :=
        (takenFrom_zero sect).mpr ⟨hin, hh, Option.ne_none_iff_exists'.mpr ⟨k, hk⟩⟩
      exact ⟨0, l, k, ⟨hzero, fun n _ => Nat.zero_le n⟩, rfl, hk, hs, he⟩
    | ok w' =>
      rw [hl] at hline
      obtain ⟨hin, hpos, hno⟩ := hline
      have hsucc : ∀ n, TakenFrom sect key (InSection w) ((l, e) :: t) (n + 1) ↔
          TakenFrom sect key (InSection w') t n := by
        intro n
        exact iff_of_eq (congrArg (TakenFrom sect key · t n) (propext hin).symm)
      have ht := ih (w := w')
      change match run (step sect key) w' (Profile.document t).tokens with
        | .ok _ => _
        | .error _ => _
      cases hr : run (step sect key) w' (Profile.document t).tokens with
      | ok v =>
        rw [hr] at ht
        intro n hn
        cases n with
        | zero => exact hno ((takenFrom_zero sect).mp hn)
        | succ n => exact ht n ((hsucc n).mp hn)
      | error f =>
        rw [hr] at ht
        obtain ⟨n, l', k, ⟨hmem, hleast⟩, hl', hk, hs, he⟩ := ht
        refine ⟨n + 1, l', k, ⟨(hsucc n).mpr hmem, ?_⟩, hl', hk, ?_, ?_⟩
        · intro m hm
          cases m with
          | zero => exact (hno ((takenFrom_zero sect).mp hm)).elim
          | succ m => exact Nat.succ_le_succ (hleast ((hsucc m).mp hm))
        · rw [hs, hpos, offset_succ, Nat.add_assoc w.pos]
        · rw [he, hpos, offset_succ, Nat.add_assoc w.pos]

end

/-! ### The document of a profile -/

/-- A line with its end, wherever it stands. -/
theorem Ending.tokens_spec {text : List UInt8} {start : Bool} (ht : Plain start text) (e : Ending) :
    Tokens start (e.tokens text) ∧ startAfter start (e.tokens text) = true ∧
      bytesOf (e.tokens text) = text ++ e.bytes := by
  have hnil : Plain true [] := ⟨by simp, by simp⟩
  cases e with
  | lf => exact ⟨⟨⟨rfl, ht⟩, trivial⟩, rfl, by simp [tokens, bytesOf, Token.bytes, Ending.bytes]⟩
  | cr => exact ⟨⟨⟨rfl, ht⟩, trivial⟩, rfl, by simp [tokens, bytesOf, Token.bytes, Ending.bytes]⟩
  | crlf =>
    exact ⟨⟨⟨rfl, ht⟩, ⟨rfl, hnil⟩, trivial⟩, rfl,
      by simp [tokens, bytesOf, Token.bytes, Ending.bytes]⟩

theorem IniLine.plain {l : IniLine} (h : ∀ name, l ≠ .header name) : Plain true l.bytes := by
  cases l with
  | empty => exact ⟨by simp [bytes], by simp [bytes]⟩
  | header name => exact (h name rfl).elim
  | comment c =>
    refine ⟨?_, fun _ => by simp [bytes]; decide⟩
    rintro b hb
    rcases List.mem_cons.mp hb with rfl | hb
    · exact ⟨rfl, by decide⟩
    · exact c.plain b hb
  | entry key value =>
    refine ⟨?_, fun _ => ?_⟩
    · intro b hb
      rcases List.mem_append.mp hb with hb | hb
      · exact ⟨(key.plain b hb).1, (key.plain b hb).2.1⟩
      rcases List.mem_cons.mp hb with rfl | hb
      · exact ⟨rfl, by decide⟩
      · exact value.plain b hb
    · obtain ⟨b, k, hb⟩ := List.exists_cons_of_ne_nil key.ne
      have hhead := (key.head b (by rw [hb]; rfl)).1
      simpa [bytes, hb] using hhead

theorem IniLine.tokens_spec (l : IniLine) (e : Ending) : Tokens true (l.tokens e) ∧
    startAfter true (l.tokens e) = true ∧ bytesOf (l.tokens e) = l.bytes ++ e.bytes := by
  rcases Classical.em (∃ name, l = .header name) with ⟨name, rfl⟩ | hno
  · have hnil : Plain false [] := ⟨by simp, by simp⟩
    obtain ⟨hts, hstart, hbytes⟩ := e.tokens_spec hnil
    refine ⟨⟨⟨rfl, name.named⟩, hts⟩, hstart, ?_⟩
    have hcons : bytesOf (IniLine.tokens (.header name) e) =
        (Token.header name.bytes).bytes ++ bytesOf (e.tokens []) := List.flatMap_cons
    rw [hcons, hbytes]
    rfl
  · have hplain := IniLine.plain fun name h => hno ⟨name, h⟩
    have htok : l.tokens e = e.tokens l.bytes := by
      cases l with
      | header name => exact (hno ⟨name, rfl⟩).elim
      | empty => rfl
      | comment c => rfl
      | entry k v => rfl
    rw [htok]
    exact e.tokens_spec hplain

theorem Profile.document_spec (t : Profile) : Tokens true (Profile.document t).tokens ∧
    startAfter true (Profile.document t).tokens = true ∧
      bytesOf (Profile.document t).tokens = Profile.bytes t := by
  induction t with
  | nil => exact ⟨trivial, rfl, rfl⟩
  | cons a t ih =>
    obtain ⟨l, e⟩ := a
    obtain ⟨hts, hstart, hbytes⟩ := l.tokens_spec e
    have hdoc : (Profile.document ((l, e) :: t)).tokens =
        l.tokens e ++ (Profile.document t).tokens := rfl
    rw [hdoc]
    refine ⟨tokens_append.mpr ⟨hts, by rw [hstart]; exact ih.1⟩, ?_, ?_⟩
    · rw [startAfter_append, hstart]
      exact ih.2.1
    · rw [bytesOf, List.flatMap_append]
      exact congrArg₂ (· ++ ·) hbytes ih.2.2

/-! ### The answer -/

section
variable {sect key : List UInt8} {t : Profile} {n m : ℕ}

theorem taken_iff : TakenFrom sect key (InSection {}) t n ↔ t.Taken sect key n := by
  have hout : ¬ InSection {} := fun h => h rfl
  exact hitFrom_iff.trans (or_iff_left fun h => hout h.1)

/-- Different lines have different places. -/
theorem offset_inj {l l' : IniLine} {i j : ℕ} (hl : t.line n = some l) (hl' : t.line m = some l')
    (hi : i < l.bytes.length) (hj : j < l'.bytes.length)
    (h : t.offset n + i = t.offset m + j) : n = m := by
  induction t generalizing n m with
  | nil => simp [Profile.line] at hl
  | cons a t ih =>
    have hzero : Profile.offset (a :: t) 0 = 0 := rfl
    cases n with
    | zero =>
      cases m with
      | zero => rfl
      | succ m =>
        obtain rfl : a.1 = l := Option.some.inj hl
        rw [hzero, offset_succ, List.length_append] at h
        omega
    | succ n =>
      cases m with
      | zero =>
        obtain rfl : a.1 = l' := Option.some.inj hl'
        rw [hzero, offset_succ, List.length_append] at h
        omega
      | succ m =>
        rw [offset_succ, offset_succ] at h
        rw [ih hl hl' (by omega)]

theorem asked_taken (h : key.head? ≠ some (byte ';')) (hk : key ≠ [])
    (ha : t.Asked sect key n) : t.Taken sect key n := by
  obtain ⟨m, hm, ⟨name, hname, rfl⟩, hnone, l, k, hl, hcut, rfl⟩ := ha
  exact ⟨m, hm, ⟨name, hname, List.prefix_rfl⟩, hnone, l, k, hl, hcut, hk, h, List.prefix_rfl⟩

/-- A key like a comment is never taken. -/
theorem not_taken_comment (h : key.head? = some (byte ';')) : ¬ t.Taken sect key n := by
  rintro ⟨m, -, -, -, l, k, -, -, hne, hhead, hpre⟩
  obtain ⟨b, s, rfl⟩ := List.exists_cons_of_ne_nil hne
  obtain ⟨rest, rfl⟩ := hpre
  exact hhead h

/-- The line asked for has its key in front of its first `=`. -/
theorem Profile.Asked.line {l : IniLine} (ha : t.Asked sect key n) (hl : t.line n = some l) :
    cut l.bytes = some key := by
  obtain ⟨m, -, -, -, l', k, hl', hcut, rfl⟩ := ha
  obtain rfl : l = l' := Option.some.inj (hl.symm.trans hl')
  exact hcut

theorem length_of_cut {s k : List UInt8} (h : cut s = some k) : k.length < s.length := by
  obtain ⟨-, v, rfl⟩ := cut_eq_some h
  simp

end

/-- The answer on a well-formed profile, whatever the buffer holds behind it. -/
theorem parseFile_profile (sect key : Query) (t : Profile) (rest : List UInt8) :
    parseFile sect.bytes key.bytes (t.bytes ++ 0 :: rest) =
      .ok (t.document.lookUp sect.bytes key.bytes) := by
  obtain ⟨hts, hstart, hbytes⟩ := t.document_spec
  have hdoc : t.document.bytes = t.bytes := by
    rw [Document.bytes, hbytes]
    exact List.append_nil _
  have hvalid : t.document.Valid := by
    refine ⟨hts, ?_⟩
    rw [hstart]
    exact ⟨by simp, by simp⟩
  rw [← hdoc]
  exact parseFile_document sect.ne key.ne hvalid fun h => (h rfl).elim

/-- The answer is the first line that is taken. -/
theorem lookUp_profile (sect key : List UInt8) (t : Profile) :
    (t.document.lookUp sect key).1 = false ∧ (∀ n, ¬ t.Taken sect key n) ∨
      ∃ n l k, IsLeast {n | t.Taken sect key n} n ∧ t.line n = some l ∧
        matchKey key l.bytes = some k ∧ (t.document.lookUp sect key).1 = true ∧
        (t.document.lookUp sect key).2.valueS = (t.offset n + k + 1 : ℕ) ∧
        (t.document.lookUp sect key).2.valueE = (t.offset n + l.bytes.length : ℕ) := by
  have hrun : match run (step sect key) {} t.document.tokens with
      | .ok _ => ∀ n, ¬ TakenFrom sect key (InSection {}) t n
      | .error f => ∃ n l k, IsLeast {n | TakenFrom sect key (InSection {}) t n} n ∧
          t.line n = some l ∧ matchKey key l.bytes = some k ∧
          f.valueS = ((0 : ℕ) + t.offset n + k + 1 : ℕ) ∧
          f.valueE = ((0 : ℕ) + t.offset n + l.bytes.length : ℕ) := run_profile t
  unfold Document.lookUp
  cases hr : run (step sect key) {} t.document.tokens with
  | ok w =>
    rw [hr] at hrun
    obtain ⟨w', hw, -⟩ := readLine_other key w blank_nil (Or.inr rfl) 0
    have htail : readTail sect key w t.document.tail = .ok w' := hw
    refine Or.inl ⟨?_, fun n hn => hrun n (taken_iff.mpr hn)⟩
    simp only [bind, Except.bind, htail, answer]
  | error f =>
    rw [hr] at hrun
    obtain ⟨n, l, k, ⟨hmem, hleast⟩, hl, hk, hs, he⟩ := hrun
    refine Or.inr ⟨n, l, k, ⟨taken_iff.mp hmem, fun m hm => hleast (taken_iff.mpr hm)⟩, hl, hk, rfl,
      ?_, ?_⟩
    · exact hs.trans (by simp)
    · exact he.trans (by simp)

section
variable {sect key : Query} {t : Profile}

/-- The condition is enough. -/
theorem answers_of_exact (h : t.Exact sect.bytes key.bytes) :
    t.Answers sect.bytes key.bytes (t.document.lookUp sect.bytes key.bytes) := by
  rcases lookUp_profile sect.bytes key.bytes t with ⟨hno, hnone⟩ | ⟨n, l, k, hleast, hl, hk, hyes, hs, he⟩
  · have hasked : ∀ n, ¬ t.Asked sect.bytes key.bytes n := by
      intro n hn
      rcases eq_or_ne (key.bytes.head?) (some (byte ';')) with hc | hc
      · exact h.comment hc n hn
      · exact hnone n (asked_taken hc key.ne hn)
    refine ⟨iff_of_false (by rw [hno]; exact Bool.false_ne_true) fun ⟨n, hn⟩ => hasked n hn, ?_⟩
    intro n l hn
    exact (hasked n hn.1).elim
  · have hc : key.bytes.head? ≠ some (byte ';') := fun hc => not_taken_comment hc hleast.1
    have hasked := h.first n hleast
    refine ⟨iff_of_true hyes ⟨n, hasked⟩, ?_⟩
    intro m l' hm hl'
    obtain rfl : m = n := le_antisymm (hm.2 hasked) (hleast.2 (asked_taken hc key.ne hm.1))
    obtain rfl : l = l' := Option.some.inj (hl.symm.trans hl')
    obtain ⟨c, hcut, -, rfl⟩ := matchKey_eq_some.mp hk
    obtain rfl : key.bytes = c := Option.some.inj ((hasked.line hl).symm.trans hcut)
    exact ⟨hs, he⟩

/-- The condition is needed: the value tells which line was taken. -/
theorem exact_of_answers
    (h : t.Answers sect.bytes key.bytes (t.document.lookUp sect.bytes key.bytes)) :
    t.Exact sect.bytes key.bytes := by
  classical
  obtain ⟨hyesno, hvalue⟩ := h
  rcases lookUp_profile sect.bytes key.bytes t with ⟨hno, hnone⟩ | ⟨n, l, k, hleast, hl, hk, hyes, hs, he⟩
  · refine ⟨fun n hn => (hnone n hn.1).elim, fun _ n hn => ?_⟩
    have htrue := hyesno.mpr ⟨n, hn⟩
    rw [hno] at htrue
    exact Bool.false_ne_true htrue
  · have hex := hyesno.mp hyes
    have hfind := Nat.find_spec hex
    obtain ⟨p, -, -, -, l', c, hl', hcut, rfl⟩ := id hfind
    obtain ⟨hs', -⟩ := hvalue (Nat.find hex) l' ⟨hfind, fun m hm => Nat.find_min' hex hm⟩ hl'
    obtain ⟨d, hcut', -, rfl⟩ := matchKey_eq_some.mp hk
    have hsame : n = Nat.find hex := by
      refine offset_inj hl hl' (length_of_cut hcut') (length_of_cut hcut) ?_
      rw [hs'] at hs
      have := Int.ofNat.inj hs
      omega
    rw [← hsame] at hfind
    refine ⟨fun m hm => ?_, fun hc => (not_taken_comment hc hleast.1).elim⟩
    rw [hm.unique hleast]
    exact hfind

end

/-- The profile "[ab]\nk=1\n". -/
def shortHeader : Profile :=
  [(.header ⟨ascii "ab", by decide, List.all_iff_forall_prop.mp (by decide)⟩, .lf),
    (.entry ⟨[byte 'k'], by decide, List.forall_mem_singleton.mpr (by decide), by
      rintro b ⟨⟩
      decide⟩ ⟨[byte '1'], List.forall_mem_singleton.mpr (by decide)⟩, .lf)]

/-- CORRECT (`parse_file`): on every well-formed profile, for every section and key, it returns
    exactly the entry asked for if and only if the first entry it takes is asked for, and no comment
    is. -/
theorem parseFile_exact_iff (sect key : Query) (t : Profile) (rest : List UInt8) :
    (∃ r, parseFile sect.bytes key.bytes (t.bytes ++ 0 :: rest) = .ok r ∧
      t.Answers sect.bytes key.bytes r) ↔ t.Exact sect.bytes key.bytes := by
  rw [parseFile_profile]
  constructor
  · rintro ⟨r, hr, h⟩
    rw [← Except.ok.inj hr] at h
    exact exact_of_answers h
  · intro h
    exact ⟨_, rfl, answers_of_exact h⟩

/-- Asked for a section `abc`, `parse_file` takes the header `[ab]` for it. -/
theorem parseFile_takes_prefix : ¬ ∀ (sect key : Query) (t : Profile) (rest : List UInt8),
    ∃ r, parseFile sect.bytes key.bytes (t.bytes ++ 0 :: rest) = .ok r ∧
      t.Answers sect.bytes key.bytes r := by
  intro h
  obtain ⟨r, hr, hyesno, -⟩ := h
    ⟨ascii "abc", by decide, List.all_iff_forall_prop.mp (by decide)⟩
    ⟨ascii "k", by decide, List.all_iff_forall_prop.mp (by decide)⟩ shortHeader []
  have hfound : parseFile (ascii "abc") (ascii "k") (Profile.bytes shortHeader ++ [0]) =
      .ok (true, ⟨1, 5, 5, 5, 7, 8⟩) := by decide
  have hno : ∀ n, ¬ shortHeader.Asked (ascii "abc") (ascii "k") n := by
    rintro n ⟨m, hm, ⟨name, hname, rfl⟩, -⟩
    match m, hname with
    | 0, hname => exact absurd hname (by decide)
    | 1, hname => exact absurd hname (by decide)
    | m + 2, hname => exact absurd hname (by simp [Profile.header, Profile.line, shortHeader])
  rw [hfound] at hr
  obtain rfl := Except.ok.inj hr
  obtain ⟨n, hn⟩ := hyesno.mp rfl
  exact hno n hn

end AcqBoard.Ini
