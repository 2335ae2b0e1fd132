import AcqBoard.Ini.Document
import Mathlib.Data.List.Induction

/-! Where the scanner finds an entry, and where a new key can go.

    `lookUp_iff` reads off the text whether there is an entry: `HasEntry`. A document that has one is
    taken apart at it, and the walk over one that has none leaves the spans at a seat behind the last
    header that passes, if there is such a header. -/

namespace AcqBoard.Ini
open Schemes

/-- A line of white space. -/
def Token.blank : Token → Bool
  | .header _ => false
  | .line text _ => text.all isSpace

/-- What the scanner looks at of a line that follows the lines `mid` of its section: while they are
    blank, it is still in the white space behind the header. -/
def seen (mid : List Token) (text : List UInt8) : List UInt8 :=
  if mid.all Token.blank then text.dropWhile isSpace else text

/-- The tokens end in a section whose header passes; `mid` are its lines. -/
def Below (sect : List UInt8) (ts mid : List Token) : Prop :=
  ∃ pre name, ts = pre ++ .header name :: mid ∧ name <+: sect ∧ ∀ n, Token.header n ∉ mid

/-- In a section that passes there is a line that the scanner takes for the key. -/
def Document.HasEntry (sect key : List UInt8) (d : Document) : Prop :=
  ∃ ts mid text, Below sect ts mid ∧ matchKey key (seen mid text) ≠ none ∧
    ((∃ nl post, d.tokens = ts ++ .line text nl :: post) ∨ d.tokens = ts ∧ d.tail = .line text)

/-- Some header passes for the section. -/
def Headed (sect : List UInt8) (ts : List Token) : Prop :=
  ∃ name, Token.header name ∈ ts ∧ name <+: sect

/-! ### Where an entry lies -/

section
variable {sect key : List UInt8} {ts : List Token} {w : Walk} {text : List UInt8} {k : ℕ} {f : Spans}

/-- Behind the tokens the walk `w` comes to the line `text`, an entry with its `=` at `k` after the
    white space. -/
structure Site (sect key : List UInt8) (ts : List Token) (w : Walk) (text : List UInt8) (k : ℕ) :
    Prop where
  tokens : Tokens true ts
  run : run (step sect key) {} ts = .ok w
  plain : Plain (startAfter true ts) text
  place : w.place ≠ .outside
  entry : matchKey key (text.drop (w.place.skipped text)) = some k

theorem at_of_run (hts : Tokens true ts) (hrun : run (step sect key) {} ts = .ok w) :
    w.At (bytesOf ts) := by
  have hres := resumes_run sect key [] at_start (show Tokens (lineStart []) ts from hts)
  rw [hrun] at hres
  exact hres.1

/-- A line with an entry is not blank. -/
theorem Site.not_blank (h : Site sect key ts w text k) :
    ¬ (w.place = .fresh ∧ ∀ b ∈ text, isSpace b = true) := by
  rintro ⟨hfresh, hall⟩
  have hentry := h.entry
  rw [hfresh, drop_skipped, List.dropWhile_eq_nil_iff.mpr hall] at hentry
  cases hentry

/-- The scanner comes to the entry whatever follows its line. -/
theorem Site.parseFile (h : Site sect key ts w text k) (hs : sect ≠ []) (hk : key ≠ [])
    {c : UInt8} (hc : newline c = true ∨ c = 0) (rest : List UInt8) :
    parseFile sect key (bytesOf ts ++ (text ++ c :: rest)) = .ok (true, w.entry text k) := by
  have htok : Tokens (lineStart []) ts := h.tokens
  have hres := resumes_run sect key (text ++ c :: rest) at_start htok
  rw [h.run] at hres
  have hplain : Plain (lineStart (bytesOf ts)) text := by
    have hstart := lineStart_tokens htok
    rw [List.nil_append] at hstart
    rw [hstart]
    exact h.plain
  have hdrop : text.drop (w.place.skipped text) ≠ [] := by
    intro hnil
    have hentry := h.entry
    rw [hnil] at hentry
    cases hentry
  have hin := resumes_entered sect key rest (at_of_run h.tokens h.run) hplain h.place h.not_blank
    (hc.imp_right fun hz => ⟨hz, hdrop⟩)
  rw [h.entry] at hin
  exact parseFile_of_resumes hs hk (hres.2 hin)

theorem readLine_eq_error {len : ℕ} (h : w.readLine key text len = .error f) :
    w.place ≠ .outside ∧ ∃ k, matchKey key (text.drop (w.place.skipped text)) = some k ∧
      f = w.entry text k := by
  rcases eq_or_ne w.place .outside with hout | hout
  · rw [readLine_outside hout] at h
    cases h
  rcases Classical.em (w.place = .fresh ∧ ∀ b ∈ text, isSpace b = true) with hb | hb
  · rw [readLine_blank hb.1 hb.2] at h
    cases h
  · rw [readLine_entered hout hb] at h
    cases hm : matchKey key (text.drop (w.place.skipped text)) with
    | none =>
      rw [hm] at h
      cases h
    | some k =>
      rw [hm] at h
      exact ⟨hout, k, rfl, (Except.error.inj h).symm⟩

theorem readLine_place (hout : w.place ≠ .outside) {len : ℕ} {w' : Walk}
    (h : w.readLine key text len = .ok w') :
    w'.place = if w.place = .fresh ∧ text.all isSpace = true then .fresh else .inside := by
  rcases Classical.em (w.place = .fresh ∧ ∀ b ∈ text, isSpace b = true) with hb | hb
  · rw [readLine_blank hb.1 hb.2] at h
    obtain rfl := Except.ok.inj h
    rw [if_pos ⟨hb.1, List.all_eq_true.mpr hb.2⟩]
    exact hb.1
  · rw [readLine_entered hout hb] at h
    rw [if_neg fun hall => hb ⟨hall.1, List.all_eq_true.mp hall.2⟩]
    cases hm : matchKey key (text.drop (w.place.skipped text)) with
    | some k =>
      rw [hm] at h
      cases h
    | none =>
      rw [hm] at h
      rw [← Except.ok.inj h]

/-- Among lines the walk stays in its section. -/
theorem place_of_lines {mid : List Token} {v : Walk} (hv : v.place ≠ .outside)
    (hmid : ∀ n, Token.header n ∉ mid) (h : run (step sect key) v mid = .ok w) :
    w.place = if v.place = .fresh ∧ mid.all Token.blank = true then .fresh else .inside := by
  induction mid generalizing v with
  | nil =>
    obtain rfl := Except.ok.inj h
    cases hp : v.place with
    | outside => exact (hv hp).elim
    | fresh => rfl
    | inside => rfl
  | cons t mid ih =>
    obtain ⟨u, hu, hrest⟩ := run_cons_ok.mp h
    cases t with
    | header n => exact (hmid n List.mem_cons_self).elim
    | line text nl =>
      have hplace := readLine_place hv hu
      have hout : u.place ≠ .outside := by
        rw [hplace]
        split <;> simp
      rw [ih hout (fun n hn => hmid n (List.mem_cons_of_mem _ hn)) hrest, hplace, List.all_cons,
        Token.blank]
      by_cases hf : v.place = .fresh <;> by_cases ht : text.all isSpace = true <;> simp [hf, ht]

/-- Where the walk is not outside, the tokens end in a section that passes. -/
theorem below_of_run (hrun : run (step sect key) {} ts = .ok w) (hw : w.place ≠ .outside) :
    ∃ mid, Below sect ts mid ∧
      w.place = if mid.all Token.blank = true then .fresh else .inside := by
  induction ts using List.reverseRecOn generalizing w with
  | nil =>
    obtain rfl := Except.ok.inj hrun
    exact (hw rfl).elim
  | append_singleton ts t ih =>
    obtain ⟨u, hu, hstep⟩ := run_append_ok.mp hrun
    obtain ⟨v, hv, hnil⟩ := run_cons_ok.mp hstep
    obtain rfl : v = w := Except.ok.inj hnil
    cases t with
    | header name =>
      obtain rfl : u.readHeader sect name (name.length + 2) = v := Except.ok.inj hv
      rcases Classical.em (name <+: sect) with hpre | hpre
      · refine ⟨[], ⟨ts, name, rfl, hpre, by simp⟩, ?_⟩
        rw [readHeader_fresh hpre]
        rfl
      · rw [readHeader_outside hpre] at hw
        exact (hw rfl).elim
    | line text nl =>
      have hout : u.place ≠ .outside := by
        intro hout
        obtain rfl := Except.ok.inj ((readLine_outside hout text _).symm.trans hv)
        exact hw hout
      obtain ⟨mid, ⟨pre, name, rfl, hpre, hmid⟩, hplace⟩ := ih hu hout
      refine ⟨mid ++ [.line text nl], ⟨pre, name, by simp, hpre, by simpa using hmid⟩, ?_⟩
      rw [readLine_place hout hv, hplace, List.all_append, List.all_cons, Token.blank]
      by_cases hb : mid.all Token.blank = true <;> simp [hb]

/-- What the walk looks at. -/
theorem drop_eq_seen {mid : List Token} (text : List UInt8)
    (h : w.place = if mid.all Token.blank = true then .fresh else .inside) :
    text.drop (w.place.skipped text) = seen mid text := by
  rw [seen, h]
  split
  · exact drop_skipped
  · rfl

/-- In a section that passes, a line for the key ends the walk. -/
theorem readLine_of_below {mid : List Token} (hbelow : Below sect ts mid)
    (hrun : run (step sect key) {} ts = .ok w) (hm : matchKey key (seen mid text) ≠ none)
    (len : ℕ) : ∃ f, w.readLine key text len = .error f := by
  obtain ⟨pre, name, rfl, hpre, hmid⟩ := hbelow
  obtain ⟨u, -, hu⟩ := run_append_ok.mp hrun
  obtain ⟨v, hv, hlines⟩ := run_cons_ok.mp hu
  obtain rfl : u.readHeader sect name (name.length + 2) = v := Except.ok.inj hv
  have hfresh : (u.readHeader sect name (name.length + 2)).place = .fresh := by
    rw [readHeader_fresh hpre]
  have hplace := place_of_lines (by rw [hfresh]; simp) hmid hlines
  rw [hfresh] at hplace
  simp only [true_and] at hplace
  have hout : w.place ≠ .outside := by
    rw [hplace]
    split <;> simp
  rw [← drop_eq_seen text hplace] at hm
  have hblank : ¬ (w.place = .fresh ∧ ∀ b ∈ text, isSpace b = true) := by
    rintro ⟨hf, hall⟩
    rw [hf, drop_skipped, List.dropWhile_eq_nil_iff.mpr hall] at hm
    exact hm rfl
  obtain ⟨k, hk⟩ := Option.ne_none_iff_exists'.mp hm
  exact ⟨w.entry text k, by rw [readLine_entered hout hblank, hk]⟩

/-- The walk finds an entry if there is one. -/
theorem lookUp_iff {d : Document} : (d.lookUp sect key).1 = true ↔ d.HasEntry sect key := by
  constructor
  · intro h
    cases hrun : run (step sect key) {} d.tokens with
    | error g =>
      obtain ⟨ts, t, post, w, htok, hts, hstep⟩ := run_eq_error hrun
      cases t with
      | header name => cases hstep
      | line text nl =>
        obtain ⟨hout, k, hk, -⟩ := readLine_eq_error hstep
        obtain ⟨mid, hbelow, hplace⟩ := below_of_run hts hout
        rw [drop_eq_seen text hplace] at hk
        exact ⟨ts, mid, text, hbelow, by rw [hk]; simp, Or.inl ⟨nl, post, htok⟩⟩
    | ok w =>
      rw [Document.lookUp, hrun] at h
      cases htail : d.tail with
      | opened name =>
        rw [htail] at h
        cases h
      | line text =>
        rw [htail] at h
        have hans : (answer (w.readLine key text text.length)).1 = true := h
        cases hread : w.readLine key text text.length with
        | ok v =>
          rw [hread] at hans
          cases hans
        | error g =>
          obtain ⟨hout, k, hk, -⟩ := readLine_eq_error hread
          obtain ⟨mid, hbelow, hplace⟩ := below_of_run hrun hout
          rw [drop_eq_seen text hplace] at hk
          exact ⟨d.tokens, mid, text, hbelow, by rw [hk]; simp, Or.inr ⟨rfl, htail⟩⟩
  · rintro ⟨ts, mid, text, hbelow, hm, hor⟩
    rw [Document.lookUp]
    rcases hor with ⟨nl, post, htok⟩ | ⟨htok, htail⟩
    · rw [htok, run_append]
      cases hrun : run (step sect key) {} ts with
      | error g => rfl
      | ok w =>
        obtain ⟨g, hg⟩ := readLine_of_below hbelow hrun hm (text.length + 1)
        have hstep : step sect key w (.line text nl) = .error g := hg
        simp only [bind, Except.bind, run_cons, hstep, answer]
    · rw [htok, htail]
      cases hrun : run (step sect key) {} ts with
      | error g => rfl
      | ok w =>
        obtain ⟨g, hg⟩ := readLine_of_below hbelow hrun hm text.length
        simp only [bind, Except.bind, readTail, hg, answer]

/-- A document with an entry, taken apart at it. -/
theorem Document.Valid.split {d : Document} (hd : d.Valid) (h : d.lookUp sect key = (true, f)) :
    ∃ ts w text k rest, Site sect key ts w text k ∧ f = w.entry text k ∧
      d.bytes = bytesOf ts ++ (text ++ rest) ∧
      (rest = [] ∨ ∃ c s, rest = c :: s ∧ newline c = true) := by
  unfold Document.lookUp at h
  cases hrun : Schemes.run (step sect key) {} d.tokens with
  | error g =>
    rw [hrun] at h
    obtain rfl : g = f := (Prod.mk.inj h).2
    obtain ⟨pre, t, post, w, htok, hpre, hstep⟩ := run_eq_error hrun
    have htokens := hd.tokens
    rw [htok, tokens_append] at htokens
    cases t with
    | header name => cases hstep
    | line text nl =>
      obtain ⟨hout, k, hk, rfl⟩ := readLine_eq_error hstep
      obtain ⟨hnl, hplain⟩ := htokens.2.1
      refine ⟨pre, w, text, k, nl :: (bytesOf post ++ d.tail.bytes),
        ⟨htokens.1, hpre, hplain, hout, hk⟩, rfl, ?_, Or.inr ⟨nl, _, rfl, hnl⟩⟩
      rw [Document.bytes, htok]
      simp [bytesOf, Token.bytes]
  | ok w =>
    rw [hrun] at h
    cases htail : d.tail with
    | opened name =>
      rw [htail] at h
      cases (Prod.mk.inj h).1
    | line text =>
      rw [htail] at h
      have hfits := hd.tail
      rw [htail] at hfits
      cases hread : w.readLine key text text.length with
      | ok v =>
        have hans : answer (w.readLine key text text.length) = (true, f) := h
        rw [hread] at hans
        cases (Prod.mk.inj hans).1
      | error g =>
        have hans : answer (w.readLine key text text.length) = (true, f) := h
        rw [hread] at hans
        obtain rfl : g = f := (Prod.mk.inj hans).2
        obtain ⟨hout, k, hk, rfl⟩ := readLine_eq_error hread
        refine ⟨d.tokens, w, text, k, [], ⟨hd.tokens, hrun, hfits, hout, hk⟩, rfl, ?_, Or.inl rfl⟩
        rw [Document.bytes, htail, List.append_nil]
        rfl

/-! ### Where a key can go -/

/-- The position `e` of the text `B` is in the white space behind a header that passes, or at its
    end: tokens that lead there, and white space of one line. -/
structure Seat (sect key B : List UInt8) (e : ℤ) (us : List Token) (v : Walk) (sp rest : List UInt8) :
    Prop where
  tokens : Tokens true us
  run : run (step sect key) {} us = .ok v
  place : v.place = .fresh
  space : ∀ b ∈ sp, isSpace b = true ∧ newline b = false
  bytes : B = bytesOf us ++ (sp ++ rest)
  pos : e = ((bytesOf us ++ sp).length : ℕ)

def Seated (sect key B : List UInt8) (e : ℤ) : Prop := ∃ us v sp rest, Seat sect key B e us v sp rest

theorem Seated.extend {B : List UInt8} {e : ℤ} (h : Seated sect key B e) (C : List UInt8) :
    Seated sect key (B ++ C) e := by
  obtain ⟨us, v, sp, rest, hs⟩ := h
  refine ⟨us, v, sp, rest ++ C, { hs with bytes := ?_ }⟩
  rw [hs.bytes]
  simp only [List.append_assoc]

/-- What a walk that has found no entry has seen. -/
structure Tracked (sect key : List UInt8) (ts : List Token) (w : Walk) : Prop where
  keyS : w.spans.keyS = -1
  unheaded : ¬ Headed sect ts → w.place = .outside ∧ w.spans = {}
  headed : Headed sect ts → w.spans.secS ≠ -1 ∧ Seated sect key (bytesOf ts) w.spans.secE

/-- A walk behind a header stands at a seat. -/
theorem seated_fresh (hts : Tokens true ts) (hrun : run (step sect key) {} ts = .ok w)
    (hw : w.place = .fresh) : Seated sect key (bytesOf ts) w.spans.secE := by
  have hat := at_of_run hts hrun
  refine ⟨ts, w, [], [], hts, hrun, hw, by simp, by simp, ?_⟩
  rw [hat.secE hw, hat.pos, List.append_nil]

/-- What a line does to the spans, if it is no entry. -/
theorem readLine_seated (hts : Tokens true ts) (hrun : run (step sect key) {} ts = .ok w)
    (htext : ∀ b ∈ text, newline b = false) (hout : w.place ≠ .outside)
    (hseat : Seated sect key (bytesOf ts) w.spans.secE) {len : ℕ} {w' : Walk}
    (h : w.readLine key text len = .ok w') :
    w'.spans.keyS = w.spans.keyS ∧ w'.spans.secS = w.spans.secS ∧ w'.place ≠ .outside ∧
      (w'.place = .fresh ∧ w'.spans.secE = (w.pos + len : ℕ) ∧ (∀ b ∈ text, isSpace b = true) ∨
        w'.place = .inside ∧ Seated sect key (bytesOf ts ++ text) w'.spans.secE) := by
  rcases Classical.em (w.place = .fresh ∧ ∀ b ∈ text, isSpace b = true) with hb | hb
  · rw [readLine_blank hb.1 hb.2] at h
    obtain rfl := Except.ok.inj h
    exact ⟨rfl, rfl, hout, Or.inl ⟨hb.1, rfl, hb.2⟩⟩
  · rw [readLine_entered hout hb] at h
    cases hm : matchKey key (text.drop (w.place.skipped text)) with
    | some k =>
      rw [hm] at h
      cases h
    | none =>
      rw [hm] at h
      obtain rfl := Except.ok.inj h
      refine ⟨entered_keyS w text, entered_secS w text, by simp, Or.inr ⟨rfl, ?_⟩⟩
      dsimp only
      rw [Walk.entered]
      split
      · -- the white space in front of the line
        rename_i hfresh
        refine ⟨ts, w, text.takeWhile isSpace, text.dropWhile isSpace, hts, hrun, hfresh, ?_, ?_, ?_⟩
        · exact fun b hb => ⟨List.mem_takeWhile_imp hb, htext b (List.takeWhile_subset _ hb)⟩
        · rw [List.takeWhile_append_dropWhile]
        · rw [hfresh, Place.skipped, if_pos rfl, List.length_append, (at_of_run hts hrun).pos]
      · exact hseat.extend text

theorem headed_concat {t : Token} : Headed sect (ts ++ [t]) ↔
    Headed sect ts ∨ ∃ name, t = .header name ∧ name <+: sect := by
  constructor
  · rintro ⟨name, hmem, hpre⟩
    rcases List.mem_append.mp hmem with h | h
    · exact Or.inl ⟨name, h, hpre⟩
    · exact Or.inr ⟨name, (List.mem_singleton.mp h).symm, hpre⟩
  · rintro (⟨name, hmem, hpre⟩ | ⟨name, rfl, hpre⟩)
    · exact ⟨name, List.mem_append_left _ hmem, hpre⟩
    · exact ⟨name, by simp, hpre⟩

theorem bytesOf_concat (ts : List Token) (t : Token) : bytesOf (ts ++ [t]) = bytesOf ts ++ t.bytes := by
  simp [bytesOf]

theorem Seated.concat {e : ℤ} (h : Seated sect key (bytesOf ts) e) (t : Token) :
    Seated sect key (bytesOf (ts ++ [t])) e := by
  rw [bytesOf_concat]
  exact h.extend t.bytes

/-- Step lemma: a header. -/
theorem Tracked.header {u : Walk} {name : List UInt8} (h : Tracked sect key ts u)
    (hts : Tokens true (ts ++ [.header name]))
    (hrun : run (step sect key) {} (ts ++ [.header name]) =
      .ok (u.readHeader sect name (name.length + 2))) :
    Tracked sect key (ts ++ [.header name]) (u.readHeader sect name (name.length + 2)) := by
  rcases Classical.em (name <+: sect) with hpre | hpre
  · have hfresh : (u.readHeader sect name (name.length + 2)).place = .fresh := by
      rw [readHeader_fresh hpre]
    have hseat := seated_fresh hts hrun hfresh
    refine ⟨?_, fun h => (h (headed_concat.mpr (Or.inr ⟨name, rfl, hpre⟩))).elim,
      fun _ => ⟨?_, hseat⟩⟩
    · rw [readHeader_fresh hpre]
      exact h.keyS
    · rw [readHeader_fresh hpre]
      dsimp only
      omega
  · have hiff : Headed sect (ts ++ [.header name]) ↔ Headed sect ts := by
      rw [headed_concat]
      exact or_iff_left fun ⟨n, hn, hp⟩ => hpre (by rwa [Token.header.inj hn])
    rw [readHeader_outside hpre]
    refine ⟨h.keyS, fun hno => ⟨rfl, (h.unheaded fun hh => hno (hiff.mpr hh)).2⟩, fun hh => ?_⟩
    exact ⟨(h.headed (hiff.mp hh)).1, (h.headed (hiff.mp hh)).2.concat _⟩

/-- Step lemma: a line that is no entry. -/
theorem Tracked.line {u v : Walk} {text : List UInt8} {nl : UInt8} (h : Tracked sect key ts u)
    (hts : Tokens true (ts ++ [.line text nl])) (hu : run (step sect key) {} ts = .ok u)
    (hrun : run (step sect key) {} (ts ++ [.line text nl]) = .ok v)
    (hread : u.readLine key text (text.length + 1) = .ok v) :
    Tracked sect key (ts ++ [.line text nl]) v := by
  have hiff : Headed sect (ts ++ [.line text nl]) ↔ Headed sect ts := by
    rw [headed_concat]
    refine or_iff_left ?_
    rintro ⟨n, ⟨⟩, -⟩
  obtain ⟨hfront, ⟨-, hplain⟩, -⟩ := tokens_append.mp hts
  rcases eq_or_ne u.place .outside with hout | hout
  · rw [readLine_outside hout] at hread
    obtain rfl := Except.ok.inj hread
    refine ⟨h.keyS, fun hno => ⟨hout, (h.unheaded fun hh => hno (hiff.mpr hh)).2⟩, fun hh => ?_⟩
    exact ⟨(h.headed (hiff.mp hh)).1, (h.headed (hiff.mp hh)).2.concat _⟩
  · have hh : Headed sect ts := by
      by_contra hno
      exact hout (h.unheaded hno).1
    obtain ⟨hkey, hsec, -, hor⟩ := readLine_seated hfront hu (fun b hb => (hplain.inner b hb).1)
      hout (h.headed hh).2 hread
    refine ⟨hkey.trans h.keyS, fun hno => (hno (hiff.mpr hh)).elim, fun _ => ⟨?_, ?_⟩⟩
    · rw [hsec]
      exact (h.headed hh).1
    · rcases hor with ⟨hfresh, -⟩ | ⟨-, hseat⟩
      · exact seated_fresh hts hrun hfresh
      · rw [bytesOf_concat, Token.bytes, ← List.append_assoc]
        exact hseat.extend [nl]

/-- Run lemma, by induction on the last token. -/
theorem tracked_run (hts : Tokens true ts) (hrun : run (step sect key) {} ts = .ok w) :
    Tracked sect key ts w := by
  induction ts using List.reverseRecOn generalizing w with
  | nil =>
    obtain rfl := Except.ok.inj hrun
    exact ⟨rfl, fun _ => ⟨rfl, rfl⟩, fun ⟨name, hmem, _⟩ => by simp at hmem⟩
  | append_singleton ts t ih =>
    obtain ⟨u, hu, hstep⟩ := run_append_ok.mp hrun
    obtain ⟨v, hv, hnil⟩ := run_cons_ok.mp hstep
    obtain rfl : v = w := Except.ok.inj hnil
    have hu' := ih (tokens_append.mp hts).1 hu
    cases t with
    | header name =>
      obtain rfl : u.readHeader sect name (name.length + 2) = v := Except.ok.inj hv
      exact hu'.header hts hrun
    | line text nl => exact hu'.line hts hu hrun hv

theorem Document.lookUp_false {d : Document} (h : (d.lookUp sect key).1 = false) :
    ∃ w w', run (step sect key) {} d.tokens = .ok w ∧ readTail sect key w d.tail = .ok w' ∧
      d.lookUp sect key = (false, w'.spans) := by
  unfold Document.lookUp at h ⊢
  cases hrun : run (step sect key) {} d.tokens with
  | error f =>
    rw [hrun] at h
    cases h
  | ok w =>
    rw [hrun] at h
    have hans : (answer (readTail sect key w d.tail)).1 = false := h
    cases hread : readTail sect key w d.tail with
    | error f =>
      rw [hread] at hans
      cases hans
    | ok w' => exact ⟨w, w', rfl, hread, congrArg answer hread⟩

section
variable {d : Document} (hd : d.Valid) (h : d.lookUp sect key = (false, f))
include hd h

theorem lookUp_keyS : f.keyS = -1 := by
  obtain ⟨w, w', hrun, hread, hans⟩ := d.lookUp_false (by rw [h])
  obtain rfl : f = w'.spans := (Prod.mk.inj (h.symm.trans hans)).2
  have ht := tracked_run hd.tokens hrun
  cases htail : d.tail with
  | opened name =>
    rw [htail] at hread
    obtain rfl := Except.ok.inj hread
    rcases Classical.em (name <+: sect) with hpre | hpre
    · rw [readHeader_fresh hpre]
      exact ht.keyS
    · rw [readHeader_outside hpre]
      exact ht.keyS
  | line text =>
    have hfits := hd.tail
    rw [htail] at hread hfits
    rcases eq_or_ne w.place .outside with hout | hout
    · rw [readTail, readLine_outside hout] at hread
      obtain rfl := Except.ok.inj hread
      exact ht.keyS
    · have hh : Headed sect d.tokens := by
        by_contra hno
        exact hout (ht.unheaded hno).1
      exact (readLine_seated hd.tokens hrun (fun b hb => (hfits.inner b hb).1) hout (ht.headed hh).2
        hread).1.trans ht.keyS

/-- With a header that passes and ends, there is a seat. -/
theorem lookUp_headed (hh : Headed sect d.tokens)
    (hno : ∀ name, d.tail = .opened name → ¬ name <+: sect) :
    f.secS ≠ -1 ∧ Seated sect key d.bytes f.secE := by
  obtain ⟨w, w', hrun, hread, hans⟩ := d.lookUp_false (by rw [h])
  obtain rfl : f = w'.spans := (Prod.mk.inj (h.symm.trans hans)).2
  obtain ⟨hsec, hseat⟩ := (tracked_run hd.tokens hrun).headed hh
  cases htail : d.tail with
  | opened name =>
    rw [htail] at hread
    obtain rfl := Except.ok.inj hread
    rw [readHeader_outside (hno name htail)]
    exact ⟨hsec, hseat.extend d.tail.bytes⟩
  | line text =>
    have hfits := hd.tail
    have hbytes : d.bytes = bytesOf d.tokens ++ text := by rw [Document.bytes, htail]; rfl
    rw [htail] at hread hfits
    rw [hbytes]
    rcases eq_or_ne w.place .outside with hout | hout
    · rw [readTail, readLine_outside hout] at hread
      obtain rfl := Except.ok.inj hread
      exact ⟨hsec, hseat.extend text⟩
    · have htext : ∀ b ∈ text, newline b = false := fun b hb => (hfits.inner b hb).1
      obtain ⟨-, hsec', -, hor⟩ := readLine_seated hd.tokens hrun htext hout hseat hread
      refine ⟨by rw [hsec']; exact hsec, ?_⟩
      rcases hor with ⟨hfresh, hsecE, hblank⟩ | ⟨-, hseat'⟩
      · -- the white space reaches to the end of the text
        have hplace : w.place = .fresh := by
          by_contra hne
          rw [readTail, readLine_entered hout fun hb => hne hb.1] at hread
          cases hm : matchKey key (text.drop (w.place.skipped text)) with
          | none =>
            rw [hm] at hread
            rw [← Except.ok.inj hread] at hfresh
            cases hfresh
          | some k =>
            rw [hm] at hread
            cases hread
        refine ⟨d.tokens, w, text, [], hd.tokens, hrun, hplace, ?_, by simp, ?_⟩
        · exact fun b hb => ⟨hblank b hb, htext b hb⟩
        · rw [hsecE, List.length_append, (at_of_run hd.tokens hrun).pos]
      · exact hseat'

/-- Behind a header that passes and does not end, the section begins after the NUL. -/
theorem lookUp_opened {name : List UInt8} (htail : d.tail = .opened name) (hpre : name <+: sect) :
    f.secS ≠ -1 ∧ f.secE = (d.bytes.length + 1 : ℕ) := by
  obtain ⟨w, w', hrun, hread, hans⟩ := d.lookUp_false (by rw [h])
  obtain rfl : f = w'.spans := (Prod.mk.inj (h.symm.trans hans)).2
  rw [htail] at hread
  obtain rfl := Except.ok.inj hread
  have hpos := (at_of_run hd.tokens hrun).pos
  have hlen : d.bytes.length = (bytesOf d.tokens).length + (name.length + 1) := by
    rw [Document.bytes, htail, Tail.bytes, List.length_append, List.length_cons]
  rw [readHeader_fresh hpre]
  dsimp only
  rw [hpos, hlen]
  omega

/-- Without a header that passes, nothing is found. -/
theorem lookUp_unheaded (hh : ¬ Headed sect d.tokens)
    (hno : ∀ name, d.tail = .opened name → ¬ name <+: sect) :
    f = {} ∧ ∃ w, run (step sect key) {} d.tokens = .ok w ∧ w.place = .outside := by
  obtain ⟨w, w', hrun, hread, hans⟩ := d.lookUp_false (by rw [h])
  obtain rfl : f = w'.spans := (Prod.mk.inj (h.symm.trans hans)).2
  obtain ⟨hout, hspans⟩ := (tracked_run hd.tokens hrun).unheaded hh
  refine ⟨?_, w, hrun, hout⟩
  cases htail : d.tail with
  | opened name =>
    rw [htail] at hread
    obtain rfl := Except.ok.inj hread
    rw [readHeader_outside (hno name htail)]
    exact hspans
  | line text =>
    rw [htail, readTail, readLine_outside hout] at hread
    obtain rfl := Except.ok.inj hread
    exact hspans

end

end

end AcqBoard.Ini
