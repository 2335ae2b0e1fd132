import AcqBoard.Ini.Entry
import AcqBoard.Ini.Meaning

/-! The document of a profile, and where a new key goes.

    A profile is a list of lines, and its last line need not end. A header at the very end is not yet
    a line, so that a new key may be written behind it on the same line. `lookUp_seat` says where
    `sec_e` is: behind the last header that passes and the blank lines that follow it. -/

namespace AcqBoard.Ini
open Schemes

/-! ### Profiles -/

/-- A profile whose last line need not end. -/
structure IniFile where
  lines : Profile
  last : IniLine

def IniFile.bytes (p : IniFile) : List UInt8 := Profile.bytes p.lines ++ p.last.bytes

/-- What the scanner sees. A header that ends the text is no line to it yet. -/
def IniFile.document (p : IniFile) : Document :=
  match p.last with
  | .header name => ⟨(Profile.document p.lines).tokens ++ [.header name.bytes], .line []⟩
  | l => ⟨(Profile.document p.lines).tokens, .line l.bytes⟩

def IniFile.table (p : IniFile) : Table := p.document.table

/-- Behind a header that passes and the blank lines that follow it. -/
def seatHere (sect : List UInt8) : Token → List Token → Option (List Token × List Token)
  | .header name, ts =>
    if name <+: sect then some (.header name :: ts.takeWhile Token.blank, ts.dropWhile Token.blank)
    else none
  | .line _ _, _ => none

/-- Where a new key goes: the tokens in front and behind. The last header that passes decides. -/
def seat (sect : List UInt8) : List Token → Option (List Token × List Token)
  | [] => none
  | t :: ts => ((seat sect ts).map fun r => (t :: r.1, r.2)).or (seatHere sect t ts)

/-! ### The tokens of a profile -/

section
variable {s : Option (List UInt8)} {ts us vs : List Token} {e : Names × List UInt8}

/-- An entry has its names and its value in the text. -/
theorem tableOf_mem (he : e ∈ tableOf s ts) : (s = some e.1.sect ∨ Token.header e.1.sect ∈ ts) ∧
    e.1.key ≠ [] ∧ byte '=' ∉ e.1.key ∧
      ∃ nl, Token.line (e.1.key ++ byte '=' :: e.2) nl ∈ ts := by
  induction ts generalizing s with
  | nil => simp [tableOf] at he
  | cons t ts ih =>
    cases t with
    | header name =>
      obtain ⟨hsect, hne, heq, nl, hline⟩ := ih he
      refine ⟨Or.inr ?_, hne, heq, nl, List.mem_cons_of_mem _ hline⟩
      rcases hsect with h | h
      · rw [← Option.some.inj h]
        exact List.mem_cons_self
      · exact List.mem_cons_of_mem _ h
    | line text nl =>
      rw [tableOf, List.mem_append] at he
      rcases he with he | he
      · have hentry := Option.mem_toList.mp he
        obtain ⟨hs, -, ⟨hne, -⟩, -⟩ := entryOf_eq_some.mp hentry
        obtain ⟨heq, htext⟩ := entryOf_text hentry
        exact ⟨Or.inl hs, hne, heq, nl, by rw [htext]; exact List.mem_cons_self⟩
      · obtain ⟨hsect, hne, heq, nl', hline⟩ := ih he
        exact ⟨hsect.imp_right (List.mem_cons_of_mem _), hne, heq, nl',
          List.mem_cons_of_mem _ hline⟩

theorem mem_bytesOf {t : Token} (ht : t ∈ ts) {b : UInt8} (hb : b ∈ t.bytes) : b ∈ bytesOf ts :=
  List.mem_flatMap.mpr ⟨t, ht, hb⟩

/-- The strings of an entry are strings. -/
theorem tableOf_zero (hz : 0 ∉ bytesOf ts) (he : e ∈ tableOf none ts) :
    0 ∉ e.1.sect ∧ 0 ∉ e.1.key ∧ 0 ∉ e.2 := by
  obtain ⟨hsect, -, -, nl, hline⟩ := tableOf_mem he
  have hhead : Token.header e.1.sect ∈ ts := hsect.resolve_left (by simp)
  refine ⟨fun h => hz (mem_bytesOf hhead ?_), fun h => hz (mem_bytesOf hline ?_),
    fun h => hz (mem_bytesOf hline ?_)⟩
  · simp [Token.bytes, h]
  · simp [Token.bytes, h]
  · simp [Token.bytes, h]

/-- A token list whose lines all end is a document that is read like its table. -/
theorem hasTable_lines {B bytes : List UInt8} (hts : Tokens true ts) (htrim : ∀ t ∈ ts, t.Trim)
    (hB : bytesOf ts = B ++ [byte '\n']) (hload : bytes.takeWhile (· ≠ eof) = B)
    (hlen : B.length + 1 < maxFileSize) : HasTable (some bytes) (tableOf none ts) := by
  rcases List.eq_nil_or_concat ts with rfl | ⟨us, t, rfl⟩
  · simp [bytesOf] at hB
  rw [List.concat_eq_append] at hts htrim hB ⊢
  rw [bytesOf_append] at hB
  cases t with
  | header name =>
    have hbytes : bytesOf us ++ byte '[' :: name ++ [byte ']'] = B ++ [byte '\n'] := by
      rw [← hB]
      simp [bytesOf, Token.bytes]
    have hlast := (List.append_inj' hbytes rfl).2
    exact absurd (List.cons.inj hlast).1 (by decide)
  | line text nl =>
    have hbytes : bytesOf us ++ text ++ [nl] = B ++ [byte '\n'] := by
      rw [← hB]
      simp [bytesOf, Token.bytes]
    obtain ⟨rfl, hnl⟩ := List.append_inj' hbytes rfl
    obtain rfl : nl = byte '\n' := (List.cons.inj hnl).1
    rw [tokens_append] at hts
    have hd : Document.Valid ⟨us, .line text⟩ := ⟨hts.1, hts.2.1.2⟩
    exact Document.hasTable hd htrim hload (Nat.lt_of_succ_lt hlen) fun _ => hlen

/-- A text whose last line does not end. -/
theorem hasTable_last {text bytes : List UInt8} (hts : Tokens true ts) (htrim : ∀ t ∈ ts, t.Trim)
    (hline : Plain (startAfter true ts) text) (hspace : Flush text)
    (hload : bytes.takeWhile (· ≠ eof) = bytesOf ts ++ text)
    (hlen : (bytesOf ts ++ text).length < maxFileSize)
    (hroom : text ≠ [] → (bytesOf ts ++ text).length + 1 < maxFileSize) :
    HasTable (some bytes) (tableOf none ts ++ (entryOf (sectAfter none ts) text).toList) := by
  have hd : Document.Valid ⟨ts, .line text⟩ := ⟨hts, hline⟩
  have hlines : ∀ t ∈ Document.lines ⟨ts, .line text⟩, t.Trim := by
    intro t ht
    rcases List.mem_append.mp ht with ht | ht
    · exact htrim t ht
    · rw [List.mem_singleton.mp ht]
      exact hspace
  have htable : Document.table ⟨ts, .line text⟩ =
      tableOf none ts ++ (entryOf (sectAfter none ts) text).toList := by
    rw [Document.table, Document.lines, tableOf_append, Tail.lines, tableOf, tableOf, List.append_nil]
  rw [← htable]
  exact Document.hasTable hd hlines hload hlen fun h => hroom fun hnil => h (by rw [hnil])

end

theorem Ending.tokens_trim {text : List UInt8} (h : Flush text) (e : Ending) :
    ∀ t ∈ e.tokens text, t.Trim := by
  cases e with
  | lf => simpa [Ending.tokens, Token.Trim] using h
  | cr => simpa [Ending.tokens, Token.Trim] using h
  | crlf => simpa [Ending.tokens, Token.Trim, flush_nil] using h

theorem IniLine.flush {l : IniLine} (h : ∀ name, l ≠ .header name) : Flush l.bytes := by
  cases l with
  | empty => exact flush_nil
  | header name => exact (h name rfl).elim
  | comment c =>
    rintro b ⟨⟩
    exact ⟨rfl, by decide⟩
  | entry key value =>
    intro b hb
    obtain ⟨a, k, hk⟩ := List.exists_cons_of_ne_nil key.ne
    have hhead := key.head b (by rw [← hb, IniLine.bytes, hk]; rfl)
    exact ⟨hhead.2.2, hhead.1⟩

theorem IniLine.tokens_trim (l : IniLine) (e : Ending) : ∀ t ∈ l.tokens e, t.Trim := by
  cases l with
  | header name =>
    intro t ht
    rcases List.mem_cons.mp ht with rfl | ht
    · trivial
    · exact e.tokens_trim flush_nil t ht
  | empty => exact e.tokens_trim flush_nil
  | comment c => exact e.tokens_trim (IniLine.flush (by simp))
  | entry k v => exact e.tokens_trim (IniLine.flush (by simp))

theorem IniLine.header_ne {l : IniLine} {e : Ending} {name : List UInt8}
    (h : Token.header name ∈ l.tokens e) : name ≠ [] := by
  have hno : ∀ text, Token.header name ∉ e.tokens text := by
    intro text
    cases e <;> simp [Ending.tokens]
  cases l with
  | header n =>
    rcases List.mem_cons.mp h with h | h
    · rw [Token.header.inj h]
      exact n.ne
    · exact (hno _ h).elim
  | empty => exact (hno _ h).elim
  | comment c => exact (hno _ h).elim
  | entry k v => exact (hno _ h).elim

section
variable (p : IniFile)

theorem Profile.tokens_trim (t : Profile) : ∀ k ∈ (Profile.document t).tokens, k.Trim := by
  intro k hk
  obtain ⟨⟨l, e⟩, -, hl⟩ := List.mem_flatMap.mp hk
  exact l.tokens_trim e k hl

theorem Profile.header_ne {t : Profile} {name : List UInt8}
    (h : Token.header name ∈ (Profile.document t).tokens) : name ≠ [] := by
  obtain ⟨⟨l, e⟩, -, hl⟩ := List.mem_flatMap.mp h
  exact IniLine.header_ne hl

/-- The two forms of a document. -/
theorem IniFile.document_cases :
    (∃ name : Name, p.last = .header name ∧
      p.document = ⟨(Profile.document p.lines).tokens ++ [.header name.bytes], .line []⟩) ∨
    (∀ name, p.last ≠ .header name) ∧
      p.document = ⟨(Profile.document p.lines).tokens, .line p.last.bytes⟩ := by
  unfold IniFile.document
  cases p.last with
  | header name => exact Or.inl ⟨name, rfl, rfl⟩
  | empty => exact Or.inr ⟨by simp, rfl⟩
  | comment c => exact Or.inr ⟨by simp, rfl⟩
  | entry k v => exact Or.inr ⟨by simp, rfl⟩

theorem IniFile.document_tail : ∃ text, p.document.tail = .line text ∧
    Flush text := by
  rcases p.document_cases with ⟨name, -, hd⟩ | ⟨hno, hd⟩
  · exact ⟨[], by rw [hd], flush_nil⟩
  · exact ⟨p.last.bytes, by rw [hd], IniLine.flush hno⟩

theorem IniFile.document_valid : p.document.Valid := by
  obtain ⟨hts, hstart, -⟩ := Profile.document_spec p.lines
  rcases p.document_cases with ⟨name, -, hd⟩ | ⟨hno, hd⟩
  · rw [hd]
    refine ⟨tokens_append.mpr ⟨hts, ?_⟩, ⟨by simp, by simp⟩⟩
    rw [hstart]
    exact ⟨⟨rfl, name.named⟩, trivial⟩
  · rw [hd]
    refine ⟨hts, ?_⟩
    rw [hstart]
    exact IniLine.plain hno

theorem IniFile.document_bytes : p.document.bytes = p.bytes := by
  obtain ⟨-, -, hbytes⟩ := Profile.document_spec p.lines
  rcases p.document_cases with ⟨name, hlast, hd⟩ | ⟨-, hd⟩
  · rw [hd, Document.bytes, bytesOf_append, hbytes, IniFile.bytes, hlast]
    simp [bytesOf, Token.bytes, Tail.bytes, IniLine.bytes]
  · rw [hd, Document.bytes, hbytes]
    rfl

theorem IniFile.tokens_trim : ∀ t ∈ p.document.tokens, t.Trim := by
  intro t ht
  rcases p.document_cases with ⟨name, -, hd⟩ | ⟨-, hd⟩
  · rw [hd] at ht
    rcases List.mem_append.mp ht with ht | ht
    · exact Profile.tokens_trim _ t ht
    · rw [List.mem_singleton.mp ht]
      trivial
  · rw [hd] at ht
    exact Profile.tokens_trim _ t ht

theorem IniFile.lines_trim : ∀ t ∈ p.document.lines, t.Trim := by
  intro t ht
  obtain ⟨text, htail, htext⟩ := p.document_tail
  rw [Document.lines, htail] at ht
  rcases List.mem_append.mp ht with ht | ht
  · exact p.tokens_trim t ht
  · rw [List.mem_singleton.mp ht]
    exact htext

theorem IniFile.header_ne {name : List UInt8} (h : Token.header name ∈ p.document.lines) :
    name ≠ [] := by
  obtain ⟨text, htail, -⟩ := p.document_tail
  rw [Document.lines, htail] at h
  have h : Token.header name ∈ p.document.tokens := by
    rcases List.mem_append.mp h with h | h
    · exact h
    · cases List.mem_singleton.mp h
  rcases p.document_cases with ⟨n, -, hd⟩ | ⟨-, hd⟩
  · rw [hd] at h
    rcases List.mem_append.mp h with h | h
    · exact Profile.header_ne h
    · rw [Token.header.inj (List.mem_singleton.mp h)]
      exact n.ne
  · rw [hd] at h
    exact Profile.header_ne h

theorem IniFile.bytesOf_lines : bytesOf p.document.lines = p.bytes ++ [byte '\n'] := by
  obtain ⟨text, htail, -⟩ := p.document_tail
  rw [Document.bytesOf_lines htail, p.document_bytes]

/-- The text around a line. -/
theorem IniFile.bytes_of_lines {us vs : List Token} {text : List UInt8} {nl : UInt8}
    (h : p.document.lines = us ++ .line text nl :: vs) :
    ∃ rest, p.bytes = bytesOf us ++ (text ++ rest) ∧ nl :: bytesOf vs = rest ++ [byte '\n'] := by
  have hlines := p.bytesOf_lines
  have hcons : bytesOf (.line text nl :: vs) = text ++ nl :: bytesOf vs := by
    simp [bytesOf, Token.bytes]
  rw [h, bytesOf_append, hcons] at hlines
  obtain ⟨rest, c, hrest⟩ := (List.eq_nil_or_concat (nl :: bytesOf vs)).resolve_left (by simp)
  rw [List.concat_eq_append] at hrest
  rw [hrest, ← List.append_assoc, ← List.append_assoc] at hlines
  obtain ⟨hbytes, hc⟩ := List.append_inj' hlines rfl
  rw [List.append_assoc] at hbytes
  refine ⟨rest, hbytes.symm, ?_⟩
  rw [hrest, hc]

theorem IniFile.lines_valid : Tokens true p.document.lines := by
  obtain ⟨text, htail, -⟩ := p.document_tail
  have hd := p.document_valid
  have hfits := hd.tail
  rw [htail] at hfits
  rw [Document.lines, htail]
  exact tokens_append.mpr ⟨hd.tokens, ⟨rfl, hfits⟩, trivial⟩

end

/-! ### Where a new key goes -/

section
variable {sect key text : List UInt8} {ts us vs : List Token} {w w' : Walk} {f : Spans}

theorem headed_cons {t : Token} : Headed sect (t :: ts) ↔
    (∃ name, t = .header name ∧ name <+: sect) ∨ Headed sect ts := by
  constructor
  · rintro ⟨name, hmem, hpre⟩
    rcases List.mem_cons.mp hmem with h | h
    · exact Or.inl ⟨name, h.symm, hpre⟩
    · exact Or.inr ⟨name, h, hpre⟩
  · rintro (⟨name, rfl, hpre⟩ | ⟨name, hmem, hpre⟩)
    · exact ⟨name, List.mem_cons_self, hpre⟩
    · exact ⟨name, List.mem_cons_of_mem _ hmem, hpre⟩

theorem seatHere_eq_none {t : Token} :
    seatHere sect t ts = none ↔ ¬ ∃ name, t = .header name ∧ name <+: sect := by
  cases t with
  | line text nl => simp [seatHere]
  | header name =>
    rcases Classical.em (name <+: sect) with hpre | hpre
    · simp [seatHere, hpre]
    · simp [seatHere, hpre]

/-- There is a seat behind every header that passes. -/
theorem seat_eq_none : seat sect ts = none ↔ ¬ Headed sect ts := by
  induction ts with
  | nil => exact iff_of_true rfl fun ⟨_, h, _⟩ => by simp at h
  | cons t ts ih =>
    rw [headed_cons, seat, Option.or_eq_none_iff, Option.map_eq_none_iff, ih, seatHere_eq_none,
      not_or, and_comm]

theorem seat_eq_some (h : seat sect ts = some (us, vs)) : ts = us ++ vs ∧
    ∃ pre name mid, us = pre ++ .header name :: mid ∧ name <+: sect ∧
      ∀ t ∈ mid, t.blank = true := by
  induction ts generalizing us vs with
  | nil => cases h
  | cons t ts ih =>
    rcases Option.or_eq_some_iff.mp h with h | ⟨-, h⟩
    · obtain ⟨⟨us', vs'⟩, hs, hr⟩ := Option.map_eq_some_iff.mp h
      obtain ⟨rfl, rfl⟩ := Prod.mk.inj hr
      obtain ⟨rfl, pre, name, mid, rfl, hpre, hmid⟩ := ih hs
      exact ⟨rfl, t :: pre, name, mid, rfl, hpre, hmid⟩
    · cases t with
      | line text nl => cases h
      | header name =>
        obtain ⟨hpre, hr⟩ := (Option.ite_none_right_eq_some).mp h
        obtain ⟨rfl, rfl⟩ := Prod.mk.inj (Option.some.inj hr)
        refine ⟨?_, [], name, ts.takeWhile Token.blank, rfl, hpre, fun t ht =>
          List.mem_takeWhile_imp ht⟩
        rw [List.cons_append, List.takeWhile_append_dropWhile]

/-- A line that is no entry, without white space in front: it moves `sec_e` only if it is blank. -/
theorem readLine_secE (ht : Flush text)
    (hfresh : w.place = .fresh → w.spans.secE = w.pos) {len : ℕ}
    (h : w.readLine key text len = .ok w') : w'.pos = w.pos + len ∧
      (w'.place = .fresh ↔ w.place = .fresh ∧ text.all isSpace = true) ∧
      w'.spans.secE = if w.place = .fresh ∧ text.all isSpace = true then ((w.pos + len : ℕ) : ℤ)
        else w.spans.secE := by
  rcases eq_or_ne w.place .outside with hout | hout
  · rw [readLine_outside hout] at h
    obtain rfl := Except.ok.inj h
    refine ⟨rfl, iff_of_false (by simp [hout]) (by simp [hout]), ?_⟩
    rw [if_neg (by simp [hout])]
  rcases Classical.em (w.place = .fresh ∧ ∀ b ∈ text, isSpace b = true) with hb | hb
  · have hall : text.all isSpace = true := List.all_eq_true.mpr hb.2
    rw [readLine_blank hb.1 hb.2] at h
    obtain rfl := Except.ok.inj h
    exact ⟨rfl, iff_of_true hb.1 ⟨hb.1, hall⟩, (if_pos ⟨hb.1, hall⟩).symm⟩
  · have hno : ¬ (w.place = .fresh ∧ text.all isSpace = true) := fun h =>
      hb ⟨h.1, List.all_eq_true.mp h.2⟩
    rw [readLine_entered hout hb] at h
    cases hm : matchKey key (text.drop (w.place.skipped text)) with
    | some k =>
      rw [hm] at h
      cases h
    | none =>
      rw [hm] at h
      obtain rfl := Except.ok.inj h
      refine ⟨rfl, iff_of_false (by simp) hno, ?_⟩
      rw [if_neg hno]
      dsimp only
      rw [Walk.entered]
      split
      · rename_i hf
        rw [skipped_of_none _ ht.takeWhile, hfresh hf]
        rfl
      · rfl

/-- Where `sec_e` is behind the tokens, from the walk in front of them: at the seat, or behind the blank
    lines that follow a header, or where it was. -/
def secEAfter (sect : List UInt8) (w : Walk) (ts : List Token) : ℤ :=
  match seat sect ts with
  | some (us, _) => (w.pos + (bytesOf us).length : ℕ)
  | none =>
    if w.place = .fresh then (w.pos + (bytesOf (ts.takeWhile Token.blank)).length : ℕ)
    else w.spans.secE

theorem length_bytesOf_cons (t : Token) (us : List Token) :
    (bytesOf (t :: us)).length = t.bytes.length + (bytesOf us).length := by
  rw [bytesOf, List.flatMap_cons, List.length_append]
  rfl

theorem secEAfter_header (hfresh : w.place = .fresh → w.spans.secE = w.pos) (name : List UInt8) :
    secEAfter sect w (.header name :: ts) =
      secEAfter sect (w.readHeader sect name (name.length + 2)) ts := by
  have hlen : (Token.header name).bytes.length = name.length + 2 := by simp [Token.bytes]
  have hnot : ¬ (Token.header name).blank = true := by simp [Token.blank]
  rw [secEAfter, secEAfter, seat, List.takeWhile_cons, if_neg hnot]
  rcases Classical.em (name <+: sect) with hpre | hpre
  · rw [readHeader_fresh hpre]
    cases hs : seat sect ts with
    | some r =>
      simp only [Option.map_some, Option.some_or, length_bytesOf_cons, hlen, Nat.add_assoc]
    | none =>
      simp only [Option.map_none, Option.none_or, seatHere, if_pos hpre, if_true,
        length_bytesOf_cons, hlen, Nat.add_assoc]
  · rw [readHeader_outside hpre]
    cases hs : seat sect ts with
    | some r =>
      simp only [Option.map_some, Option.some_or, length_bytesOf_cons, hlen, Nat.add_assoc]
    | none =>
      simp only [Option.map_none, Option.none_or, seatHere, if_neg hpre, reduceCtorEq, if_false]
      split
      · rename_i hf
        exact (hfresh hf).symm
      · rfl

theorem secEAfter_line (ht : Flush text) (hfresh : w.place = .fresh → w.spans.secE = w.pos)
    {nl : UInt8} (h : w.readLine key text (text.length + 1) = .ok w') :
    secEAfter sect w (.line text nl :: ts) = secEAfter sect w' ts := by
  have hlen : (Token.line text nl).bytes.length = text.length + 1 := by simp [Token.bytes]
  obtain ⟨hpos, hplace, hsec⟩ := readLine_secE ht hfresh h
  rw [secEAfter, secEAfter, seat, List.takeWhile_cons]
  cases hs : seat sect ts with
  | some r =>
    simp only [Option.map_some, Option.some_or, length_bytesOf_cons, hlen, hpos, Nat.add_assoc]
  | none =>
    simp only [Option.map_none, Option.none_or, seatHere]
    by_cases hb : w.place = .fresh ∧ text.all isSpace = true
    · have hblank : (Token.line text nl).blank = true := hb.2
      rw [if_pos (hplace.mpr hb), if_pos hb.1, if_pos hblank, length_bytesOf_cons, hlen, hpos,
        ← Nat.add_assoc]
    · rw [if_neg (mt hplace.mp hb), hsec, if_neg hb]
      split
      · rename_i hf
        have hblank : ¬ (Token.line text nl).blank = true := fun h => hb ⟨hf, h⟩
        rw [if_neg hblank, hfresh hf]
        rfl
      · rfl

/-- Run lemma, by induction on the tokens: `sec_e` is at the seat. -/
theorem run_secE (hts : ∀ t ∈ ts, t.Trim) (hfresh : w.place = .fresh → w.spans.secE = w.pos)
    (h : run (step sect key) w ts = .ok w') : w'.spans.secE = secEAfter sect w ts := by
  induction ts generalizing w with
  | nil =>
    obtain rfl := Except.ok.inj h
    dsimp only [secEAfter, seat]
    split
    · rename_i hf
      exact hfresh hf
    · rfl
  | cons t ts ih =>
    obtain ⟨u, hu, hrest⟩ := run_cons_ok.mp h
    have hts' : ∀ t ∈ ts, t.Trim := fun t ht => hts t (List.mem_cons_of_mem _ ht)
    cases t with
    | header name =>
      obtain rfl : w.readHeader sect name (name.length + 2) = u := Except.ok.inj hu
      rw [secEAfter_header hfresh]
      refine ih hts' ?_ hrest
      intro hf
      rcases Classical.em (name <+: sect) with hpre | hpre
      · rw [readHeader_fresh hpre]
      · rw [readHeader_outside hpre] at hf
        cases hf
    | line text nl =>
      have ht : Flush text := hts _ List.mem_cons_self
      obtain ⟨hpos, hplace, hsec⟩ := readLine_secE ht hfresh hu
      rw [secEAfter_line ht hfresh hu]
      refine ih hts' ?_ hrest
      intro hf
      rw [hsec, if_pos (hplace.mp hf), hpos]

/-- `parse_file` returns the seat in `sec_e`, if it finds no entry. -/
theorem lookUp_seat {d : Document} (hd : d.Valid) (hts : ∀ t ∈ d.tokens, t.Trim)
    (htail : d.tail = .line text) (ht : Flush text)
    (h : d.lookUp sect key = (false, f)) (hseat : seat sect d.tokens = some (us, vs)) :
    f.secE = ((bytesOf us).length : ℕ) := by
  obtain ⟨w, w', hrun, hread, hans⟩ := Document.lookUp_false (congrArg Prod.fst h)
  obtain rfl : f = w'.spans := (Prod.mk.inj (h.symm.trans hans)).2
  have hsec := run_secE hts at_start.secE hrun
  rw [secEAfter, hseat] at hsec
  have hat := (at_of_run hd.tokens hrun)
  rw [htail] at hread
  obtain ⟨-, -, hsec'⟩ := readLine_secE ht hat.secE hread
  rw [hsec']
  split
  · rename_i hb
    -- the tail is empty
    have hnil : text = [] := by
      rw [← List.takeWhile_append_dropWhile (p := isSpace) (l := text), ht.takeWhile,
        List.dropWhile_eq_nil_iff.mpr (List.all_eq_true.mp hb.2)]
      rfl
    rw [hnil, List.length_nil, Nat.add_zero, ← hat.secE hb.1, hsec]
    simp
  · rw [hsec]
    simp

end

end AcqBoard.Ini
