import AcqBoard.Ini.Framed
import AcqBoard.Ini.Pieces

/-! A profile as a store.

    One write puts one value under its names, if none of the names in use is a prefix of another one.
    This module follows any number of writes: the text stays a list of lines whose headers stand
    alone, no write faults while there is room, and what is read under a name is the value that was
    written there last. -/

namespace AcqBoard.Ini
open Schemes

/-! ### Texts whose headers stand alone -/

/-- A line that is no header. -/
def Content (text : List UInt8) : Prop := ∃ l : IniLine, (∀ name, l ≠ .header name) ∧ l.bytes = text

/-- The lines of a text, the last one with an end put behind it. A header has its line to itself, and
    it is not the last one. -/
inductive Lined : List Token → Prop
  | last {text : List UInt8} (content : Content text) : Lined [.line text (byte '\n')]
  | line {text : List UInt8} {nl : UInt8} {ts : List Token} (ends : newline nl = true)
    (content : Content text) (rest : Lined ts) : Lined (.line text nl :: ts)
  | header {nl : UInt8} {ts : List Token} (name : Name) (ends : newline nl = true)
    (rest : Lined ts) : Lined (.header name.bytes :: .line [] nl :: ts)

theorem content_nil : Content [] := ⟨.empty, by simp, rfl⟩

theorem content_entry (key : Key) (value : Chars) : Content (key.bytes ++ byte '=' :: value.bytes) :=
  ⟨.entry key value, by simp, rfl⟩

section
variable {l m us vs ws ts : List Token} {text new : List UInt8} {nl : UInt8}

theorem Lined.ending {e : Ending} (hts : Lined ts) (h : Content text) :
    Lined (e.tokens text ++ ts) := by
  cases e with
  | lf => exact .line rfl h hts
  | cr => exact .line rfl h hts
  | crlf => exact .line rfl h (.line rfl content_nil hts)

theorem Lined.iniLine (l : IniLine) (e : Ending) (hts : Lined ts) : Lined (l.tokens e ++ ts) := by
  cases l with
  | header name =>
    cases e with
    | lf => exact .header name rfl hts
    | cr => exact .header name rfl hts
    | crlf => exact .header name rfl (.line rfl content_nil hts)
  | empty => exact hts.ending ⟨.empty, by simp, rfl⟩
  | comment c => exact hts.ending ⟨.comment c, by simp, rfl⟩
  | entry k v => exact hts.ending ⟨.entry k v, by simp, rfl⟩

/-- A line in place of another one that is not empty. -/
theorem Lined.replace (h : Lined l) (hl : l = us ++ .line text nl :: vs) (hne : text ≠ [])
    (hnew : Content new) : Lined (us ++ .line new nl :: vs) := by
  induction h generalizing us with
  | last content =>
    cases us with
    | nil =>
      obtain ⟨hhead, rfl⟩ := List.cons.inj hl
      obtain ⟨-, rfl⟩ := Token.line.inj hhead
      exact .last hnew
    | cons u us => simp at hl
  | line ends content rest ih =>
    cases us with
    | nil =>
      obtain ⟨hhead, rfl⟩ := List.cons.inj hl
      obtain ⟨-, rfl⟩ := Token.line.inj hhead
      exact .line ends hnew rest
    | cons u us =>
      obtain ⟨rfl, htail⟩ := List.cons.inj hl
      exact .line ends content (ih htail)
  | header name ends rest ih =>
    cases us with
    | nil => cases (List.cons.inj hl).1
    | cons u us =>
      obtain ⟨rfl, htail⟩ := List.cons.inj hl
      cases us with
      | nil => exact absurd (Token.line.inj (List.cons.inj htail).1).1.symm hne
      | cons u us =>
        obtain ⟨rfl, hrest⟩ := List.cons.inj htail
        exact .header name ends (ih hrest)

/-- A new line, not between a header and the end of its line. -/
theorem Lined.insert (h : Lined l) (hl : l = us ++ ws) (hws : ws ≠ [])
    (hus : ∀ pre name, us ≠ pre ++ [.header name]) (hnl : newline nl = true) (hnew : Content new) :
    Lined (us ++ .line new nl :: ws) := by
  induction h generalizing us with
  | last content =>
    cases us with
    | nil =>
      obtain rfl := hl
      exact .line hnl hnew (.last content)
    | cons u us => exact absurd (List.append_eq_nil_iff.mp (List.cons.inj hl).2.symm).2 hws
  | line ends content rest ih =>
    cases us with
    | nil =>
      obtain rfl := hl
      exact .line hnl hnew (.line ends content rest)
    | cons u us =>
      obtain ⟨rfl, htail⟩ := List.cons.inj hl
      exact .line ends content (ih htail fun pre name h => hus (_ :: pre) name (by rw [h]; rfl))
  | header name ends rest ih =>
    cases us with
    | nil =>
      obtain rfl := hl
      exact .line hnl hnew (.header name ends rest)
    | cons u us =>
      obtain ⟨rfl, htail⟩ := List.cons.inj hl
      cases us with
      | nil => exact absurd rfl (hus [] name.bytes)
      | cons u us =>
        obtain ⟨rfl, hrest⟩ := List.cons.inj htail
        exact .header name ends
          (ih hrest fun pre name h => hus (_ :: _ :: pre) name (by rw [h]; rfl))

theorem Lined.append (h : Lined l) (hm : Lined m) : Lined (l ++ m) := by
  induction h with
  | last content => exact .line rfl content hm
  | line ends content rest ih => exact .line ends content ih
  | header name ends rest ih => exact .header name ends ih

/-- Behind a header there is the end of its line, and more. -/
theorem Lined.behind_header {name : List UInt8} (h : Lined l) (hl : l = us ++ .header name :: ws) :
    ∃ nl t vs, ws = .line [] nl :: t :: vs := by
  induction h generalizing us with
  | last content =>
    cases us with
    | nil => cases (List.cons.inj hl).1
    | cons u us => simp at hl
  | line ends content rest ih =>
    cases us with
    | nil => cases (List.cons.inj hl).1
    | cons u us => exact ih (List.cons.inj hl).2
  | header n ends rest ih =>
    cases us with
    | nil =>
      obtain ⟨-, rfl⟩ := List.cons.inj hl
      cases rest with
      | last content => exact ⟨_, _, _, rfl⟩
      | line _ _ _ => exact ⟨_, _, _, rfl⟩
      | header _ _ _ => exact ⟨_, _, _, rfl⟩
    | cons u us =>
      cases us with
      | nil => cases (List.cons.inj (List.cons.inj hl).2).1
      | cons u us => exact ih (List.cons.inj (List.cons.inj hl).2).2

end

/-- No header at the end of the text. -/
def IniFile.Ended (p : IniFile) : Prop := ∀ name, p.last ≠ .header name

theorem IniFile.Ended.lines {p : IniFile} (h : p.Ended) :
    p.document.lines = (Profile.document p.lines).tokens ++ [.line p.last.bytes (byte '\n')] := by
  rcases p.document_cases with ⟨name, hlast, -⟩ | ⟨-, hd⟩
  · exact absurd hlast (h name)
  · rw [hd]
    rfl

theorem Profile.document_cons (l : IniLine × Ending) (t : Profile) :
    (Profile.document (l :: t)).tokens = l.1.tokens l.2 ++ (Profile.document t).tokens :=
  List.flatMap_cons (f := fun l : IniLine × Ending => l.1.tokens l.2)

theorem IniFile.Ended.lined {p : IniFile} (h : p.Ended) : Lined p.document.lines := by
  rw [h.lines]
  have hall : ∀ t : Profile, Lined ((Profile.document t).tokens ++ [.line p.last.bytes (byte '\n')]) := by
    intro t
    induction t with
    | nil => exact .last ⟨p.last, h, rfl⟩
    | cons l t ih =>
      rw [Profile.document_cons, List.append_assoc]
      exact ih.iniLine l.1 l.2
  exact hall p.lines

theorem ending_of_newline {nl : UInt8} (h : newline nl = true) (text : List UInt8) :
    ∃ e : Ending, e.tokens text = [.line text nl] := by
  rw [newline, Bool.or_eq_true, decide_eq_true_eq, decide_eq_true_eq] at h
  rcases h with rfl | rfl
  · exact ⟨.lf, rfl⟩
  · exact ⟨.cr, rfl⟩

/-- Every such list of lines is a profile. -/
theorem Lined.exists_iniFile {l : List Token} (h : Lined l) :
    ∃ p : IniFile, p.Ended ∧ p.document.lines = l := by
  induction h with
  | last content =>
    obtain ⟨c, hc, rfl⟩ := content
    have hended : IniFile.Ended ⟨[], c⟩ := hc
    exact ⟨⟨[], c⟩, hended, hended.lines⟩
  | @line text nl ts ends content rest ih =>
    obtain ⟨c, hc, rfl⟩ := content
    obtain ⟨p, hp, hlines⟩ := ih
    obtain ⟨e, he⟩ := ending_of_newline ends c.bytes
    have hended : IniFile.Ended ⟨(c, e) :: p.lines, p.last⟩ := hp
    have htokens : c.tokens e = e.tokens c.bytes := by
      cases c with
      | header name => exact absurd rfl (hc name)
      | empty => rfl
      | comment _ => rfl
      | entry _ _ => rfl
    refine ⟨_, hended, ?_⟩
    rw [hended.lines, ← hlines, hp.lines, Profile.document_cons, htokens, he]
    rfl
  | @header nl ts name ends rest ih =>
    obtain ⟨p, hp, hlines⟩ := ih
    obtain ⟨e, he⟩ := ending_of_newline ends []
    have hended : IniFile.Ended ⟨(.header name, e) :: p.lines, p.last⟩ := hp
    refine ⟨_, hended, ?_⟩
    rw [hended.lines, ← hlines, hp.lines, Profile.document_cons, IniLine.tokens, he]
    rfl

/-! ### A write comes back -/

theorem IniFile.no_opened {p : IniFile} (sect : List UInt8) :
    ∀ name, p.document.tail = .opened name → ¬ name <+: sect := by
  obtain ⟨text, htail, -⟩ := p.document_tail
  intro name hname
  rw [htail] at hname
  cases hname

section
variable {conv : List UInt8 → ℤ → Except Fault (List UInt8)} {q : Update} {p : IniFile}
  {file : File} (hold : file.getD [] = p.bytes) (hroom : Room q p.bytes)
include hold hroom

/-- What `write_profile_string` finds. -/
theorem load_old : loadAndParse q.sect.bytes q.key.bytes file =
    .ok (filled p.bytes, p.bytes.length, (p.document.lookUp q.sect.bytes q.key.bytes).2) := by
  have hlen := hroom.room
  have hp := parse_old hroom q.sect.ne q.key.ne
  cases file with
  | none =>
    have hnil : p.bytes = [] := hold.symm
    rw [document_empty hnil, hnil]
    rfl
  | some bytes =>
    obtain rfl : bytes = p.bytes := hold
    rw [loadAndParse, loadIniFile_eq (by rw [takeWhile_eof_self hroom.eof]; omega),
      takeWhile_eof_self hroom.eof]
    simp only [bind, Except.bind, hp, pure, Except.pure]

omit hold in
/-- A value that is replaced fits. -/
theorem newText_found {f : Spans} {us vs : List Token} {e : Names × List UInt8} {nl : UInt8}
    {rest : List UInt8} (hf : Found q p f us e nl vs rest)
    (hload : loadAndParse q.sect.bytes q.key.bytes file = .ok (filled p.bytes, p.bytes.length, f)) :
    ∃ t, newText conv q.sect.bytes q.key.bytes q.value.bytes (filled p.bytes) p.bytes.length f =
      .ok (filled t) ∧ t.length < maxFileSize := by
  have hlen := hroom.room
  have hnew := hf.room hroom
  have hparsed := parsed_of_load q.sect.ne q.key.ne hload
  have hfits : TextFits conv q.sect.bytes q.key.bytes q.value.bytes (filled p.bytes) p.bytes.length
      f := by
    obtain ⟨h₀, h₁, h₂⟩ := hparsed.value hf.spans.2
    rw [TextFits, if_neg hf.spans.1, if_neg hf.spans.2]
    omega
  obtain ⟨w, hw⟩ := newText_returns hparsed hfits
  have hreplace := newText_replace hf.spans.1 hf.spans.2 hf.old hf.start hf.stop (by omega)
    (by omega) hw
  exact ⟨_, hw.trans (congrArg _ hreplace), by omega⟩

omit hold in
/-- A new key at the seat fits, with the rest as it is behind it. -/
theorem newText_seat {f : Spans} {us vs : List Token} {name b : List UInt8}
    (hs : Gap q p us vs name b) (hpct : byte '%' ∉ p.bytes)
    (hsec : f.secS ≠ -1) (hkey : f.keyS = -1) (hpos : f.secE = ((bytesOf us).length : ℕ))
    (hload : loadAndParse q.sect.bytes q.key.bytes file = .ok (filled p.bytes, p.bytes.length, f)) :
    ∃ t, newText conv q.sect.bytes q.key.bytes q.value.bytes (filled p.bytes) p.bytes.length f =
      .ok (filled t) ∧ t.length < maxFileSize := by
  have hlen := hroom.room
  have hold : p.bytes.length = (bytesOf us).length + b.length := by
    rw [hs.old, List.length_append]
  have hb : strOf ((filled p.bytes).drop (bytesOf us).length) = b := by
    have hzero : 0 ∉ p.bytes := p.document_bytes ▸ p.document_valid.zero
    rw [hs.old, List.mem_append, not_or] at hzero
    rw [filled, List.drop_append_of_le_length (by omega), hs.old, List.drop_left,
      strOf_append hzero.2, strOf_replicate, List.append_nil]
  rw [hs.old, List.mem_append, not_or] at hpct
  have hfits : TextFits conv q.sect.bytes q.key.bytes q.value.bytes (filled p.bytes) p.bytes.length
      f := by
    rw [TextFits, if_neg hsec, if_pos hkey, hpos, Int.toNat_natCast, hb]
    refine ⟨b, by rw [sprintf, if_neg hpct.2], ?_⟩
    omega
  obtain ⟨w, hw⟩ := newText_returns (parsed_of_load q.sect.ne q.key.ne hload) hfits
  obtain ⟨s, -, hws, hlt⟩ := newText_insert hsec hkey (by omega) hpos (by omega) hw
  exact ⟨_, hw.trans (congrArg _ hws), hlt⟩

omit hold in
/-- A new section fits. -/
theorem newText_section {f : Spans} (hsec : f.secS = -1)
    (hload : loadAndParse q.sect.bytes q.key.bytes file = .ok (filled p.bytes, p.bytes.length, f)) :
    ∃ t, newText conv q.sect.bytes q.key.bytes q.value.bytes (filled p.bytes) p.bytes.length f =
      .ok (filled t) ∧ t.length < maxFileSize := by
  have hlen := hroom.room
  have hfits : TextFits conv q.sect.bytes q.key.bytes q.value.bytes (filled p.bytes) p.bytes.length
      f := by
    rw [TextFits, if_pos hsec]
    split
    · omega
    · omega
  obtain ⟨w, hw⟩ := newText_returns (parsed_of_load q.sect.ne q.key.ne hload) hfits
  obtain ⟨t, -, hws, hlt⟩ := newText_append hsec (by omega) hw
  exact ⟨t, hw.trans (congrArg _ hws), hlt⟩

variable (conv) in
/-- A write comes back, if there is room and no `%` that `sprintf` could take for a conversion. -/
theorem write_returns (hpct : byte '%' ∉ p.bytes) :
    ∃ new, writeProfileString conv q.sect.bytes q.key.bytes q.value.bytes file ⟨true, none⟩ =
      .ok (true, some new) := by
  have hload := load_old hold hroom
  obtain ⟨found, f, hl⟩ : ∃ found f, p.document.lookUp q.sect.bytes q.key.bytes = (found, f) :=
    ⟨_, _, rfl⟩
  rw [hl] at hload
  obtain ⟨t, ht, hlt⟩ : ∃ t, newText conv q.sect.bytes q.key.bytes q.value.bytes (filled p.bytes)
      p.bytes.length f = .ok (filled t) ∧ t.length < maxFileSize := by
    cases found with
    | true =>
      obtain ⟨us, e, nl, vs, rest, hf⟩ := lookUp_found hl
      exact newText_found hroom hf hload
    | false =>
      cases hseat : seat q.sect.bytes p.document.tokens with
      | none =>
        obtain ⟨rfl, -⟩ := lookUp_unheaded p.document_valid hl (seat_eq_none.mp hseat)
          (IniFile.no_opened _)
        exact newText_section hroom rfl hload
      | some r =>
        obtain ⟨us, vs⟩ := r
        obtain ⟨name, b, hs⟩ := seat_gap hseat
        obtain ⟨text, htail, htext⟩ := p.document_tail
        have hheaded : Headed q.sect.bytes p.document.tokens := by
          by_contra hno
          rw [seat_eq_none.mpr hno] at hseat
          cases hseat
        exact newText_seat hroom hs hpct
          (lookUp_headed p.document_valid hl hheaded (IniFile.no_opened _)).1
          (lookUp_keyS p.document_valid hl)
          (lookUp_seat p.document_valid p.tokens_trim htail htext hl hseat) hload
  have hzero : 0 ∈ filled t := by
    rw [filled_end hlt]
    simp
  refine ⟨strOf (filled t), ?_⟩
  rw [writeProfileString, if_neg (by simp [q.sect.ne, q.key.ne]), hload]
  simp only [bind, Except.bind, ht]
  rw [if_neg (by simp), if_neg (not_not.mpr hzero)]
  rfl

variable (conv) in
/-- Without permission to write, the file stays. -/
theorem write_refused (hpct : byte '%' ∉ p.bytes) :
    writeProfileString conv q.sect.bytes q.key.bytes q.value.bytes file ⟨false, none⟩ =
      .ok (false, file) := by
  obtain ⟨new, hnew⟩ := write_returns conv hold hroom hpct
  have hload := load_old hold hroom
  rw [writeProfileString, if_neg (by simp [q.sect.ne, q.key.ne]), hload] at hnew ⊢
  obtain ⟨_, ⟨⟩, hnew⟩ := bind_eq_ok.mp hnew
  obtain ⟨w, hw, -⟩ := bind_eq_ok.mp hnew
  simp only [bind, Except.bind, hw]
  rfl

end

/-! ### Names in use -/

/-- No two names in use pass for each other. -/
structure Distinct (used : Names → Prop) : Prop where
  sects : ∀ x y, used x → used y → x.sect <+: y.sect → x.sect = y.sect
  names : ∀ x y, used x → used y → x ≤ y → x = y

/-- A text in which nothing but a name in use passes for it, and without the bytes that end a file
    early or that `sprintf` takes for a conversion. -/
structure Clear (used : Names → Prop) (p : IniFile) : Prop where
  ended : p.Ended
  eof : eof ∉ p.bytes
  percent : byte '%' ∉ p.bytes
  headers : ∀ name, .header name ∈ p.document.lines → ∀ x, used x → name <+: x.sect → name = x.sect
  entries : ∀ e ∈ p.table, ∀ x, used x → e.1 ≤ x → e.1 = x

/-- A byte that may stand in a name or in a value. -/
def Harmless (s : List UInt8) : Prop := eof ∉ s ∧ byte '%' ∉ s

instance (s : List UInt8) : Decidable (Harmless s) := inferInstanceAs (Decidable (_ ∧ _))

structure Update.Clear (used : Names → Prop) (q : Update) : Prop where
  used : used q.names
  sect : Harmless q.sect.bytes
  key : Harmless q.key.bytes
  value : Harmless q.value.bytes

/-- The most that a write adds to a text. -/
def Update.size (q : Update) : ℕ :=
  q.sect.bytes.length + q.key.bytes.length + q.value.bytes.length + 6

/-- What a write makes of a table that is read under names in use. -/
def Puts (used : Names → Prop) (q : Update) (m m' : Table) : Prop :=
  ∀ x, used x → firstBelow m' x = if x = q.names then some q.value.bytes else firstBelow m x

section
variable {used : Names → Prop} {q : Update} {p p' : IniFile} {l r m : Table} {us vs : List Token}

/-- One entry that is new or has a new value. -/
theorem puts_of_split (hd : Distinct used) (hq : used q.names)
    (h : m = l ++ r ∨ ∃ w, m = l ++ (q.names, w) :: r) (hl : firstBelow l q.names = none) :
    Puts used q m (l ++ (q.names, q.value.bytes) :: r) := by
  intro x hx
  split
  · rename_i heq
    rw [heq]
    exact firstBelow_here hl le_rfl _ _
  · rename_i hne
    refine (write_keeps_iff h).mpr fun _ hle => ?_
    exact absurd (hd.names _ _ hq hx hle).symm hne

theorem entries_of_split (hd : Distinct used) (hq : used q.names) (hp : Clear used p)
    (h : p.table = l ++ r ∨ ∃ w, p.table = l ++ (q.names, w) :: r) :
    ∀ e ∈ l ++ (q.names, q.value.bytes) :: r, ∀ x, used x → e.1 ≤ x → e.1 = x := by
  intro e he x hx hle
  have hmem : e ∈ p.table ∨ e.1 = q.names := by
    rcases List.mem_append.mp he with he | he
    · refine Or.inl ?_
      rcases h with h | ⟨w, h⟩
      · rw [h]
        exact List.mem_append_left _ he
      · rw [h]
        exact List.mem_append_left _ he
    rcases List.mem_cons.mp he with rfl | he
    · exact Or.inr rfl
    · refine Or.inl ?_
      rcases h with h | ⟨w, h⟩
      · rw [h]
        exact List.mem_append_right _ he
      · rw [h]
        exact List.mem_append_right _ (List.mem_cons_of_mem _ he)
  rcases hmem with he | he
  · exact hp.entries e he x hx hle
  · rw [he] at hle ⊢
    exact hd.names _ _ hq hx hle

theorem Harmless.append {s t : List UInt8} (hs : Harmless s) (ht : Harmless t) : Harmless (s ++ t) :=
  ⟨fun h => (List.mem_append.mp h).elim hs.1 ht.1, fun h => (List.mem_append.mp h).elim hs.2 ht.2⟩

theorem Harmless.of_subset {s t : List UInt8} (hs : Harmless s) (h : ∀ b ∈ t, b ∈ s) : Harmless t :=
  ⟨fun he => hs.1 (h _ he), fun he => hs.2 (h _ he)⟩

theorem Clear.harmless (hp : Clear used p) : Harmless p.bytes := ⟨hp.eof, hp.percent⟩

theorem Update.Clear.newKey (hq : q.Clear used) : Harmless (newKey q.key.bytes q.value.bytes) := by
  refine hq.key.append (.append (s := [byte '=']) ⟨by decide, by decide⟩ (hq.value.append ?_))
  exact ⟨by decide, by decide⟩

/-- The profile of a new list of lines. -/
theorem clear_of_lined {ls : List Token} {new : List UInt8} (hls : Lined ls)
    (hbytes : bytesOf ls = new ++ [byte '\n']) (hnew : Harmless new)
    (hheaders : ∀ name, .header name ∈ ls → ∀ x, used x → name <+: x.sect → name = x.sect)
    (hentries : ∀ e ∈ tableOf none ls, ∀ x, used x → e.1 ≤ x → e.1 = x) :
    ∃ p' : IniFile, p'.bytes = new ∧ p'.table = tableOf none ls ∧ Clear used p' := by
  obtain ⟨p', hended, rfl⟩ := hls.exists_iniFile
  have hp' : p'.bytes = new := by
    have hlines := p'.bytesOf_lines
    rw [hbytes] at hlines
    exact (List.append_cancel_right hlines).symm
  exact ⟨p', hp', rfl, hended, hp' ▸ hnew.1, hp' ▸ hnew.2, hheaders, hentries⟩

/-- A new text is the bytes of a profile whose table is the old one with the value put in. -/
def Stored (used : Names → Prop) (q : Update) (p : IniFile) (new : List UInt8) : Prop :=
  ∃ p' : IniFile, p'.bytes = new ∧ Clear used p' ∧ p'.bytes.length ≤ p.bytes.length + q.size ∧
    Puts used q p.table p'.table

section
variable (hd : Distinct used) (hq : q.Clear used) (hp : Clear used p)
include hd hq hp

/-- The value is replaced in its line. -/
theorem stored_found {f : Spans} {e : Names × List UInt8} {nl : UInt8} {rest : List UInt8}
    (hf : Found q p f us e nl vs rest) :
    Stored used q p (bytesOf us ++ (e.1.key ++ [byte '=']) ++ (q.value.bytes ++ rest)) := by
  have he : e.1 = q.names := by
    refine hp.entries e ?_ _ hq.used hf.below
    rw [hf.table]
    simp
  have hkey : e.1.key = q.key.bytes := by rw [he]; rfl
  have htable : p.table = tableOf none us ++ (q.names, e.2) :: tableOf (sectAfter none us) vs := by
    rw [hf.table, ← he]
  have hnew : tableOf none (us ++ .line (e.1.key ++ byte '=' :: q.value.bytes) nl :: vs) =
      tableOf none us ++ (q.names, q.value.bytes) :: tableOf (sectAfter none us) vs := by
    rw [tableOf_append, tableOf, entryOf_other hf.entry, ← he]
    rfl
  have hcontent : Content (e.1.key ++ byte '=' :: q.value.bytes) := hkey ▸ content_entry q.key q.value
  have hlined := hp.ended.lined.replace hf.lines (by simp) hcontent
  have hbytes : bytesOf (us ++ .line (e.1.key ++ byte '=' :: q.value.bytes) nl :: vs) =
      bytesOf us ++ (e.1.key ++ [byte '=']) ++ (q.value.bytes ++ rest) ++ [byte '\n'] := by
    have hcons : bytesOf (.line (e.1.key ++ byte '=' :: q.value.bytes) nl :: vs) =
        e.1.key ++ byte '=' :: q.value.bytes ++ nl :: bytesOf vs := by simp [bytesOf, Token.bytes]
    rw [bytesOf_append, hcons, hf.behind]
    simp only [List.append_assoc, List.cons_append, List.nil_append]
  have hold := hf.old
  have hharm : Harmless (bytesOf us ++ (e.1.key ++ [byte '=']) ++ (q.value.bytes ++ rest)) := by
    refine .append (hp.harmless.of_subset fun b hb => ?_)
      (.append hq.value (hp.harmless.of_subset fun b hb => ?_))
    · rw [hold]
      exact List.mem_append_left _ hb
    · rw [hold]
      exact List.mem_append_right _ (List.mem_append_right _ hb)
  obtain ⟨p', hp', htable', hclear⟩ := clear_of_lined hlined hbytes hharm
    (fun name hname x hx => hp.headers name (by
      rw [hf.lines]
      simpa using hname) x hx)
    (by
      rw [hnew]
      exact entries_of_split hd hq.used hp (Or.inr ⟨_, htable⟩))
  refine ⟨p', hp', hclear, ?_, ?_⟩
  · rw [hp', hold, Update.size]
    simp only [List.length_append, List.length_singleton]
    omega
  · rw [htable', hnew]
    exact puts_of_split hd hq.used (Or.inr ⟨_, htable⟩) hf.first

omit hd hq hp in
/-- No blank line comes behind the seat. -/
theorem seat_behind {sect : List UInt8} {ts : List Token} {t : Token}
    (h : seat sect ts = some (us, t :: vs)) : t.blank = false := by
  induction ts generalizing us with
  | nil => cases h
  | cons a ts ih =>
    rcases Option.or_eq_some_iff.mp h with h | ⟨-, h⟩
    · obtain ⟨⟨us', vs'⟩, hs, hr⟩ := Option.map_eq_some_iff.mp h
      obtain ⟨-, rfl⟩ := Prod.mk.inj hr
      exact ih hs
    · cases a with
      | line text nl => cases h
      | header name =>
        obtain ⟨-, hr⟩ := (Option.ite_none_right_eq_some).mp h
        obtain ⟨-, hdrop⟩ := Prod.mk.inj (Option.some.inj hr)
        have hhead := List.head_dropWhile_not Token.blank (l := ts) (by simp [hdrop])
        simpa [hdrop] using hhead

omit hd hq in
/-- The seat is not between a header and the end of its line. -/
theorem seat_ends {sect : List UInt8} (hseat : seat sect p.document.tokens = some (us, vs))
    (hlines : p.document.lines = us ++ (vs ++ p.document.tail.lines)) (pre : List Token)
    (name : List UInt8) : us ≠ pre ++ [.header name] := by
  rintro rfl
  rw [List.append_assoc, List.singleton_append] at hlines
  obtain ⟨nl, t, ws, hws⟩ := hp.ended.lined.behind_header hlines
  obtain ⟨text, htail, -⟩ := p.document_tail
  rw [htail] at hws
  cases vs with
  | nil => simp [Tail.lines] at hws
  | cons u vs =>
    obtain rfl := (List.cons.inj hws).1
    have hblank := seat_behind hseat
    simp [Token.blank] at hblank

/-- A new key at the seat. -/
theorem stored_seat {name b : List UInt8} (hs : Gap q p us vs name b)
    (hseat : seat q.sect.bytes p.document.tokens = some (us, vs))
    (hl : firstBelow p.table q.names = none) :
    Stored used q p (bytesOf us ++ (newKey q.key.bytes q.value.bytes ++ b)) := by
  obtain ⟨text, htail, -⟩ := p.document_tail
  have hname : name = q.sect.bytes := by
    obtain ⟨-, pre, n, mid, hus, -, hmid⟩ := seat_eq_some hseat
    have hsect := hs.sect
    rw [hus, sectAfter_append] at hsect
    obtain rfl : n = name := Option.some.inj ((sectAfter_blank hmid (some n)).symm.trans hsect)
    refine hp.headers n ?_ _ hq.used hs.below
    rw [hs.lines, hus]
    simp
  have hentry : entryOf (sectAfter none us) (q.key.bytes ++ byte '=' :: q.value.bytes) =
      some (q.names, q.value.bytes) := by
    rw [hs.sect, hname]
    exact entryOf_entry q.sect.bytes q.key.ne q.head_ne q.key_eq q.value.bytes
  have hnew : tableOf none (us ++ .line (q.key.bytes ++ byte '=' :: q.value.bytes) (byte '\n') ::
      (vs ++ p.document.tail.lines)) = tableOf none us ++ (q.names, q.value.bytes) ::
        tableOf (some name) (vs ++ p.document.tail.lines) := by
    rw [tableOf_append, tableOf, hentry, hs.sect]
    rfl
  have hend : newline (byte '\n') = true := rfl
  have hlined := hp.ended.lined.insert hs.lines (by simp [htail, Tail.lines])
    (seat_ends hp hseat hs.lines) hend (content_entry q.key q.value)
  have hbytes : bytesOf (us ++ .line (q.key.bytes ++ byte '=' :: q.value.bytes) (byte '\n') ::
      (vs ++ p.document.tail.lines)) =
        bytesOf us ++ (newKey q.key.bytes q.value.bytes ++ b) ++ [byte '\n'] := by
    have hcons : bytesOf (.line (q.key.bytes ++ byte '=' :: q.value.bytes) (byte '\n') ::
        (vs ++ p.document.tail.lines)) =
          newKey q.key.bytes q.value.bytes ++ bytesOf (vs ++ p.document.tail.lines) := by
      simp [bytesOf, Token.bytes, newKey]
    rw [bytesOf_append, hcons, hs.behind]
    simp only [List.append_assoc]
  have hharm : Harmless (bytesOf us ++ (newKey q.key.bytes q.value.bytes ++ b)) := by
    refine .append (hp.harmless.of_subset fun c hc => ?_)
      (.append hq.newKey (hp.harmless.of_subset fun c hc => ?_))
    · rw [hs.old]
      exact List.mem_append_left _ hc
    · rw [hs.old]
      exact List.mem_append_right _ hc
  obtain ⟨p', hp', htable', hclear⟩ := clear_of_lined hlined hbytes hharm
    (fun n hn x hx => hp.headers n (by
      rw [hs.lines]
      simpa using hn) x hx)
    (by
      rw [hnew]
      exact entries_of_split hd hq.used hp (Or.inl hs.table))
  refine ⟨p', hp', hclear, ?_, ?_⟩
  · rw [hp', hs.old, Update.size]
    simp only [List.length_append, length_newKey]
    omega
  · rw [htable', hnew]
    refine puts_of_split hd hq.used (Or.inl hs.table) ?_
    rw [hs.table, firstBelow_append, Option.or_eq_none_iff] at hl
    exact hl.1

/-- A new section. -/
theorem stored_section (hl : firstBelow p.table q.names = none) :
    Stored used q p (if p.bytes = [] then newSection q.sect.bytes q.key.bytes q.value.bytes
      else p.bytes ++ byte '\n' :: newSection q.sect.bytes q.key.bytes q.value.bytes) := by
  -- the lines of the section, with the end of the last one behind them
  have hsection : ∀ ts, bytesOf (ts ++ [.header q.sect.bytes, .line [] (byte '\n'),
      .line (q.key.bytes ++ byte '=' :: q.value.bytes) (byte '\n'), .line [] (byte '\n')]) =
        bytesOf ts ++ newSection q.sect.bytes q.key.bytes q.value.bytes ++ [byte '\n'] := by
    intro ts
    simp [bytesOf, Token.bytes, newSection]
  have hnew : ∀ ts, tableOf none (ts ++ [.header q.sect.bytes, .line [] (byte '\n'),
      .line (q.key.bytes ++ byte '=' :: q.value.bytes) (byte '\n'), .line [] (byte '\n')]) =
        tableOf none ts ++ (q.names, q.value.bytes) :: [] := by
    intro ts
    rw [tableOf_append]
    simp only [tableOf, entryOf_entry q.sect.bytes q.key.ne q.head_ne q.key_eq,
      entryOf_none (List.not_mem_nil (a := byte '='))]
    rfl
  have hlined : Lined [.header q.sect.bytes, .line [] (byte '\n'),
      .line (q.key.bytes ++ byte '=' :: q.value.bytes) (byte '\n'), .line [] (byte '\n')] :=
    .header q.sect rfl (.line rfl (content_entry q.key q.value) (.last content_nil))
  have hharm : Harmless (newSection q.sect.bytes q.key.bytes q.value.bytes) := by
    refine .append (s := [byte '[']) ⟨by decide, by decide⟩ (hq.sect.append ?_)
    exact .append (s := [byte ']', byte '\n']) ⟨by decide, by decide⟩ hq.newKey
  obtain ⟨ts, hts, hin, htable, hbytes, hall⟩ : ∃ ts, (ts = [] ∨ Lined ts) ∧
      (∀ t ∈ ts, t ∈ p.document.lines) ∧ tableOf none ts = p.table ∧
      (if p.bytes = [] then newSection q.sect.bytes q.key.bytes q.value.bytes
        else p.bytes ++ byte '\n' :: newSection q.sect.bytes q.key.bytes q.value.bytes) =
          bytesOf ts ++ newSection q.sect.bytes q.key.bytes q.value.bytes ∧
      Harmless (bytesOf ts) := by
    rcases eq_or_ne p.bytes [] with hnil | hne
    · refine ⟨[], Or.inl rfl, by simp, (table_empty hnil).symm, if_pos hnil, ?_⟩
      exact ⟨List.not_mem_nil, List.not_mem_nil⟩
    · refine ⟨p.document.lines, Or.inr hp.ended.lined, fun _ => id, rfl, ?_, ?_⟩
      · rw [if_neg hne, p.bytesOf_lines, List.append_assoc]
        rfl
      · rw [p.bytesOf_lines]
        exact hp.harmless.append ⟨by decide, by decide⟩
  have hlined' : Lined (ts ++ [.header q.sect.bytes, .line [] (byte '\n'),
      .line (q.key.bytes ++ byte '=' :: q.value.bytes) (byte '\n'), .line [] (byte '\n')]) := by
    rcases hts with rfl | hts
    · exact hlined
    · exact hts.append hlined
  obtain ⟨p', hp', htable', hclear⟩ := clear_of_lined hlined' (hsection ts) (hall.append hharm)
    (fun n hn x hx => by
      rcases List.mem_append.mp hn with hn | hn
      · exact hp.headers n (hin _ hn) x hx
      · obtain rfl : n = q.sect.bytes := by simpa using hn
        exact hd.sects _ _ hq.used hx)
    (by
      rw [hnew, htable]
      exact entries_of_split hd hq.used hp (Or.inl (List.append_nil _).symm))
  refine ⟨p', hp'.trans hbytes.symm, hclear, ?_, ?_⟩
  · rw [hp', ← hbytes, Update.size]
    split
    · rw [length_newSection]
      omega
    · simp only [List.length_append, List.length_cons, length_newSection]
      omega
  · rw [htable', hnew, htable]
    exact puts_of_split hd hq.used (Or.inl (List.append_nil _).symm) hl

/-- STEP: a write comes back, and the value is under its names. -/
theorem write_stored (conv : List UInt8 → ℤ → Except Fault (List UInt8)) {file : File}
    (hold : file.getD [] = p.bytes) (hroom : Room q p.bytes) :
    ∃ new, writeProfileString conv q.sect.bytes q.key.bytes q.value.bytes file ⟨true, none⟩ =
      .ok (true, some new) ∧ Stored used q p new := by
  obtain ⟨new, hnew⟩ := write_returns conv hold hroom hp.percent
  refine ⟨new, hnew, ?_⟩
  obtain ⟨found, f, hl⟩ : ∃ found f, p.document.lookUp q.sect.bytes q.key.bytes = (found, f) :=
    ⟨_, _, rfl⟩
  cases found with
  | true =>
    obtain ⟨us, e, nl, vs, rest, hf⟩ := lookUp_found hl
    obtain rfl := Option.some.inj (hf.text hold hroom hl hnew)
    exact stored_found hd hq hp hf
  | false =>
    have hmissing := lookUp_missing hl
    cases hseat : seat q.sect.bytes p.document.tokens with
    | none =>
      obtain rfl := Option.some.inj (section_text hold hroom hl (seat_eq_none.mp hseat) hnew)
      exact stored_section hd hq hp hmissing
    | some r =>
      obtain ⟨us, vs⟩ := r
      obtain ⟨name, b, hs⟩ := seat_gap hseat
      obtain ⟨s, hprint, htext, -⟩ := hs.text hold hroom hseat hl hnew
      have hb : byte '%' ∉ b ∧ 0 ∉ b := by
        have hpct := hp.percent
        have hzero : 0 ∉ p.bytes := p.document_bytes ▸ p.document_valid.zero
        rw [hs.old, List.mem_append, not_or] at hpct hzero
        exact ⟨hpct.2, hzero.2⟩
      rw [sprintf, if_neg hb.1] at hprint
      obtain rfl := Except.ok.inj hprint
      have hstr : strOf b = b := by rw [← strOf_filled_eq, strOf_filled hb.2]
      rw [hstr] at htext
      obtain rfl := Option.some.inj htext
      exact stored_seat hd hq hp hs hseat hmissing

end

end

/-! ### Any number of writes -/

/-- A write, and whether the file can be opened for it. -/
structure Save where
  update : Update
  fopenOk : Bool

/-- `write_profile_string`, whatever it returns. -/
def save (conv : List UInt8 → ℤ → Except Fault (List UInt8)) (file : File) (s : Save) :
    Except Fault File := do
  let r ← writeProfileString conv s.update.sect.bytes s.update.key.bytes s.update.value.bytes file
    ⟨s.fopenOk, none⟩
  pure r.2

/-- The value that was saved last under the names. -/
def lastSaved (x : Names) : List Save → Option (List UInt8)
  | [] => none
  | s :: ss => (lastSaved x ss).or
      (if s.fopenOk = true ∧ x = s.update.names then some s.update.value.bytes else none)

/-- What is left of a value in a buffer of `size` bytes. -/
def copied (size : ℕ) (v : List UInt8) : List UInt8 :=
  v.take (size - 1) ++ List.replicate (size - (v.take (size - 1)).length) 0

section
variable {conv : List UInt8 → ℤ → Except Fault (List UInt8)} {used : Names → Prop} {p : IniFile}
  {file : File} {ss : List Save}

/-- A clear text is read like its table. -/
theorem Clear.hasTable (hp : Clear used p) (hold : file.getD [] = p.bytes)
    (hlen : p.bytes.length + 1 < maxFileSize) : HasTable file p.table := by
  cases file with
  | none =>
    rw [table_empty hold.symm]
    exact hasTable_none
  | some bytes =>
    obtain rfl : bytes = p.bytes := hold
    exact hasTable_lines p.lines_valid p.lines_trim p.bytesOf_lines (takeWhile_eof_self hp.eof) hlen

variable (conv) in
/-- STEP: a save, with or without a file that can be opened. -/
theorem save_step (hd : Distinct used) {s : Save} (hs : s.update.Clear used) (hp : Clear used p)
    (hold : file.getD [] = p.bytes) (hlen : p.bytes.length + s.update.size + 1 < maxFileSize) :
    ∃ file' p', save conv file s = .ok file' ∧ file'.getD [] = p'.bytes ∧ Clear used p' ∧
      p'.bytes.length ≤ p.bytes.length + s.update.size ∧
      ∀ x, used x → firstBelow p'.table x = (lastSaved x [s]).or (firstBelow p.table x) := by
  have hroom : Room s.update p.bytes := by
    refine ⟨hp.eof, ?_⟩
    rw [Update.size] at hlen
    omega
  obtain ⟨q, fopenOk⟩ := s
  cases fopenOk with
  | true =>
    obtain ⟨new, hwrite, p', rfl, hp', hsize, hputs⟩ := write_stored hd hs hp conv hold hroom
    refine ⟨some p'.bytes, p', bind_eq_ok.mpr ⟨_, hwrite, rfl⟩, rfl, hp', hsize, ?_⟩
    intro x hx
    rw [hputs x hx]
    by_cases hxq : x = q.names
    · simp [lastSaved, hxq]
    · simp [lastSaved, hxq]
  | false =>
    have hwrite := write_refused conv hold hroom hp.percent
    refine ⟨file, p, bind_eq_ok.mpr ⟨_, hwrite, rfl⟩, hold, hp, by omega, ?_⟩
    intro x _
    simp [lastSaved]

variable (conv) in
/-- RUN: by induction on the saves, from whatever text they begin with. -/
theorem saves_run (hd : Distinct used) (hss : ∀ s ∈ ss, s.update.Clear used) (hp : Clear used p)
    (hold : file.getD [] = p.bytes)
    (hlen : p.bytes.length + (ss.map fun s => s.update.size).sum + 1 < maxFileSize) :
    ∃ file' p', run (save conv) file ss = .ok file' ∧ file'.getD [] = p'.bytes ∧ Clear used p' ∧
      p'.bytes.length + 1 < maxFileSize ∧
      ∀ x, used x → firstBelow p'.table x = (lastSaved x ss).or (firstBelow p.table x) := by
  induction ss generalizing p file with
  | nil => exact ⟨file, p, rfl, hold, hp, by simpa using hlen, fun x _ => rfl⟩
  | cons s ss ih =>
    rw [List.map_cons, List.sum_cons] at hlen
    obtain ⟨file₁, p₁, h₁, hold₁, hp₁, hsize, hread₁⟩ :=
      save_step conv hd (hss s List.mem_cons_self) hp hold (by omega)
    obtain ⟨file', p', hrun, hold', hp', hlen', hread⟩ :=
      ih (fun s hs => hss s (List.mem_cons_of_mem _ hs)) hp₁ hold₁ (by omega)
    refine ⟨file', p', run_cons_ok.mpr ⟨file₁, h₁, hrun⟩, hold', hp', hlen', ?_⟩
    intro x hx
    rw [hread x hx, hread₁ x hx, ← Option.or_assoc]
    rfl

/-- A text after saves, read next to the text before them. -/
theorem Clear.read_saved {p' : IniFile} {file' : File} (hp : Clear used p)
    (hold : file.getD [] = p.bytes) (hlen : p.bytes.length + 1 < maxFileSize) (hp' : Clear used p')
    (hold' : file'.getD [] = p'.bytes) (hlen' : p'.bytes.length + 1 < maxFileSize) {x : Names}
    (hread : firstBelow p'.table x = (lastSaved x ss).or (firstBelow p.table x))
    {value : List UInt8} (hvalue : value ≠ []) (defaultValue : Option (List UInt8)) :
    readProfileString x.sect x.key value defaultValue file' =
      match lastSaved x ss with
      | some v => .ok (true, copied value.length v)
      | none => readProfileString x.sect x.key value defaultValue file := by
  rw [hp'.hasTable hold' hlen']
  cases hlast : lastSaved x ss with
  | none =>
    dsimp only
    rw [hp.hasTable hold hlen]
    refine readTable_congr ?_ value defaultValue
    rw [hread, hlast]
    rfl
  | some v =>
    have hfirst : firstBelow p'.table x = some v := by
      rw [hread, hlast]
      rfl
    obtain ⟨l, k, r, htable, -, hle⟩ := firstBelow_eq_some hfirst
    have hmem : (k, v) ∈ p'.table := by
      rw [htable]
      simp
    have hproper := IniFile.proper hmem
    have hne : ¬ (x.sect = [] ∨ x.key = [] ∨ value = []) := by
      rintro (h | h | h)
      · exact hproper.sect_ne (List.prefix_nil.mp (h ▸ hle.1))
      · exact hproper.key_ne (List.prefix_nil.mp (h ▸ hle.2))
      · exact hvalue h
    simp only [readTable, if_neg hne, hfirst, copied]

end

/-! ### Names and values by a check -/

/-- The bytes of a comment or a value, checked. -/
def Chars.ofBytes (s : List UInt8) (h : (s.all fun b => !newline b && b != 0) = true) : Chars where
  bytes := s
  plain := fun b hb => by simpa using List.all_eq_true.mp h b hb

def Name.ofBytes (s : List UInt8) (hne : s ≠ [])
    (h : (s.all fun b => !newline b && b != 0 && b != byte ']') = true) : Name where
  bytes := s
  ne := hne
  plain := fun b hb => by simpa [and_assoc] using List.all_eq_true.mp h b hb

def Key.ofBytes (s : List UInt8) (hne : s ≠ [])
    (h : (s.all fun b => !newline b && b != 0 && b != byte '=') = true)
    (hhead : (s.head?.all fun b => b != byte '[' && b != byte ';' && !isSpace b) = true) : Key where
  bytes := s
  ne := hne
  plain := fun b hb => by simpa [and_assoc] using List.all_eq_true.mp h b hb
  head := fun b hb => by
    rw [hb] at hhead
    simpa [and_assoc] using hhead

/-- `a=1` in `[s]`, then `b=2` without permission, then `a=3`. -/
def threeSaves : List Save :=
  [⟨⟨.ofBytes (ascii "s") (by decide) (by decide),
      .ofBytes (ascii "a") (by decide) (by decide) (by decide), .ofBytes (ascii "1") (by decide)⟩, true⟩,
    ⟨⟨.ofBytes (ascii "s") (by decide) (by decide),
      .ofBytes (ascii "b") (by decide) (by decide) (by decide), .ofBytes (ascii "2") (by decide)⟩, false⟩,
    ⟨⟨.ofBytes (ascii "s") (by decide) (by decide),
      .ofBytes (ascii "a") (by decide) (by decide) (by decide), .ofBytes (ascii "3") (by decide)⟩, true⟩]

/-- The names of `threeSaves`. -/
def savedNames : List Names := [⟨ascii "s", ascii "a"⟩, ⟨ascii "s", ascii "b"⟩]

theorem distinct_savedNames : Distinct (· ∈ savedNames) := by
  constructor
  · intro x y hx hy h
    simp only [savedNames, List.mem_cons, List.not_mem_nil, or_false] at hx hy
    rcases hx with rfl | rfl <;> rcases hy with rfl | rfl <;> rfl
  · intro x y hx hy h
    simp only [savedNames, List.mem_cons, List.not_mem_nil, or_false] at hx hy
    rcases hx with rfl | rfl <;> rcases hy with rfl | rfl <;> first | rfl | exact absurd h (by decide)

theorem clear_threeSaves : ∀ s ∈ threeSaves, s.update.Clear (· ∈ savedNames) := by
  have h : ∀ s ∈ threeSaves, s.update.names ∈ savedNames ∧ Harmless s.update.sect.bytes ∧
      Harmless s.update.key.bytes ∧ Harmless s.update.value.bytes := by decide
  intro s hs
  obtain ⟨hused, hsect, hkey, hvalue⟩ := h s hs
  exact ⟨hused, hsect, hkey, hvalue⟩

/-- A profile without a line. -/
def noLines : IniFile := ⟨[], .empty⟩

theorem clear_noLines (used : Names → Prop) : Clear used noLines where
  ended := by simp [IniFile.Ended, noLines]
  eof := by decide
  percent := by decide
  headers := by
    intro name hname
    simp [noLines, IniFile.document, Profile.document, Document.lines, Tail.lines] at hname
  entries := by
    intro e he
    rw [table_empty rfl] at he
    simp at he

example : lastSaved ⟨ascii "s", ascii "a"⟩ threeSaves = some (ascii "3") ∧
    lastSaved ⟨ascii "s", ascii "b"⟩ threeSaves = none := by decide

end AcqBoard.Ini
