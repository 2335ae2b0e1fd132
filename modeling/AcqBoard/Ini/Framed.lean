import AcqBoard.Ini.Overwrite

/-! When a write leaves the rest of a profile alone.

    `Framed` is the law: one span of the text is replaced, and whatever else is asked for reads as
    before. The prefix that `parse_file` compares breaks it: whoever asks for a longer name reads the
    entry that was written, and where the entry that passes has shorter names, theirs was
    overwritten. `write_frame_iff` says which other names notice a write. -/

namespace AcqBoard.Ini
open Schemes

/-! ### The law -/

/-- The bytes: one span is replaced, by the same text or by what is written. It is the value in the
    first line of the key, or it is empty, and a new key goes there if some header passes for the
    section, else a new section. -/
inductive Spliced (q : Update) (p : IniFile) (new : List UInt8) : Prop
  | same (new : new = p.bytes)
  | value {us vs : List Token} {nl : UInt8} {v b : List UInt8}
    (line : p.document.lines = us ++ .line (q.key.bytes ++ byte '=' :: v) nl :: vs)
    (sect : sectAfter none us = some q.sect.bytes)
    (first : firstBelow (tableOf none us) q.names = none)
    (old : p.bytes = bytesOf us ++ (q.key.bytes ++ [byte '=']) ++ (v ++ b))
    (new : new = bytesOf us ++ (q.key.bytes ++ [byte '=']) ++ (q.value.bytes ++ b))
  | key {a b : List UInt8} (missing : firstBelow p.table q.names = none)
    (headed : Headed q.sect.bytes p.document.tokens)
    (old : p.bytes = a ++ b) (new : new = a ++ (newKey q.key.bytes q.value.bytes ++ b))
  | sect {a b : List UInt8} (unheaded : ¬ Headed q.sect.bytes p.document.tokens)
    (old : p.bytes = a ++ b)
    (new : new = a ++ ((if p.bytes = [] then newSection q.sect.bytes q.key.bytes q.value.bytes
      else byte '\n' :: newSection q.sect.bytes q.key.bytes q.value.bytes) ++ b))

/-- Other names, among those that `asked` holds of. -/
structure Other (asked : Names → Prop) (q : Update) (x : Names) : Prop where
  asked : asked x
  sect : 0 ∉ x.sect
  key : 0 ∉ x.key
  ne : x ≠ q.names

/-- The law: the rest of the bytes is preserved, and other names read as before. -/
structure Framed (asked : Names → Prop) (q : Update) (p : IniFile) (file file' : File) : Prop where
  bytes : Spliced q p (file'.getD [])
  reads : ∀ x, Other asked q x → ∀ value defaultValue,
    readProfileString x.sect x.key value defaultValue file' =
      readProfileString x.sect x.key value defaultValue file

/-! ### The conditions -/

/-- Behind a new key, `sprintf` prints the rest of the text as it is. -/
def Printed (conv : List UInt8 → ℤ → Except Fault (List UInt8)) (q : Update) (p : IniFile) : Prop :=
  firstBelow p.table q.names = none → ∀ us vs b, seat q.sect.bytes p.document.tokens = some (us, vs) →
    p.bytes = bytesOf us ++ b →
      ∃ s, sprintf conv b (p.bytes.length - (bytesOf us).length) = .ok s ∧ strOf s = b

/-- The entry that passes for the names is theirs, or it has the value already. -/
def Meant (q : Update) (p : IniFile) : Prop := ∀ l e r, p.table = l ++ e :: r →
  firstBelow l q.names = none → e.1 ≤ q.names → e.1 = q.names ∨ e.2 = q.value.bytes

/-- The entry that is written stands behind `l` in the table, under the names `n`. -/
inductive Written (q : Update) (p : IniFile) : Table → Names → Prop
  | value {l r : Table} {n : Names} {v : List UInt8} (split : p.table = l ++ (n, v) :: r)
    (first : firstBelow l q.names = none) (below : n ≤ q.names) : Written q p l n
  | key {us vs : List Token} {name : List UInt8} (missing : firstBelow p.table q.names = none)
    (place : seat q.sect.bytes p.document.tokens = some (us, vs))
    (sect : sectAfter none us = some name) : Written q p (tableOf none us) ⟨name, q.key.bytes⟩
  | sect (unheaded : ¬ Headed q.sect.bytes p.document.tokens) : Written q p p.table q.names

/-- The names notice the write: the entry passes for them and none in front of it does, and they
    read another value before. -/
def Notices (q : Update) (p : IniFile) (x : Names) : Prop :=
  ∃ l n, Written q p l n ∧ firstBelow l x = none ∧ n ≤ x ∧ firstBelow p.table x ≠ some q.value.bytes

/-- Nothing that can be read changes. The value is read already; or a byte 0xFF in what is written
    ends the file for the reader, right behind the value that was read before or in the new names,
    and nothing that is read stands behind the place. -/
inductive Unread (conv : List UInt8 → ℤ → Except Fault (List UInt8)) (q : Update) (p : IniFile) :
    Prop
  | same (there : firstBelow p.table q.names = some q.value.bytes)
  | longer {l r : Table} (split : p.table = l ++ (q.names, q.visible) :: r)
    (first : firstBelow l q.names = none) (cut : eof ∈ q.value.bytes)
    (rest : Shadows (l ++ [(q.names, q.visible)]) p.table)
  | key {us vs : List Token} (missing : firstBelow p.table q.names = none)
    (place : seat q.sect.bytes p.document.tokens = some (us, vs)) (cut : eof ∈ q.key.bytes)
    (rest : Shadows (tableOf none us) p.table) (printed : Printed conv q p)
  | sect (unheaded : ¬ Headed q.sect.bytes p.document.tokens)
    (cut : eof ∈ q.sect.bytes ∨ eof ∈ q.key.bytes)

/-! ### The entries of a profile -/

section
variable {p : IniFile} {e : Names × List UInt8}

/-- Names that can be asked for, and a value that is a string. -/
structure Proper (e : Names × List UInt8) : Prop where
  sect_ne : e.1.sect ≠ []
  key_ne : e.1.key ≠ []
  sect : 0 ∉ e.1.sect
  key : 0 ∉ e.1.key
  value : 0 ∉ e.2
  equals : byte '=' ∉ e.1.key

/-- Without a `%` in the text, the rest is always printed as it is. -/
theorem printed_of_not_mem {q : Update} (conv : List UInt8 → ℤ → Except Fault (List UInt8))
    (h : byte '%' ∉ p.bytes) : Printed conv q p := by
  intro _ us vs b _ hold
  have hzero : 0 ∉ p.bytes := p.document_bytes ▸ p.document_valid.zero
  rw [hold, List.mem_append, not_or] at h hzero
  exact ⟨b, by rw [sprintf, if_neg h.2], by rw [← strOf_filled_eq, strOf_filled hzero.2]⟩

theorem IniFile.proper (he : e ∈ p.table) : Proper e := by
  obtain ⟨hsect, hne, heq, -⟩ := tableOf_mem he
  obtain ⟨hs, hk, hv⟩ := tableOf_zero (tokens_zero p.lines_valid) he
  exact ⟨p.header_ne (hsect.resolve_left (by simp)), hne, hs, hk, hv, heq⟩

theorem Update.proper (q : Update) : Proper (q.names, q.visible) :=
  ⟨q.sect.ne, q.key.ne, q.sect_zero, q.key_zero, q.visible_zero, q.key_eq⟩

/-- A header that passes stands in front of every entry that does. -/
theorem IniFile.headed {sect key : List UInt8} (he : e ∈ p.table) (hle : e.1 ≤ (⟨sect, key⟩ : Names)) :
    Headed sect p.document.tokens := by
  obtain ⟨hsect, -⟩ := tableOf_mem he
  obtain ⟨text, htail, -⟩ := p.document_tail
  have hmem : Token.header e.1.sect ∈ p.document.lines := hsect.resolve_left (by simp)
  rw [Document.lines, htail] at hmem
  rcases List.mem_append.mp hmem with h | h
  · exact ⟨_, h, hle.1⟩
  · cases List.mem_singleton.mp h

end

/-! ### What the law says about tables -/

section
variable {asked : Names → Prop} {q : Update} {p : IniFile} {file file' : File} {l l' m r : Table}
  {n n' x : Names}

/-- The entry that passes for the names is found below a header that passes. -/
theorem entry_here {v : List UInt8} (split : p.table = l ++ (n, v) :: r)
    (first : firstBelow l q.names = none) (below : n ≤ q.names) :
    firstBelow p.table q.names = some v ∧ Headed q.sect.bytes p.document.tokens := by
  have hmem : (n, v) ∈ p.table := by
    rw [split]
    simp
  refine ⟨?_, IniFile.headed hmem below⟩
  rw [split]
  exact firstBelow_here first below v r

/-- The line of the key, in the table. -/
theorem table_of_line {us vs : List Token} {nl : UInt8} {v : List UInt8}
    (line : p.document.lines = us ++ .line (q.key.bytes ++ byte '=' :: v) nl :: vs)
    (sect : sectAfter none us = some q.sect.bytes) :
    p.table = tableOf none us ++ (q.names, v) :: tableOf (some q.sect.bytes) vs := by
  rw [IniFile.table, Document.table, line, tableOf_append, tableOf, sect,
    entryOf_entry q.sect.bytes q.key.ne q.head_ne q.key_eq]
  rfl

theorem meant_of_missing (missing : firstBelow p.table q.names = none) : Meant q p := by
  intro l e r split first below
  rw [(entry_here split first below).1] at missing
  cases missing

/-- Where the key is missing, only a byte 0xFF in a name hides what is written. -/
theorem Unread.of_missing {conv : List UInt8 → ℤ → Except Fault (List UInt8)} (h : Unread conv q p)
    (missing : firstBelow p.table q.names = none) :
    (∃ us vs, seat q.sect.bytes p.document.tokens = some (us, vs) ∧ eof ∈ q.key.bytes ∧
      Shadows (tableOf none us) p.table ∧ Printed conv q p) ∨
    ¬ Headed q.sect.bytes p.document.tokens ∧ (eof ∈ q.sect.bytes ∨ eof ∈ q.key.bytes) := by
  cases h with
  | same there =>
    rw [missing] at there
    cases there
  | longer split first cut rest =>
    rw [(entry_here split first (le_refl q.names)).1] at missing
    cases missing
  | key _ place cut rest printed => exact Or.inl ⟨_, _, place, cut, rest, printed⟩
  | sect unheaded cut => exact Or.inr ⟨unheaded, cut⟩

/-- Names that can be asked for read the same in the two tables. -/
theorem Framed.agree (hf : Framed asked q p file file') (hm : HasTable file p.table)
    (hm' : HasTable file' m) (hproper : ∀ e ∈ m, Proper e) (hx : Other asked q x)
    (hs : x.sect ≠ []) (hk : x.key ≠ []) : firstBelow m x = firstBelow p.table x :=
  firstBelow_of_reads hm hm' (fun _ he => (IniFile.proper he).value) (fun e he => (hproper e he).value)
    hs hk (hf.reads x hx)

/-- A longer key is another one. -/
theorem Update.other_longer (q : Update) :
    Other (fun _ => True) q ⟨q.sect.bytes, q.key.bytes ++ [byte '=']⟩ := by
  refine ⟨trivial, q.sect_zero, ?_, fun h => ?_⟩
  · simp [q.key_zero, show (0 : UInt8) ≠ byte '=' by decide]
  · have hlen := congrArg (fun x => x.key.length) h
    simp [Update.names] at hlen

/-- So do the names that are written, if their longer ones are asked for too. -/
theorem Framed.agree_all (hf : Framed (fun _ => True) q p file file') (hm : HasTable file p.table)
    (hm' : HasTable file' m) (hproper : ∀ e ∈ m, Proper e) {e : Names × List UInt8} (he : Proper e) :
    firstBelow m e.1 = firstBelow p.table e.1 := by
  rcases eq_or_ne e.1 q.names with heq | hne
  · have hagree := hf.agree hm hm' hproper q.other_longer q.sect.ne (by simp)
    rw [firstBelow_longer fun e he => (hproper e he).equals,
      firstBelow_longer fun e he => (IniFile.proper he).equals] at hagree
    rw [heq]
    exact hagree
  · exact hf.agree hm hm' hproper ⟨trivial, he.sect, he.key, hne⟩ he.sect_ne he.key_ne

/-- Where the tables agree, the law holds of what is read. -/
theorem reads_of_agree (hm : HasTable file p.table) (hm' : HasTable file' m)
    (h : firstBelow m x = firstBelow p.table x) (value : List UInt8)
    (defaultValue : Option (List UInt8)) : readProfileString x.sect x.key value defaultValue file' =
      readProfileString x.sect x.key value defaultValue file := by
  rw [hm, hm']
  exact readTable_congr h value defaultValue

theorem Written.unique (h : Written q p l n) (h' : Written q p l' n') : l = l' ∧ n = n' := by
  cases h with
  | value split first below =>
    obtain ⟨hfound, hheaded⟩ := entry_here split first below
    cases h' with
    | value split' first' below' =>
      obtain ⟨hl, he, -⟩ := firstBelow_split (split.symm.trans split') first below first' below'
      exact ⟨hl, congrArg Prod.fst he⟩
    | key missing place sect =>
      rw [hfound] at missing
      cases missing
    | sect unheaded => exact (unheaded hheaded).elim
  | key missing place sect =>
    cases h' with
    | value split first below =>
      rw [(entry_here split first below).1] at missing
      cases missing
    | key missing' place' sect' =>
      obtain ⟨rfl, rfl⟩ := Prod.mk.inj (Option.some.inj (place.symm.trans place'))
      obtain rfl := Option.some.inj (sect.symm.trans sect')
      exact ⟨rfl, rfl⟩
    | sect unheaded =>
      rw [seat_eq_none.mpr unheaded] at place
      cases place
  | sect unheaded =>
    cases h' with
    | value split first below => exact (unheaded (entry_here split first below).2).elim
    | key missing place sect =>
      rw [seat_eq_none.mpr unheaded] at place
      cases place
    | sect unheaded' => exact ⟨rfl, rfl⟩

/-- If the write is one entry in the table, the law says that no other names notice it. -/
theorem framed_iff_notices (hspliced : Spliced q p (file'.getD [])) (hm : HasTable file p.table)
    (hw : Written q p l n) (hproper : Proper (n, q.value.bytes))
    (hm' : HasTable file' (l ++ (n, q.value.bytes) :: r))
    (h : p.table = l ++ r ∨ ∃ w, p.table = l ++ (n, w) :: r) :
    Framed asked q p file file' ↔ ∀ x, Other asked q x → ¬ Notices q p x := by
  have hsides : ∀ e, e ∈ l ∨ e ∈ r → Proper e := by
    intro e he
    refine IniFile.proper (p := p) ?_
    rcases h with h | ⟨w, h⟩
    · rw [h]
      exact List.mem_append.mpr he
    · rw [h]
      exact List.mem_append.mpr (he.imp_right (List.mem_cons_of_mem _))
  have hall : ∀ e ∈ l ++ (n, q.value.bytes) :: r, Proper e := by
    intro e he
    rcases List.mem_append.mp he with he | he
    · exact hsides e (Or.inl he)
    rcases List.mem_cons.mp he with rfl | he
    · exact hproper
    · exact hsides e (Or.inr he)
  have hnotices : ∀ x, ¬ Notices q p x ↔
      firstBelow (l ++ (n, q.value.bytes) :: r) x = firstBelow p.table x := by
    intro x
    rw [write_keeps_iff h]
    constructor
    · intro hno hfirst hle
      by_contra hne
      exact hno ⟨l, n, hw, hfirst, hle, hne⟩
    · rintro hkeeps ⟨l', n', hw', hfirst, hle, hne⟩
      obtain ⟨rfl, rfl⟩ := hw.unique hw'
      exact hne (hkeeps hfirst hle)
  constructor
  · intro hf x hx
    rcases Classical.em (x.sect = [] ∨ x.key = []) with hempty | hask
    · -- nothing has empty names
      rintro ⟨l', n', hw', -, hle, -⟩
      obtain ⟨rfl, rfl⟩ := hw.unique hw'
      rcases hempty with hempty | hempty
      · exact hproper.sect_ne (List.prefix_nil.mp (hempty ▸ hle.1))
      · exact hproper.key_ne (List.prefix_nil.mp (hempty ▸ hle.2))
    · rw [not_or] at hask
      exact (hnotices x).mpr (hf.agree hm hm' hall hx hask.1 hask.2)
  · intro hno
    exact ⟨hspliced, fun x hx => reads_of_agree hm hm' ((hnotices x).mp (hno x hx))⟩

end

/-! ### The rest behind a new key -/

section
variable {conv : List UInt8 → ℤ → Except Fault (List UInt8)} {q : Update} {p : IniFile} {f : Spans}
  {us vs : List Token} {name b t : List UInt8}

/-- Two lines at the same place. -/
theorem line_unique {s s' r r' : List UInt8} {c c' : UInt8} (hs : ∀ x ∈ s, newline x = false)
    (hs' : ∀ x ∈ s', newline x = false) (hc : newline c = true) (hc' : newline c' = true)
    (h : s ++ c :: r = s' ++ c' :: r') : s = s' := by
  have htake : ∀ {s r : List UInt8} {c : UInt8}, (∀ x ∈ s, newline x = false) → newline c = true →
      (s ++ c :: r).takeWhile (fun x => !newline x) = s := by
    intro s r c hs hc
    rw [List.takeWhile_append_of_pos (by simpa using hs), List.takeWhile_cons, if_neg (by simp [hc]),
      List.append_nil]
  rw [← htake (r := r) hs hc, h, htake hs' hc']

theorem Update.entry_plain (q : Update) :
    ∀ x ∈ q.key.bytes ++ byte '=' :: q.value.bytes, newline x = false := fun x hx =>
  ((IniLine.plain (l := .entry q.key q.value) (by simp)).inner x hx).1

theorem Update.newKey_eq (q : Update) : newKey q.key.bytes q.value.bytes =
    q.key.bytes ++ byte '=' :: q.value.bytes ++ [byte '\n'] := by
  simp [newKey]

/-- Where the key is missing, its line does not stand behind the seat. -/
theorem not_newKey_behind (hs : Gap q p us vs name b) (missing : firstBelow p.table q.names = none)
    (t : List UInt8) : b ≠ newKey q.key.bytes q.value.bytes ++ t := by
  intro hb
  have hvalid := p.lines_valid
  rw [hs.lines, tokens_append] at hvalid
  have hbytes := hs.behind
  rw [hb, q.newKey_eq] at hbytes
  rw [hs.table, firstBelow_append, Option.or_eq_none_iff] at missing
  cases hX : vs ++ p.document.tail.lines with
  | nil =>
    rw [hX] at hbytes
    simp [bytesOf] at hbytes
  | cons k X =>
    rw [hX] at hbytes hvalid missing
    cases k with
    | header n =>
      obtain ⟨c, r, hr⟩ := List.exists_cons_of_ne_nil q.key.ne
      have hhead := (q.key.head c (by rw [hr]; rfl)).1
      have heq := congrArg List.head? hbytes
      simp [bytesOf, Token.bytes, hr] at heq
      exact hhead heq.symm
    | line text nl =>
      obtain ⟨hnl, hplain⟩ := hvalid.2.1
      have hline : text ++ nl :: bytesOf X =
          q.key.bytes ++ byte '=' :: q.value.bytes ++ byte '\n' :: (t ++ [byte '\n']) := by
        have hcons : bytesOf (.line text nl :: X) = text ++ nl :: bytesOf X := by
          simp [bytesOf, Token.bytes]
        rw [← hcons, hbytes]
        simp only [List.append_assoc, List.cons_append, List.nil_append]
      obtain rfl := line_unique (fun x hx => (hplain.inner x hx).1) q.entry_plain hnl rfl hline
      have hentry := entryOf_entry name q.key.ne q.head_ne q.key_eq q.value.bytes
      rw [tableOf, hentry] at missing
      refine firstBelow_eq_none.mp missing.2 (⟨name, q.key.bytes⟩, q.value.bytes) (by simp) ?_
      exact ⟨hs.below, List.prefix_rfl⟩

/-- The bytes tell whether the rest was printed as it is: a new line cannot be found at two places,
    because it has one LF, at its end. -/
theorem printed_of_splice (hs : Gap q p us vs name b) (missing : firstBelow p.table q.names = none)
    {a b' : List UInt8} (hold : p.bytes = a ++ b')
    (hnew : bytesOf us ++ (newKey q.key.bytes q.value.bytes ++ t) =
      a ++ (newKey q.key.bytes q.value.bytes ++ b')) : t = b := by
  rw [hs.old] at hold
  rcases List.append_eq_append_iff.mp hold with ⟨s, rfl, rfl⟩ | ⟨s, hus, rfl⟩
  · -- further behind
    rw [List.append_assoc, List.append_cancel_left_eq] at hnew
    rcases List.append_eq_append_iff.mp hnew with ⟨c, hc, -⟩ | ⟨c, hc, hrest⟩
    · exact (not_newKey_behind hs missing (c ++ b') (by rw [hc, List.append_assoc])).elim
    rcases List.eq_nil_or_concat c with rfl | ⟨c, x, rfl⟩
    · rw [List.append_nil] at hc
      exact (not_newKey_behind hs missing b' (by rw [hc])).elim
    rcases eq_or_ne s [] with rfl | hne
    · rw [List.nil_append, List.append_cancel_left_eq] at hnew
      exact hnew
    · -- the LF at the end of the line would stand inside of it
      exfalso
      rw [List.concat_eq_append] at hc hrest
      have hcut := hc
      rw [q.newKey_eq, ← List.append_assoc] at hcut
      obtain ⟨hline, hx⟩ := List.append_inj' hcut rfl
      obtain rfl : byte '\n' = x := (List.cons.inj hx).1
      have hlen : 0 < s.length := List.length_pos_iff.mpr hne
      have hmem : byte '\n' ∈ q.key.bytes ++ byte '=' :: q.value.bytes := by
        have hat := congrArg (·[c.length]?) hrest
        simp only [List.append_assoc, List.cons_append, List.nil_append] at hat
        have hlt : c.length < (q.key.bytes ++ byte '=' :: q.value.bytes).length := by
          rw [hline, List.length_append]
          omega
        rw [List.getElem?_append_right (Nat.le_refl _), Nat.sub_self, List.getElem?_cons_zero,
          q.newKey_eq, List.append_assoc, List.getElem?_append_left hlt] at hat
        exact List.mem_of_getElem? hat
      have hplain := q.entry_plain _ hmem
      simp [newline] at hplain
  · -- further in front
    rw [hus, List.append_assoc, List.append_cancel_left_eq, ← List.append_assoc,
      ← List.append_assoc] at hnew
    exact (List.append_inj hnew (by simp only [List.length_append]; omega)).2

end

/-! ### The three ways to write -/

section
variable {asked : Names → Prop} {conv : List UInt8 → ℤ → Except Fault (List UInt8)} {q : Update}
  {p : IniFile} {file file' : File} {disk : Disk} {f : Spans} {us vs : List Token}
  (hold : file.getD [] = p.bytes) (hroom : Room q p.bytes)
  (h : writeProfileString conv q.sect.bytes q.key.bytes q.value.bytes file disk = .ok (true, file'))

section
variable {e : Names × List UInt8} {nl : UInt8} {rest : List UInt8}
  (hf : Found q p f us e nl vs rest) (hl : p.document.lookUp q.sect.bytes q.key.bytes = (true, f))

include hold hroom h hf hl

/-- What is written is one value if and only if it is that of the key. -/
theorem Found.spliced_iff :
    Spliced q p (file'.getD []) ↔ e.1 = q.names ∨ e.2 = q.value.bytes := by
  obtain ⟨hfound, hheaded⟩ := entry_here hf.table hf.first hf.below
  rw [hf.text hold hroom hl h, Option.getD_some]
  constructor
  · intro hs
    cases hs with
    | same new =>
      rw [hf.old, List.append_cancel_left_eq, List.append_cancel_right_eq] at new
      exact Or.inr new.symm
    | value line sect first =>
      have htable := table_of_line line sect
      obtain ⟨-, rfl, -⟩ := firstBelow_split (hf.table.symm.trans htable) hf.first hf.below first
        (le_refl q.names)
      exact Or.inl rfl
    | key missing =>
      rw [hfound] at missing
      cases missing
    | sect unheaded => exact (unheaded hheaded).elim
  · rintro (hnames | hvalue)
    · obtain ⟨n, v⟩ := e
      obtain rfl : n = q.names := hnames
      exact .value hf.lines (entryOf_eq_some.mp hf.entry).1 hf.first hf.old rfl
    · exact .same (by rw [hf.old, hvalue])

theorem Found.written : HasTable file' (tableOf none us ++ (e.1, q.visible) ::
    if eof ∈ q.value.bytes then [] else tableOf (sectAfter none us) vs) := by
  rw [hf.text hold hroom hl h]
  exact hf.read hroom

omit hold hroom h hl in
theorem Found.proper : ∀ d ∈ tableOf none us ++ (e.1, q.visible) ::
    (if eof ∈ q.value.bytes then [] else tableOf (sectAfter none us) vs), Proper d := by
  have htable := hf.table
  have he : Proper e := IniFile.proper (p := p) (by rw [htable]; simp)
  intro d hd
  rcases List.mem_append.mp hd with hd | hd
  · exact IniFile.proper (p := p) (by rw [htable]; simp [hd])
  rcases List.mem_cons.mp hd with rfl | hd
  · exact ⟨he.sect_ne, he.key_ne, he.sect, he.key, q.visible_zero, he.equals⟩
  · split at hd
    · cases hd
    · exact IniFile.proper (p := p) (by rw [htable]; simp [hd])

/-- Over an old value: nothing changes if and only if it was the same as far as it is seen, and
    nothing behind it was read. -/
theorem Found.framed_iff : Framed (fun _ => True) q p file file' ↔ Unread conv q p := by
  have htable := hf.table
  have hm := hasTable_old hold hroom
  have hm' := hf.written hold hroom h hl
  have hspliced := hf.spliced_iff hold hroom h hl
  obtain ⟨hfound, hheaded⟩ := entry_here htable hf.first hf.below
  constructor
  · intro hframed
    have hsame : e.2 = q.visible := by
      have hagree := hframed.agree_all hm hm' hf.proper q.proper
      rw [firstBelow_here hf.first hf.below] at hagree
      exact Option.some.inj (hfound.symm.trans hagree.symm)
    rcases Classical.em (eof ∈ q.value.bytes) with hcut | hcut
    · have hnames : e.1 = q.names := by
        refine (hspliced.mp hframed.bytes).resolve_right fun hvalue => hroom.eof ?_
        rw [hf.old, hvalue]
        simp [hcut]
      obtain rfl : e = (q.names, q.visible) := Prod.ext hnames hsame
      refine .longer htable hf.first hcut (shadows_of_firstBelow fun d hd => ?_)
      have hagree := hframed.agree_all hm hm' hf.proper (IniFile.proper hd)
      rw [if_pos hcut] at hagree
      rw [hagree]
      exact firstBelow_self hd
    · rw [q.visible_eq hcut] at hsame
      exact .same (by rw [hfound, hsame])
  · intro hunread
    cases hunread with
    | same there =>
      have hvalue : e.2 = q.value.bytes := Option.some.inj (hfound.symm.trans there)
      have hcut : eof ∉ q.value.bytes := by
        intro hcut
        refine hroom.eof ?_
        rw [hf.old, hvalue]
        simp [hcut]
      rw [if_neg hcut, q.visible_eq hcut, ← hvalue, ← htable] at hm'
      exact ⟨hspliced.mpr (Or.inr hvalue), fun x _ => reads_of_agree hm hm' rfl⟩
    | longer split first cut rest =>
      obtain ⟨rfl, rfl, rfl⟩ := firstBelow_split (htable.symm.trans split) hf.first hf.below first
        (le_refl q.names)
      have hsplit : p.table = tableOf none us ++ [(q.names, q.visible)] ++
          tableOf (sectAfter none us) vs := by
        rw [split, List.append_assoc, List.singleton_append]
      rw [if_pos cut] at hm'
      refine ⟨hspliced.mpr (Or.inl rfl), fun x _ => reads_of_agree hm hm' ?_⟩
      rw [hsplit] at rest ⊢
      exact (firstBelow_of_shadows rest x).symm
    | key missing place cut rest printed =>
      rw [hfound] at missing
      cases missing
    | sect unheaded cut => exact (unheaded hheaded).elim

omit hold hroom h hl in
theorem Found.meant_iff : Meant q p ↔ e.1 = q.names ∨ e.2 = q.value.bytes := by
  constructor
  · intro hmeant
    exact hmeant _ e _ hf.table hf.first hf.below
  · intro he l d r split first below
    obtain ⟨-, rfl, -⟩ := firstBelow_split (hf.table.symm.trans split) hf.first hf.below first below
    exact he

theorem Found.framed_iff_notices (hcut : eof ∉ q.value.bytes) : Framed asked q p file file' ↔
    Printed conv q p ∧ Meant q p ∧ ∀ x, Other asked q x → ¬ Notices q p x := by
  have hm' := hf.written hold hroom h hl
  have hproper := hf.proper (e.1, q.visible) (by simp)
  have hspliced := hf.spliced_iff hold hroom h hl
  rw [if_neg hcut, q.visible_eq hcut] at hm'
  rw [q.visible_eq hcut] at hproper
  have hprinted : Printed conv q p := by
    intro hmissing
    rw [(entry_here hf.table hf.first hf.below).1] at hmissing
    cases hmissing
  have hnotices : Spliced q p (file'.getD []) →
      (Framed asked q p file file' ↔ ∀ x, Other asked q x → ¬ Notices q p x) := fun hs =>
    Ini.framed_iff_notices hs (hasTable_old hold hroom) (.value hf.table hf.first hf.below) hproper hm'
      (Or.inr ⟨e.2, hf.table⟩)
  rw [and_iff_right hprinted, hf.meant_iff, ← hspliced]
  constructor
  · intro hframed
    exact ⟨hframed.bytes, (hnotices hframed.bytes).mp hframed⟩
  · rintro ⟨hbytes, hno⟩
    exact (hnotices hbytes).mpr hno

end

section
variable {name b : List UInt8} (hs : Gap q p us vs name b)
  (hseat : seat q.sect.bytes p.document.tokens = some (us, vs))
  (hl : p.document.lookUp q.sect.bytes q.key.bytes = (false, f))

include hs hseat hl in
/-- `Printed`, for the one rest that there is. -/
theorem Gap.printed_iff {s : List UInt8}
    (hprint : sprintf conv b (p.bytes.length - (bytesOf us).length) = .ok s) :
    Printed conv q p ↔ strOf s = b := by
  constructor
  · intro hprinted
    obtain ⟨s', hprint', hstr⟩ := hprinted (lookUp_missing hl) us vs b hseat hs.old
    obtain rfl := Except.ok.inj (hprint.symm.trans hprint')
    exact hstr
  · intro hstr hmissing us' vs' b' hseat' hold'
    obtain ⟨rfl, rfl⟩ := Prod.mk.inj (Option.some.inj (hseat.symm.trans hseat'))
    obtain rfl := List.append_cancel_left (hs.old.symm.trans hold')
    exact ⟨s, hprint, hstr⟩

include hseat in
theorem headed_of_seat : Headed q.sect.bytes p.document.tokens := by
  by_contra hno
  rw [seat_eq_none.mpr hno] at hseat
  cases hseat

include hold hroom h hs hseat hl

/-- What is written is one new line if and only if the rest was printed as it is. -/
theorem Gap.spliced_iff : Spliced q p (file'.getD []) ↔ Printed conv q p := by
  obtain ⟨s, hprint, rfl, -⟩ := hs.text hold hroom hseat hl h
  have hmissing := lookUp_missing hl
  rw [hs.printed_iff hseat hl hprint]
  constructor
  · intro hspliced
    cases hspliced with
    | same new =>
      rw [hs.old, Option.getD_some, List.append_cancel_left_eq] at new
      exact (not_newKey_behind hs hmissing (strOf s) new.symm).elim
    | value line sect first =>
      have htable := table_of_line line sect
      rw [(entry_here htable first (le_refl q.names)).1] at hmissing
      cases hmissing
    | key missing headed old new => exact printed_of_splice hs hmissing old new
    | sect unheaded => exact (unheaded (headed_of_seat hseat)).elim
  · intro hstr
    refine .key hmissing (headed_of_seat hseat) hs.old ?_
    rw [hstr]
    rfl

/-- A new key: a longer one reads it, unless a byte 0xFF hides it, and then nothing else that was
    read may stand behind it. -/
theorem Gap.framed_iff : Framed (fun _ => True) q p file file' ↔ Unread conv q p := by
  have hm := hasTable_old hold hroom
  have hspliced := hs.spliced_iff hold hroom h hseat hl
  have hmissing := lookUp_missing hl
  obtain ⟨s, -, rfl, hlt⟩ := hs.text hold hroom hseat hl h
  rcases Classical.em (Ini.eof ∈ q.key.bytes) with hcut | hcut
  · have hm' := hs.read_hidden hroom hcut (strOf s)
    have hproper : ∀ e ∈ tableOf none us, Proper e := fun e he =>
      IniFile.proper (p := p) (by rw [hs.table]; simp [he])
    constructor
    · intro hframed
      refine .key hmissing hseat hcut (shadows_of_firstBelow fun d hd => ?_)
        (hspliced.mp hframed.bytes)
      rw [hframed.agree_all hm hm' hproper (IniFile.proper hd)]
      exact firstBelow_self hd
    · intro hunread
      rcases hunread.of_missing hmissing with ⟨us', vs', hplace, -, hrest, hprinted⟩ | ⟨hunheaded, -⟩
      · obtain ⟨rfl, rfl⟩ := Prod.mk.inj (Option.some.inj (hseat.symm.trans hplace))
        refine ⟨hspliced.mpr hprinted, fun x _ => reads_of_agree hm hm' ?_⟩
        rw [hs.table] at hrest ⊢
        exact (firstBelow_of_shadows hrest x).symm
      · exact (hunheaded (headed_of_seat hseat)).elim
  · refine iff_of_false (fun hframed => ?_) (fun hunread => ?_)
    · obtain ⟨value, out, hread⟩ := hs.read_longer hroom hl hseat hcut hlt
      have hlonger : firstBelow p.table ⟨q.sect.bytes, q.key.bytes ++ [byte '=']⟩ = none := by
        rw [firstBelow_longer fun e he => (IniFile.proper he).equals]
        exact hmissing
      have hother := q.other_longer
      rw [hframed.reads _ hother, hm, readTable, hlonger] at hread
      split at hread
      · cases hread
      · cases hread
    · rcases hunread.of_missing hmissing with ⟨-, -, -, hkey, -⟩ | ⟨hunheaded, -⟩
      · exact hcut hkey
      · exact hunheaded (headed_of_seat hseat)

theorem Gap.framed_iff_notices (hkey : Ini.eof ∉ q.key.bytes) (hvalue : Ini.eof ∉ q.value.bytes) :
    Framed asked q p file file' ↔
      Printed conv q p ∧ Meant q p ∧ ∀ x, Other asked q x → ¬ Notices q p x := by
  have hspliced := hs.spliced_iff hold hroom h hseat hl
  have hmissing := lookUp_missing hl
  have hm := hasTable_old hold hroom
  obtain ⟨s, hprint, rfl, -⟩ := hs.text hold hroom hseat hl h
  have hsect : name ≠ [] ∧ 0 ∉ name := by
    obtain ⟨-, pre, n, mid, hus, -, hmid⟩ := seat_eq_some hseat
    obtain rfl : n = name := by
      have hafter := hs.sect
      rw [hus, sectAfter_append] at hafter
      exact Option.some.inj ((sectAfter_blank hmid _).symm.trans hafter)
    have hmem : Token.header n ∈ p.document.lines := by
      rw [hs.lines, hus]
      simp
    exact ⟨p.header_ne hmem, fun h0 => tokens_zero p.lines_valid (mem_bytesOf hmem (by
      simp [Token.bytes, h0]))⟩
  have hproper : Proper (⟨name, q.key.bytes⟩, q.value.bytes) :=
    ⟨hsect.1, q.key.ne, hsect.2, q.key_zero, q.value_zero, q.key_eq⟩
  have hnotices : strOf s = b → (Framed asked q p file _ ↔ ∀ x, Other asked q x → ¬ Notices q p x) :=
    fun hstr => Ini.framed_iff_notices (hspliced.mpr ((hs.printed_iff hseat hl hprint).mpr hstr)) hm
      (.key hmissing hseat hs.sect) hproper (by rw [hstr]; exact hs.read hroom hkey hvalue)
      (Or.inl hs.table)
  rw [and_iff_right (meant_of_missing hmissing)]
  constructor
  · intro hframed
    have hprinted := hspliced.mp hframed.bytes
    exact ⟨hprinted, (hnotices ((hs.printed_iff hseat hl hprint).mp hprinted)).mp hframed⟩
  · rintro ⟨hprinted, hno⟩
    exact (hnotices ((hs.printed_iff hseat hl hprint).mp hprinted)).mpr hno

end

section
variable (hl : p.document.lookUp q.sect.bytes q.key.bytes = (false, f))
  (hunheaded : ¬ Headed q.sect.bytes p.document.tokens)
include hold hroom h hl hunheaded

theorem section_spliced : Spliced q p (file'.getD []) := by
  rw [section_text hold hroom hl hunheaded h]
  refine .sect (b := []) hunheaded (List.append_nil _).symm ?_
  rw [List.append_nil, Option.getD_some]
  split
  · rename_i hnil
    rw [hnil, List.nil_append]
  · rfl

theorem section_written : HasTable file' (if eof ∈ q.sect.bytes ∨ eof ∈ q.key.bytes then p.table
    else p.table ++ [(q.names, q.visible)]) := by
  rw [section_text hold hroom hl hunheaded h]
  exact section_read hroom

/-- A new section: it is read, unless a byte 0xFF in a name hides it. -/
theorem section_framed_iff : Framed (fun _ => True) q p file file' ↔ Unread conv q p := by
  have hm := hasTable_old hold hroom
  have hm' := section_written hold hroom h hl hunheaded
  have hmissing := lookUp_missing hl
  rcases Classical.em (eof ∈ q.sect.bytes ∨ eof ∈ q.key.bytes) with hcut | hcut
  · rw [if_pos hcut] at hm'
    exact iff_of_true ⟨section_spliced hold hroom h hl hunheaded, fun x _ => reads_of_agree hm hm' rfl⟩
      (.sect hunheaded hcut)
  · rw [if_neg hcut] at hm'
    refine iff_of_false (fun hframed => ?_) (fun hunread => ?_)
    · have hproper : ∀ e ∈ p.table ++ [(q.names, q.visible)], Proper e := by
        intro e he
        rcases List.mem_append.mp he with he | he
        · exact IniFile.proper he
        · rw [List.mem_singleton.mp he]
          exact q.proper
      have hagree := hframed.agree_all hm hm' hproper q.proper
      rw [firstBelow_here hmissing le_rfl, hmissing] at hagree
      cases hagree
    · rcases hunread.of_missing hmissing with ⟨us, vs, hplace, -⟩ | ⟨-, hname⟩
      · exact hunheaded (headed_of_seat hplace)
      · exact hcut hname

theorem section_framed_iff_notices (hsect : eof ∉ q.sect.bytes) (hkey : eof ∉ q.key.bytes)
    (hvalue : eof ∉ q.value.bytes) : Framed asked q p file file' ↔
      Printed conv q p ∧ Meant q p ∧ ∀ x, Other asked q x → ¬ Notices q p x := by
  have hm' := section_written hold hroom h hl hunheaded
  have hproper := q.proper
  rw [if_neg (not_or.mpr ⟨hsect, hkey⟩), q.visible_eq hvalue] at hm'
  rw [q.visible_eq hvalue] at hproper
  have hprinted : Printed conv q p := by
    intro _ us vs b hseat
    rw [seat_eq_none.mpr hunheaded] at hseat
    cases hseat
  rw [and_iff_right hprinted, and_iff_right (meant_of_missing (lookUp_missing hl))]
  exact framed_iff_notices (section_spliced hold hroom h hl hunheaded) (hasTable_old hold hroom)
    (.sect hunheaded) hproper hm' (Or.inl (List.append_nil _).symm)

end

end

/-! ### The condition -/

/-- A write keeps every other pair if and only if nothing that can be read changes. Without bytes 0xFF
    in what is written, it keeps the other pairs that are asked for if and only if `sprintf` prints
    the rest as it is, the value that is replaced is the one that was meant, and none of the pairs
    notices the entry. -/
theorem write_frame_iff (conv : List UInt8 → ℤ → Except Fault (List UInt8)) (q : Update) (p : IniFile)
    (file file' : File) (disk : Disk) (hold : file.getD [] = p.bytes) (hroom : Room q p.bytes)
    (h : writeProfileString conv q.sect.bytes q.key.bytes q.value.bytes file disk =
      .ok (true, file')) :
    (Framed (fun _ => True) q p file file' ↔ Unread conv q p) ∧
    (eof ∉ q.sect.bytes → eof ∉ q.key.bytes → eof ∉ q.value.bytes → ∀ asked,
      Framed asked q p file file' ↔
        Printed conv q p ∧ Meant q p ∧ ∀ x, Other asked q x → ¬ Notices q p x) := by
  cases hl : p.document.lookUp q.sect.bytes q.key.bytes with
  | mk found f =>
    cases found with
    | true =>
      obtain ⟨us, e, nl, vs, rest, hf⟩ := lookUp_found hl
      exact ⟨hf.framed_iff hold hroom h hl,
        fun _ _ hvalue asked => hf.framed_iff_notices hold hroom h hl hvalue⟩
    | false =>
      rcases hseat : seat q.sect.bytes p.document.tokens with _ | ⟨us, vs⟩
      · have hunheaded := seat_eq_none.mp hseat
        exact ⟨section_framed_iff hold hroom h hl hunheaded, fun hsect hkey hvalue asked =>
          section_framed_iff_notices hold hroom h hl hunheaded hsect hkey hvalue⟩
      · obtain ⟨name, b, hs⟩ := seat_gap hseat
        exact ⟨hs.framed_iff hold hroom h hseat hl,
          fun _ hkey hvalue asked => hs.framed_iff_notices hold hroom h hseat hl hkey hvalue⟩

/-- The entry of `oneKey`, for a file that is absent. -/
def oneUpdate : Update where
  sect := ⟨oneKey.sect, oneKey.sect_ne, oneKey.sect_plain⟩
  key := ⟨oneKey.key, oneKey.key_ne, oneKey.key_plain, fun b hb =>
    have h := oneKey.key_head b hb
    ⟨h.2.1, h.1, h.2.2⟩⟩
  value := ⟨oneKey.value, fun b hb => ⟨(oneKey.value_plain b hb).1, (oneKey.value_plain b hb).2.1⟩⟩

def emptyFile : IniFile := ⟨[], .empty⟩

theorem room_oneUpdate : Room oneUpdate emptyFile.bytes := ⟨List.not_mem_nil, by decide⟩

theorem write_frame_oneUpdate :
    (Framed (fun _ => True) oneUpdate emptyFile none (some (ascii "[s]\nx=v\n")) ↔
      Unread (fun s _ => .ok s) oneUpdate emptyFile) ∧
    (eof ∉ oneUpdate.sect.bytes → eof ∉ oneUpdate.key.bytes → eof ∉ oneUpdate.value.bytes → ∀ asked,
      Framed asked oneUpdate emptyFile none (some (ascii "[s]\nx=v\n")) ↔
        Printed (fun s _ => .ok s) oneUpdate emptyFile ∧ Meant oneUpdate emptyFile ∧
          ∀ x, Other asked oneUpdate x → ¬ Notices oneUpdate emptyFile x) :=
  write_frame_iff (fun s _ => .ok s) oneUpdate emptyFile none _ ⟨true, none⟩ rfl room_oneUpdate
    write_oneKey_absent

/-- Written into an empty profile, `x=v` is read for `xy`, too. -/
theorem write_frame_longer : ¬ ∀ (conv : List UInt8 → ℤ → Except Fault (List UInt8)) (q : Update)
    (p : IniFile) (file file' : File) (disk : Disk), file.getD [] = p.bytes → Room q p.bytes →
      writeProfileString conv q.sect.bytes q.key.bytes q.value.bytes file disk = .ok (true, file') →
        Framed (fun _ => True) q p file file' := by
  intro h
  have hframed := h (fun s _ => .ok s) oneUpdate emptyFile none _ ⟨true, none⟩ rfl room_oneUpdate
    write_oneKey_absent
  have hunheaded : ¬ Headed oneUpdate.sect.bytes emptyFile.document.tokens := by
    rintro ⟨name, hname, -⟩
    cases hname
  have hl : emptyFile.document.lookUp oneUpdate.sect.bytes oneUpdate.key.bytes = (false, {}) := rfl
  have htable : emptyFile.table = [] := rfl
  have hno := ((section_framed_iff_notices rfl room_oneUpdate write_oneKey_absent hl hunheaded
    (by decide) (by decide) (by decide)).mp hframed).2.2
  refine hno ⟨oneKey.sect, ascii "xy"⟩ ⟨trivial, by decide, by decide, by decide⟩ ?_
  exact ⟨_, _, .sect hunheaded, by rw [htable]; rfl, ⟨List.prefix_rfl, by decide⟩, by
    rw [htable]; simp⟩

end AcqBoard.Ini
