import AcqBoard.Ini.RoundTrip
import AcqBoard.Ini.Seat

/-! What a write does to the rest of a profile.

    `write_profile_string` copies the text around the place it writes at, by `memcpy` or, behind a
    new key, as the format of `sprintf`. In the table of the profile a write is one entry that is new
    or has a new value, but not always under the names that were meant: the entry that passes for
    them gets the value, and every longer name reads a new entry. -/

namespace AcqBoard.Ini
open Schemes

/-! ### What is written -/

/-- What is written. -/
structure Update where
  sect : Name
  key : Key
  value : Chars

def Update.names (q : Update) : Names := ⟨q.sect.bytes, q.key.bytes⟩

/-- The domain: what a file can hold, and room for a new section and its NUL. -/
structure Room (q : Update) (old : List UInt8) : Prop where
  eof : eof ∉ old
  room : old.length + q.sect.bytes.length + q.key.bytes.length + q.value.bytes.length + 7 ≤
    maxFileSize

/-- What `load_ini_file` leaves of the value. -/
def Update.visible (q : Update) : List UInt8 := q.value.bytes.takeWhile (· ≠ eof)

/-! ### Reading tables -/

section
variable {file file' : File} {m m' : Table} {sect key : List UInt8}

theorem readTable_congr (h : firstBelow m ⟨sect, key⟩ = firstBelow m' ⟨sect, key⟩)
    (value : List UInt8) (defaultValue : Option (List UInt8)) :
    readTable m sect key value defaultValue = readTable m' sect key value defaultValue := by
  simp only [readTable, h]

/-- With a buffer that is large enough, what is read tells the value. -/
theorem firstBelow_of_reads (hm : HasTable file m) (hm' : HasTable file' m')
    (hz : ∀ e ∈ m, 0 ∉ e.2) (hz' : ∀ e ∈ m', 0 ∉ e.2) (hs : sect ≠ []) (hk : key ≠ [])
    (h : ∀ value defaultValue, readProfileString sect key value defaultValue file' =
      readProfileString sect key value defaultValue file) :
    firstBelow m' ⟨sect, key⟩ = firstBelow m ⟨sect, key⟩ := by
  have hread : ∀ value, readTable m' sect key value none = readTable m sect key value none :=
    fun value => by rw [← hm, ← hm', h]
  have hzero : ∀ {m : Table} {v}, (∀ e ∈ m, 0 ∉ e.2) → firstBelow m ⟨sect, key⟩ = some v → 0 ∉ v := by
    intro m v hm hv
    obtain ⟨l, k, r, rfl, -, -⟩ := firstBelow_eq_some hv
    exact hm (k, v) (by simp)
  cases hv : firstBelow m ⟨sect, key⟩ with
  | none =>
    cases hv' : firstBelow m' ⟨sect, key⟩ with
    | none => rfl
    | some v' =>
      have hr := hread [0]
      simp [readTable, hv, hv', hs, hk] at hr
  | some v =>
    cases hv' : firstBelow m' ⟨sect, key⟩ with
    | none =>
      have hr := hread [0]
      simp [readTable, hv, hv', hs, hk] at hr
    | some v' =>
      have hne : List.replicate (v.length + v'.length + 1) (0 : UInt8) ≠ [] := by simp
      have hr := hread (List.replicate (v.length + v'.length + 1) 0)
      have hstr : ∀ {u : List UInt8}, 0 ∉ u → u.length ≤ v.length + v'.length →
          strOf (u.take (v.length + v'.length) ++ List.replicate
            (v.length + v'.length + 1 - (u.take (v.length + v'.length)).length) 0) = u := by
        intro u hu hlen
        rw [List.take_of_length_le hlen, strOf_append hu, strOf_replicate, List.append_nil]
      simp only [readTable, hv, hv', hs, hk, hne, or_self, if_false, List.length_replicate,
        Nat.add_sub_cancel, Except.ok.injEq, Prod.mk.injEq, true_and] at hr
      have heq := congrArg strOf hr
      rw [hstr (hzero hz' hv') (Nat.le_add_left _ _), hstr (hzero hz hv) (Nat.le_add_right _ _)] at heq
      rw [heq]

/-! A longer key. The text in front of the first `=` of a line has no `=`, so that a key with a `=`
    behind it gets the same answers as the key. -/

theorem matchKey_longer (key s : List UInt8) : matchKey (key ++ [byte '=']) s = matchKey key s := by
  unfold matchKey
  cases hc : cut s with
  | none => rfl
  | some k =>
    have heq : byte '=' ∉ k := (cut_eq_some hc).1
    have hpre : k <+: key ++ [byte '='] ↔ k <+: key := by
      rw [List.prefix_concat_iff]
      refine or_iff_right fun h => heq ?_
      rw [h]
      simp
    simp only [hpre]

theorem step_longer (sect key : List UInt8) : step sect (key ++ [byte '=']) = step sect key := by
  funext w t
  cases t with
  | header name => rfl
  | line text nl => simp only [step, Walk.readLine, matchKey_longer]

theorem firstBelow_longer (h : ∀ e ∈ m, byte '=' ∉ e.1.key) :
    firstBelow m ⟨sect, key ++ [byte '=']⟩ = firstBelow m ⟨sect, key⟩ := by
  refine firstBelow_congr fun e he => and_congr_right fun _ => ?_
  change e.1.key <+: key ++ [byte '='] ↔ e.1.key <+: key
  rw [List.prefix_concat_iff]
  refine or_iff_right fun heq => h e he ?_
  rw [heq]
  simp

end

/-! ### Lines with a new value -/

section
variable {start : Bool} {k v u : List UInt8}

theorem plain_other (h : Plain start (k ++ byte '=' :: v)) (hk : k ≠ [])
    (hu : ∀ b ∈ u, newline b = false ∧ b ≠ 0) : Plain start (k ++ byte '=' :: u) := by
  obtain ⟨c, t, rfl⟩ := List.exists_cons_of_ne_nil hk
  refine ⟨?_, h.head⟩
  intro b hb
  rcases List.mem_append.mp hb with hb | hb
  · exact h.inner b (List.mem_append_left _ hb)
  rcases List.mem_cons.mp hb with rfl | hb
  · exact ⟨rfl, by decide⟩
  · exact hu b hb

theorem flush_other (h : Flush (k ++ byte '=' :: v)) (hk : k ≠ []) (u : List UInt8) :
    Flush (k ++ byte '=' :: u) := by
  obtain ⟨c, t, rfl⟩ := List.exists_cons_of_ne_nil hk
  exact h

end

section
variable (q : Update)

theorem Update.visible_plain : ∀ b ∈ q.visible, newline b = false ∧ b ≠ 0 := fun b hb =>
  q.value.plain b (List.takeWhile_subset _ hb)

theorem Update.visible_eq (h : eof ∉ q.value.bytes) : q.visible = q.value.bytes :=
  takeWhile_eof_self h

theorem Update.head_ne : q.key.bytes.head? ≠ some (byte ';') := fun h => (q.key.head _ h).2.1 rfl

theorem Update.key_eq : byte '=' ∉ q.key.bytes := fun h => (q.key.plain _ h).2.2 rfl

theorem Update.key_zero : 0 ∉ q.key.bytes := fun h => (q.key.plain _ h).2.1 rfl

theorem Update.sect_zero : 0 ∉ q.sect.bytes := fun h => (q.sect.plain _ h).2.1 rfl

theorem Update.value_zero : 0 ∉ q.value.bytes := fun h => (q.value.plain _ h).2 rfl

theorem Update.visible_zero : 0 ∉ q.visible := fun h => (q.visible_plain _ h).2 rfl

/-- The new line, as far as it is seen. -/
theorem Update.line_plain (start : Bool) : Plain start (q.key.bytes ++ byte '=' :: q.visible) := by
  have hline : Plain true (q.key.bytes ++ byte '=' :: q.value.bytes) :=
    IniLine.plain (l := .entry q.key q.value) (by simp)
  have hnew := plain_other hline q.key.ne q.visible_plain
  exact ⟨hnew.inner, fun _ => hnew.head rfl⟩

theorem Update.line_flush : Flush (q.key.bytes ++ byte '=' :: q.visible) :=
  flush_other (IniLine.flush (l := .entry q.key q.value) (by simp)) q.key.ne _

/-- What a byte 0xFF leaves of the key. -/
theorem Update.key_cut (start : Bool) : Plain start (q.key.bytes.takeWhile (· ≠ eof)) ∧
    byte '=' ∉ q.key.bytes.takeWhile (· ≠ eof) ∧
    Flush (q.key.bytes.takeWhile (· ≠ eof)) :=
  cut_key start q.key.plain fun b hb => ⟨(q.key.head b hb).1, (q.key.head b hb).2.2⟩

end

/-! ### A new line -/

section
variable {q : Update} {ts : List Token} {name : List UInt8} (hts : Tokens true ts)
  (htrim : ∀ t ∈ ts, t.Trim) (heof : eof ∉ bytesOf ts)
include hts htrim heof

/-- A byte 0xFF in its key hides the new line and everything behind it. -/
theorem hasTable_hidden (hcut : eof ∈ q.key.bytes)
    (hlen : (bytesOf ts).length + q.key.bytes.length < maxFileSize) (t : List UInt8) :
    HasTable (some (bytesOf ts ++ (newKey q.key.bytes q.value.bytes ++ t))) (tableOf none ts) := by
  obtain ⟨hplain, hnone, hflush⟩ := q.key_cut (startAfter true ts)
  have hload : (bytesOf ts ++ (newKey q.key.bytes q.value.bytes ++ t)).takeWhile (· ≠ eof) =
      bytesOf ts ++ q.key.bytes.takeWhile (· ≠ eof) := by
    rw [takeWhile_eof heof, newKey, List.append_assoc, (takeWhile_eof_mem hcut _).1]
  have hshort := (takeWhile_eof_mem hcut []).2
  have htable := hasTable_last hts htrim hplain hflush hload
    (by rw [List.length_append]; omega) fun _ => by rw [List.length_append]; omega
  rwa [entryOf_none hnone, Option.toList_none, List.append_nil] at htable

omit hts htrim in
/-- Up to the `=` of the new line. -/
theorem load_new (hkey : eof ∉ q.key.bytes) (t : List UInt8) :
    (bytesOf ts ++ (newKey q.key.bytes q.value.bytes ++ t)).takeWhile (· ≠ eof) =
      bytesOf ts ++ (q.key.bytes ++ byte '=' :: (q.value.bytes ++ byte '\n' :: t).takeWhile
        (· ≠ eof)) := by
  have hfront : eof ∉ bytesOf ts ++ (q.key.bytes ++ [byte '=']) := by
    simp only [List.mem_append, List.mem_singleton, not_or]
    exact ⟨heof, hkey, eof_ne_equals⟩
  have hsplit : bytesOf ts ++ (newKey q.key.bytes q.value.bytes ++ t) =
      bytesOf ts ++ (q.key.bytes ++ [byte '=']) ++ (q.value.bytes ++ byte '\n' :: t) := by
    rw [newKey]
    simp only [List.append_assoc, List.cons_append, List.nil_append]
  rw [hsplit, takeWhile_eof hfront]
  simp only [List.append_assoc, List.cons_append, List.nil_append]

/-- A new line at the end of the text. -/
theorem hasTable_new (hsect : sectAfter none ts = some name) (hkey : eof ∉ q.key.bytes)
    (hlen : (bytesOf ts).length + q.key.bytes.length + q.value.bytes.length + 2 < maxFileSize) :
    HasTable (some (bytesOf ts ++ newKey q.key.bytes q.value.bytes))
      (tableOf none ts ++ [(⟨name, q.key.bytes⟩, q.visible)]) := by
  have hentry := entryOf_entry name q.key.ne q.head_ne q.key_eq q.visible
  have hline := q.line_plain (startAfter true ts)
  have hload := load_new heof hkey []
  rw [List.append_nil] at hload
  rcases Classical.em (eof ∈ q.value.bytes) with hcut | hcut
  · rw [(takeWhile_eof_mem hcut _).1] at hload
    have hshort := (takeWhile_eof_mem hcut []).2
    have hshort' : q.visible.length < q.value.bytes.length := hshort
    have htable := hasTable_last hts htrim hline q.line_flush hload
      (by simp only [List.length_append, List.length_cons]; omega)
      fun _ => by simp only [List.length_append, List.length_cons]; omega
    rwa [hsect, hentry] at htable
  · have hnl : eof ∉ q.value.bytes ++ [byte '\n'] := by
      simp only [List.mem_append, List.mem_singleton, not_or]
      exact ⟨hcut, eof_ne_lf⟩
    rw [takeWhile_eof_self hnl] at hload
    rw [q.visible_eq hcut] at hentry hline ⊢
    have htok : Tokens true (ts ++ [.line (q.key.bytes ++ byte '=' :: q.value.bytes) (byte '\n')]) :=
      tokens_append.mpr ⟨hts, ⟨rfl, hline⟩, trivial⟩
    have htrim' : ∀ t ∈ ts ++ [.line (q.key.bytes ++ byte '=' :: q.value.bytes) (byte '\n')],
        t.Trim := by
      intro t ht
      rcases List.mem_append.mp ht with ht | ht
      · exact htrim t ht
      · rw [List.mem_singleton.mp ht]
        exact q.visible_eq hcut ▸ q.line_flush
    have hbytes : bytesOf (ts ++ [.line (q.key.bytes ++ byte '=' :: q.value.bytes) (byte '\n')]) =
        bytesOf ts ++ (q.key.bytes ++ byte '=' :: (q.value.bytes ++ [byte '\n'])) := by
      simp [bytesOf, Token.bytes]
    rw [← hbytes] at hload
    have htable := hasTable_last htok htrim' ⟨by simp, by simp⟩ flush_nil
      (hload.trans (List.append_nil _).symm)
      (by rw [hbytes]; simp only [List.length_append, List.length_cons, List.length_nil]; omega)
      fun h => (h rfl).elim
    rw [tableOf_append, tableOf, hsect, hentry] at htable
    rwa [entryOf_none (by simp), Option.toList_none, List.append_nil] at htable

end

/-! ### The three ways to write -/

theorem entryOf_other {s : Option (List UInt8)} {text : List UInt8} {e : Names × List UInt8}
    (h : entryOf s text = some e) (u : List UInt8) :
    entryOf s (e.1.key ++ byte '=' :: u) = some (e.1, u) := by
  obtain ⟨rfl, -, ⟨hne, hhead⟩, -⟩ := entryOf_eq_some.mp h
  exact entryOf_entry _ hne hhead (entryOf_text h).1 u

section
variable {conv : List UInt8 → ℤ → Except Fault (List UInt8)} {q : Update} {p : IniFile}
  {file file' : File} {disk : Disk} {f : Spans} {us vs : List Token}
  (hold : file.getD [] = p.bytes) (hroom : Room q p.bytes)

include hroom in
theorem parse_old {sect key : List UInt8} (hs : sect ≠ []) (hk : key ≠ []) :
    parseFile sect key (filled p.bytes) = .ok (p.document.lookUp sect key) := by
  have hlen := hroom.room
  rw [filled_end_two (by omega), ← p.document_bytes]
  exact parseFile_document hs hk p.document_valid fun _ => ⟨_, rfl⟩

theorem table_empty (h : p.bytes = []) : p.table = [] := by
  refine List.eq_nil_iff_forall_not_mem.mpr fun e he => ?_
  obtain ⟨-, -, -, nl, hline⟩ := tableOf_mem he
  have hmem : byte '=' ∈ bytesOf p.document.lines := mem_bytesOf hline (by simp [Token.bytes])
  rw [p.bytesOf_lines, h] at hmem
  exact absurd hmem (by decide)

include hold hroom in
theorem hasTable_old : HasTable file p.table := by
  have hlen := hroom.room
  cases file with
  | none =>
    rw [table_empty hold.symm]
    exact hasTable_none
  | some bytes =>
    obtain rfl : bytes = p.bytes := hold
    exact hasTable_lines p.lines_valid p.lines_trim p.bytesOf_lines (takeWhile_eof_self hroom.eof)
      (by omega)

theorem document_empty (h : p.bytes = []) : p.document = ⟨[], .line []⟩ :=
  Document.eq_of_empty (p.document_bytes.trans h)

include hold hroom in
theorem text_written {found : Bool}
    (hl : p.document.lookUp q.sect.bytes q.key.bytes = (found, f))
    (h : writeProfileString conv q.sect.bytes q.key.bytes q.value.bytes file disk =
      .ok (true, file')) :
    ∃ w, newText conv q.sect.bytes q.key.bytes q.value.bytes (filled p.bytes) p.bytes.length f =
      .ok w ∧ file' = some (strOf w) := by
  have hp := parse_old hroom q.sect.ne q.key.ne
  have hlen := hroom.room
  rw [hl] at hp
  refine writeProfileString_ok hold hroom.eof (by omega) hp (fun hnil => ?_) h
  rw [document_empty hnil] at hl
  exact (Prod.mk.inj hl).2.symm

/-- The walk that finds an entry has a section and a key. -/
theorem entry_spans {sect key text : List UInt8} {v : Walk} (hus : Tokens true us)
    (hrun : run (step sect key) {} us = .ok v) {len : ℕ} (h : v.readLine key text len = .error f) :
    f.secS ≠ -1 ∧ f.keyS ≠ -1 := by
  obtain ⟨hout, k, -, rfl⟩ := readLine_eq_error h
  have hheaded : Headed sect us := by
    by_contra hno
    exact hout ((tracked_run hus hrun).unheaded hno).1
  have hsec := ((tracked_run hus hrun).headed hheaded).1
  rw [Walk.entry]
  dsimp only
  rw [entered_secS]
  exact ⟨hsec, by omega⟩

/-- The profile up to the line of an entry that is found, and from its value on. -/
structure Found (q : Update) (p : IniFile) (f : Spans) (us : List Token) (e : Names × List UInt8)
    (nl : UInt8) (vs : List Token) (rest : List UInt8) : Prop where
  lines : p.document.lines = us ++ .line (e.1.key ++ byte '=' :: e.2) nl :: vs
  spans : f.secS ≠ -1 ∧ f.keyS ≠ -1
  first : firstBelow (tableOf none us) q.names = none
  entry : entryOf (sectAfter none us) (e.1.key ++ byte '=' :: e.2) = some e
  below : e.1 ≤ q.names
  start : f.valueS = (bytesOf us ++ (e.1.key ++ [byte '='])).length
  stop : f.valueE = ((bytesOf us ++ (e.1.key ++ [byte '='])).length + e.2.length : ℕ)
  old : p.bytes = bytesOf us ++ (e.1.key ++ [byte '=']) ++ (e.2 ++ rest)
  behind : nl :: bytesOf vs = rest ++ [byte '\n']

theorem lookUp_found (hl : p.document.lookUp q.sect.bytes q.key.bytes = (true, f)) :
    ∃ us e nl vs rest, Found q p f us e nl vs rest := by
  have hlines := lookUp_lines q.sect.bytes q.key.bytes p.document
  cases hrun : run (step q.sect.bytes q.key.bytes) {} p.document.lines with
  | ok w =>
    rw [hrun, hl] at hlines
    cases hlines
  | error g =>
    rw [hrun, hl] at hlines
    obtain rfl : f = g := (Prod.mk.inj hlines).2
    obtain ⟨us, v, text, nl, vs, e, hsplit, hus, hread, hfirst, he, hle, hvs, hve⟩ :=
      run_entry_table p.lines_trim hrun
    obtain ⟨-, rfl⟩ := entryOf_text he
    have hvalid := p.lines_valid
    rw [hsplit, tokens_append] at hvalid
    obtain ⟨rest, hbytes, hrest⟩ := p.bytes_of_lines hsplit
    refine ⟨us, e, nl, vs, rest, hsplit, entry_spans hvalid.1 hus hread, hfirst, he, hle, ?_, ?_, ?_,
      hrest⟩
    · rw [hvs]
      simp only [List.length_append, List.length_singleton, Nat.add_assoc]
    · rw [hve]
      simp only [List.length_append, List.length_cons, List.length_nil]
      omega
    · rw [hbytes]
      simp only [List.append_assoc, List.cons_append, List.nil_append]

section
variable {e : Names × List UInt8} {nl : UInt8} {rest : List UInt8}
  (hf : Found q p f us e nl vs rest)
include hf

theorem Found.table : p.table = tableOf none us ++ e :: tableOf (sectAfter none us) vs := by
  rw [IniFile.table, Document.table, hf.lines, tableOf_append, tableOf, hf.entry]
  rfl

theorem Found.key_ne : e.1.key ≠ [] := (entryOf_eq_some.mp hf.entry).2.2.1.1

include hroom in
theorem Found.room : (bytesOf us ++ (e.1.key ++ [byte '=']) ++ (q.value.bytes ++ rest)).length + 1 <
    maxFileSize := by
  have hlen := hroom.room
  rw [hf.old] at hlen
  simp only [List.length_append] at hlen ⊢
  omega

include hold hroom in
/-- The value takes the place of the old one. -/
theorem Found.text (hl : p.document.lookUp q.sect.bytes q.key.bytes = (true, f))
    (h : writeProfileString conv q.sect.bytes q.key.bytes q.value.bytes file disk =
      .ok (true, file')) :
    file' = some (bytesOf us ++ (e.1.key ++ [byte '=']) ++ (q.value.bytes ++ rest)) := by
  obtain ⟨w, hw, rfl⟩ := text_written hold hroom hl h
  have hlen := hroom.room
  have hnew := hf.room hroom
  have hz : 0 ∉ bytesOf us ++ (e.1.key ++ [byte '=']) ++ (q.value.bytes ++ rest) := by
    have hzero : 0 ∉ p.bytes := p.document_bytes ▸ p.document_valid.zero
    rw [hf.old] at hzero
    simp only [List.mem_append, not_or] at hzero ⊢
    exact ⟨hzero.1, q.value_zero, hzero.2.2⟩
  rw [newText_replace hf.spans.1 hf.spans.2 hf.old hf.start hf.stop (by omega) (by omega) hw,
    strOf_filled hz]

include hroom in
/-- What is read of it: the value, up to a byte 0xFF, which hides the rest. -/
theorem Found.read :
    HasTable (some (bytesOf us ++ (e.1.key ++ [byte '=']) ++ (q.value.bytes ++ rest)))
      (tableOf none us ++ (e.1, q.visible) ::
        if eof ∈ q.value.bytes then [] else tableOf (sectAfter none us) vs) := by
  have hvalid := p.lines_valid
  have htrim := p.lines_trim
  have heof := hroom.eof
  have hnew := hf.room hroom
  rw [hf.lines, tokens_append] at hvalid
  rw [hf.lines] at htrim
  rw [hf.old, List.mem_append, not_or] at heof
  obtain ⟨hfront, hback⟩ := heof
  have hrest : eof ∉ rest := fun h => hback (List.mem_append_right _ h)
  obtain ⟨hvus, ⟨hnl, hplain⟩, hvvs⟩ := hvalid
  have htus : ∀ t ∈ us, t.Trim := fun t ht => htrim t (List.mem_append_left _ ht)
  have hentry := entryOf_other hf.entry q.visible
  have hline := plain_other hplain hf.key_ne q.visible_plain
  have hspace := flush_other (htrim (.line (e.1.key ++ byte '=' :: e.2) nl) (by simp)) hf.key_ne
    q.visible
  split
  · rename_i hcut
    have hload : (bytesOf us ++ (e.1.key ++ [byte '=']) ++ (q.value.bytes ++ rest)).takeWhile
        (· ≠ eof) = bytesOf us ++ (e.1.key ++ byte '=' :: q.visible) := by
      rw [takeWhile_eof hfront, (takeWhile_eof_mem hcut rest).1]
      simp [Update.visible]
    have hlen : (bytesOf us ++ (e.1.key ++ byte '=' :: q.visible)).length + 1 < maxFileSize := by
      have hshort := (takeWhile_eof_mem hcut []).2
      simp only [List.length_append, List.length_cons, List.length_nil, Update.visible] at hnew ⊢
      omega
    have htable := hasTable_last hvus htus hline hspace hload (Nat.lt_of_succ_lt hlen) fun _ => hlen
    rwa [hentry] at htable
  · rename_i hcut
    rw [q.visible_eq hcut] at hentry hline hspace ⊢
    have htable : tableOf none (us ++ .line (e.1.key ++ byte '=' :: q.value.bytes) nl :: vs) =
        tableOf none us ++ (e.1, q.value.bytes) :: tableOf (sectAfter none us) vs := by
      rw [tableOf_append, tableOf, hentry]
      rfl
    rw [← htable]
    refine hasTable_lines ?_ ?_ ?_ ?_ hnew
    · exact tokens_append.mpr ⟨hvus, ⟨hnl, hline⟩, hvvs⟩
    · intro t ht
      rcases List.mem_append.mp ht with ht | ht
      · exact htus t ht
      rcases List.mem_cons.mp ht with rfl | ht
      · exact hspace
      · exact htrim t (by simp [ht])
    · have hcons : bytesOf (.line (e.1.key ++ byte '=' :: q.value.bytes) nl :: vs) =
          (e.1.key ++ byte '=' :: q.value.bytes) ++ nl :: bytesOf vs := by
        simp [bytesOf, Token.bytes]
      rw [bytesOf_append, hcons, hf.behind]
      simp only [List.append_assoc, List.cons_append, List.nil_append]
    · rw [takeWhile_eof hfront, takeWhile_eof hcut, takeWhile_eof_self hrest]

end

theorem lookUp_missing (hl : p.document.lookUp q.sect.bytes q.key.bytes = (false, f)) :
    firstBelow p.table q.names = none := by
  have hlines := lookUp_lines q.sect.bytes q.key.bytes p.document
  cases hrun : run (step q.sect.bytes q.key.bytes) {} p.document.lines with
  | ok w => exact (run_table p.lines_trim outside_start hrun).1
  | error g =>
    rw [hrun, hl] at hlines
    cases hlines

/-- The lines in front of the seat, and those behind it. -/
structure Gap (q : Update) (p : IniFile) (us vs : List Token) (name b : List UInt8) : Prop where
  lines : p.document.lines = us ++ (vs ++ p.document.tail.lines)
  tokens : Tokens true us
  trim : ∀ t ∈ us, t.Trim
  sect : sectAfter none us = some name
  below : name <+: q.sect.bytes
  old : p.bytes = bytesOf us ++ b
  table : p.table = tableOf none us ++ tableOf (some name) (vs ++ p.document.tail.lines)
  behind : bytesOf (vs ++ p.document.tail.lines) = b ++ [byte '\n']

theorem sectAfter_blank {mid : List Token} (h : ∀ t ∈ mid, t.blank = true) (s : Option (List UInt8)) :
    sectAfter s mid = s := by
  induction mid with
  | nil => rfl
  | cons t mid ih =>
    cases t with
    | header name => exact absurd (h _ List.mem_cons_self) (by simp [Token.blank])
    | line text nl => exact ih fun t ht => h t (List.mem_cons_of_mem _ ht)

theorem seat_gap (hseat : seat q.sect.bytes p.document.tokens = some (us, vs)) :
    ∃ name b, Gap q p us vs name b := by
  obtain ⟨htokens, pre, name, mid, hus, hpre, hmid⟩ := seat_eq_some hseat
  obtain ⟨text, htail, -⟩ := p.document_tail
  have hsect : sectAfter none us = some name := by
    rw [hus, sectAfter_append]
    exact sectAfter_blank hmid _
  have hvalid := p.document_valid.tokens
  rw [htokens, tokens_append] at hvalid
  refine ⟨name, bytesOf vs ++ p.document.tail.bytes, ?_, hvalid.1, fun t ht => p.tokens_trim t ?_,
    hsect, hpre, ?_, ?_, ?_⟩
  · rw [Document.lines, htokens, List.append_assoc]
  · rw [htokens]
    exact List.mem_append_left _ ht
  · rw [← p.document_bytes, Document.bytes, htokens, bytesOf_append, List.append_assoc]
  · rw [IniFile.table, Document.table, Document.lines, htokens, List.append_assoc, tableOf_append,
      hsect]
  · rw [bytesOf_append, htail, Tail.bytes]
    simp [Tail.lines, bytesOf, Token.bytes]

section
variable {name b : List UInt8} (hs : Gap q p us vs name b)
include hs

include hold hroom in
/-- The new key goes to the seat, and what `sprintf` makes of the rest behind it. -/
theorem Gap.text (hseat : seat q.sect.bytes p.document.tokens = some (us, vs))
    (hl : p.document.lookUp q.sect.bytes q.key.bytes = (false, f))
    (h : writeProfileString conv q.sect.bytes q.key.bytes q.value.bytes file disk =
      .ok (true, file')) :
    ∃ s, sprintf conv b (p.bytes.length - (bytesOf us).length) = .ok s ∧
      file' = some (bytesOf us ++ (newKey q.key.bytes q.value.bytes ++ strOf s)) ∧
      (bytesOf us ++ (newKey q.key.bytes q.value.bytes ++ strOf s)).length < maxFileSize := by
  obtain ⟨text, htail, htext⟩ := p.document_tail
  have hheaded : Headed q.sect.bytes p.document.tokens := by
    by_contra hno
    rw [seat_eq_none.mpr hno] at hseat
    cases hseat
  have hopen : ∀ name, p.document.tail = .opened name → ¬ name <+: q.sect.bytes := by
    intro n hn
    rw [htail] at hn
    cases hn
  have hsec := (lookUp_headed p.document_valid hl hheaded hopen).1
  have hsecE := lookUp_seat p.document_valid p.tokens_trim htail htext hl hseat
  obtain ⟨w, hw, rfl⟩ := text_written hold hroom hl h
  have hlen := hroom.room
  have hle : (bytesOf us).length ≤ p.bytes.length := by
    rw [hs.old, List.length_append]
    omega
  have htake : p.bytes.take (bytesOf us).length = bytesOf us := by rw [hs.old, List.take_left]
  obtain ⟨s, hprint, hws, hlt⟩ := newText_insert hsec (lookUp_keyS p.document_valid hl) (by omega)
    hsecE hle hw
  have hzero : 0 ∉ p.bytes := p.document_bytes ▸ p.document_valid.zero
  have hzus : 0 ∉ bytesOf us := fun hm => hzero (by rw [hs.old]; exact List.mem_append_left _ hm)
  have hzb : 0 ∉ b := fun hm => hzero (by rw [hs.old]; exact List.mem_append_right _ hm)
  have hrest : strOf ((filled p.bytes).drop (bytesOf us).length) = b := by
    rw [filled, List.drop_append_of_le_length hle, hs.old, List.drop_left, strOf_append hzb,
      strOf_replicate, List.append_nil]
  have hznew : 0 ∉ bytesOf us ++ newKey q.key.bytes q.value.bytes := by
    intro hm
    rcases List.mem_append.mp hm with hm | hm
    · exact hzus hm
    · exact not_mem_newKey (by decide) (by decide) q.key_zero q.value_zero hm
  rw [htake] at hws hlt
  have hstr : strOf w = bytesOf us ++ (newKey q.key.bytes q.value.bytes ++ strOf s) := by
    rw [hws, strOf_filled_eq, strOf_append hznew, List.append_assoc]
  rw [hrest] at hprint
  refine ⟨s, hprint, by rw [hstr], ?_⟩
  rw [← hstr, hws, strOf_filled_eq]
  exact lt_of_le_of_lt (List.takeWhile_sublist _).length_le hlt

include hroom in
theorem Gap.eof : eof ∉ bytesOf us ∧ eof ∉ b := by
  have heof := hroom.eof
  rw [hs.old] at heof
  exact ⟨fun h => heof (List.mem_append_left _ h), fun h => heof (List.mem_append_right _ h)⟩

include hroom in
/-- A byte 0xFF in the key hides everything from the seat on. -/
theorem Gap.read_hidden (hcut : Ini.eof ∈ q.key.bytes) (t : List UInt8) :
    HasTable (some (bytesOf us ++ (newKey q.key.bytes q.value.bytes ++ t))) (tableOf none us) := by
  have hlen := hroom.room
  rw [hs.old, List.length_append] at hlen
  exact hasTable_hidden hs.tokens hs.trim (hs.eof hroom).1 hcut (by omega) t

/-- The new line is found for a longer key. -/
theorem Gap.site_longer (hl : p.document.lookUp q.sect.bytes q.key.bytes = (false, f))
    (hseat : seat q.sect.bytes p.document.tokens = some (us, vs)) :
    ∃ v, Site q.sect.bytes (q.key.bytes ++ [byte '=']) us v (q.key.bytes ++ byte '=' :: q.visible)
        q.key.bytes.length ∧
      v.place.skipped (q.key.bytes ++ byte '=' :: q.visible) = 0 := by
  obtain ⟨w, -, hrun, -⟩ := Document.lookUp_false (congrArg Prod.fst hl)
  rw [(seat_eq_some hseat).1] at hrun
  obtain ⟨v, hus, -⟩ := run_append_ok.mp hrun
  obtain ⟨-, hin, -⟩ := run_table hs.trim outside_start hus
  have hplace : v.place ≠ .outside := hin.mpr ⟨name, hs.sect, hs.below⟩
  have hskip : v.place.skipped (q.key.bytes ++ byte '=' :: q.visible) = 0 :=
    skipped_of_none _ q.line_flush.takeWhile
  refine ⟨v, ⟨hs.tokens, by rw [step_longer]; exact hus, q.line_plain _, hplace, ?_⟩, hskip⟩
  rw [hskip, List.drop_zero, matchKey_longer]
  exact matchKey_eq_some.mpr ⟨_, cut_eq q.key_eq _, ⟨q.key.ne, q.head_ne, List.prefix_rfl⟩, rfl⟩

include hroom in
/-- The new line is loaded as far as its value is seen, and ends there. -/
theorem Gap.load_line (hkey : Ini.eof ∉ q.key.bytes) (t : List UInt8) : ∃ rest,
    (bytesOf us ++ (newKey q.key.bytes q.value.bytes ++ t)).takeWhile (· ≠ Ini.eof) =
      bytesOf us ++ (q.key.bytes ++ byte '=' :: q.visible ++ rest) ∧
    (rest = [] ∨ ∃ c s, rest = c :: s ∧ newline c = true) := by
  rw [load_new (hs.eof hroom).1 hkey]
  rcases Classical.em (Ini.eof ∈ q.value.bytes) with hcut | hcut
  · refine ⟨[], ?_, Or.inl rfl⟩
    rw [(takeWhile_eof_mem hcut _).1, List.append_nil]
    rfl
  · refine ⟨byte '\n' :: t.takeWhile (· ≠ Ini.eof), ?_, Or.inr ⟨_, _, rfl, rfl⟩⟩
    have hnl : Ini.eof ∉ q.value.bytes ++ [byte '\n'] := by
      simp only [List.mem_append, List.mem_singleton, not_or]
      exact ⟨hcut, eof_ne_lf⟩
    have hcons : q.value.bytes ++ byte '\n' :: t = q.value.bytes ++ [byte '\n'] ++ t := by simp
    rw [q.visible_eq hcut, hcons, takeWhile_eof hnl]
    simp only [List.append_assoc, List.cons_append, List.nil_append]

include hroom in
/-- Without one, a longer key reads the new line, whatever stands behind it. -/
theorem Gap.read_longer (hl : p.document.lookUp q.sect.bytes q.key.bytes = (false, f))
    (hseat : seat q.sect.bytes p.document.tokens = some (us, vs))
    (hkey : Ini.eof ∉ q.key.bytes) {t : List UInt8}
    (hlt : (bytesOf us ++ (newKey q.key.bytes q.value.bytes ++ t)).length < maxFileSize) :
    ∃ value out, readProfileString q.sect.bytes (q.key.bytes ++ [byte '=']) value none
      (some (bytesOf us ++ (newKey q.key.bytes q.value.bytes ++ t))) = .ok (true, out) := by
  obtain ⟨v, hsite, hskip⟩ := hs.site_longer hl hseat
  obtain ⟨rest, hload, hrest⟩ := hs.load_line hroom hkey t
  have hlen : (bytesOf us ++ (q.key.bytes ++ byte '=' :: q.visible ++ rest)).length < maxFileSize := by
    rw [← hload]
    exact lt_of_le_of_lt (List.takeWhile_sublist _).length_le hlt
  have hdrop : (q.key.bytes ++ byte '=' :: q.visible).drop
      (v.place.skipped (q.key.bytes ++ byte '=' :: q.visible)) =
        q.key.bytes ++ byte '=' :: q.visible := by
    rw [hskip, List.drop_zero]
  have hbuf : q.visible.length < (List.replicate (q.visible.length + 1) (0 : UInt8)).length := by
    simp
  obtain ⟨out, hout, -⟩ := read_of_site q.sect.ne (by simp) hsite hdrop hload hrest hlen
    q.visible_zero hbuf
  exact ⟨_, out, hout⟩

omit hs in
/-- Flush lines can stand at the start of a line. -/
theorem tokens_flush {start : Bool} {ts : List Token} (h : Tokens start ts)
    (hts : ∀ t ∈ ts, t.Trim) : Tokens true ts := by
  cases ts with
  | nil => trivial
  | cons t ts =>
    refine ⟨?_, h.2⟩
    cases t with
    | header name => exact ⟨rfl, h.1.2⟩
    | line text nl =>
      have hflush : Flush text := hts _ List.mem_cons_self
      exact ⟨h.1.1, h.1.2.inner, fun _ hb => (hflush _ hb).2 rfl⟩

include hroom in
/-- If `sprintf` prints the rest as it is, the table has one entry more. -/
theorem Gap.read (hkey : Ini.eof ∉ q.key.bytes) (hvalue : Ini.eof ∉ q.value.bytes) :
    HasTable (some (bytesOf us ++ (newKey q.key.bytes q.value.bytes ++ b)))
      (tableOf none us ++ (⟨name, q.key.bytes⟩, q.value.bytes) ::
        tableOf (some name) (vs ++ p.document.tail.lines)) := by
  have hline := q.line_plain (startAfter true us)
  have hspace := q.line_flush
  have hentry := entryOf_entry name q.key.ne q.head_ne q.key_eq q.value.bytes
  rw [q.visible_eq hvalue] at hline hspace
  have hlen := hroom.room
  have hvalid := p.lines_valid
  have htrim := p.lines_trim
  rw [hs.lines, tokens_append] at hvalid
  rw [hs.lines] at htrim
  have htable : tableOf none (us ++ .line (q.key.bytes ++ byte '=' :: q.value.bytes) (byte '\n') ::
      (vs ++ p.document.tail.lines)) = tableOf none us ++
        (⟨name, q.key.bytes⟩, q.value.bytes) :: tableOf (some name) (vs ++ p.document.tail.lines) := by
    rw [tableOf_append, tableOf, hs.sect, hentry]
    rfl
  have hload : (bytesOf us ++ (newKey q.key.bytes q.value.bytes ++ b)).takeWhile (· ≠ Ini.eof) =
      bytesOf us ++ (newKey q.key.bytes q.value.bytes ++ b) := by
    have hnew : Ini.eof ∉ newKey q.key.bytes q.value.bytes :=
      not_mem_newKey eof_ne_equals eof_ne_lf hkey hvalue
    rw [takeWhile_eof (hs.eof hroom).1, takeWhile_eof hnew, takeWhile_eof_self (hs.eof hroom).2]
  rw [← htable]
  refine hasTable_lines ?_ ?_ ?_ hload ?_
  · exact tokens_append.mpr ⟨hs.tokens, ⟨rfl, hline⟩,
      tokens_flush hvalid.2 fun t ht => htrim t (List.mem_append_right _ ht)⟩
  · intro t ht
    rcases List.mem_append.mp ht with ht | ht
    · exact hs.trim t ht
    rcases List.mem_cons.mp ht with rfl | ht
    · exact hspace
    · exact htrim t (List.mem_append_right _ ht)
  · have hcons : bytesOf (.line (q.key.bytes ++ byte '=' :: q.value.bytes) (byte '\n') ::
        (vs ++ p.document.tail.lines)) =
          newKey q.key.bytes q.value.bytes ++ bytesOf (vs ++ p.document.tail.lines) := by
      simp [bytesOf, Token.bytes, newKey]
    rw [bytesOf_append, hcons, hs.behind]
    simp only [List.append_assoc]
  · rw [hs.old] at hlen
    simp only [newKey, List.length_append, List.length_cons, List.length_nil] at hlen ⊢
    omega

end

/-! A new section. -/

variable (q p) in
/-- The lines in front of a new section. -/
theorem lines_before_section : ∃ ts, Tokens true ts ∧ startAfter true ts = true ∧
    (∀ t ∈ ts, t.Trim) ∧ tableOf none ts = p.table ∧
    (if p.bytes = [] then newSection q.sect.bytes q.key.bytes q.value.bytes
      else p.bytes ++ byte '\n' :: newSection q.sect.bytes q.key.bytes q.value.bytes) =
        bytesOf ts ++ newSection q.sect.bytes q.key.bytes q.value.bytes ∧
    (bytesOf ts).length ≤ p.bytes.length + 1 ∧ (eof ∉ p.bytes → eof ∉ bytesOf ts) := by
  rcases eq_or_ne p.bytes [] with hnil | hne
  · refine ⟨[], trivial, rfl, by simp, (table_empty hnil).symm, if_pos hnil, Nat.zero_le _, ?_⟩
    simp [bytesOf]
  · obtain ⟨text, htail, -⟩ := p.document_tail
    refine ⟨p.document.lines, p.lines_valid, ?_, p.lines_trim, rfl, ?_, ?_, ?_⟩
    · rw [Document.lines, startAfter_append, htail]
      rfl
    · rw [if_neg hne, p.bytesOf_lines, List.append_assoc]
      rfl
    · rw [p.bytesOf_lines, List.length_append, List.length_singleton]
    · intro heof
      rw [p.bytesOf_lines]
      simp [heof]

include hold hroom in
theorem section_text (hl : p.document.lookUp q.sect.bytes q.key.bytes = (false, f))
    (hh : ¬ Headed q.sect.bytes p.document.tokens)
    (h : writeProfileString conv q.sect.bytes q.key.bytes q.value.bytes file disk =
      .ok (true, file')) :
    file' = some (if p.bytes = [] then newSection q.sect.bytes q.key.bytes q.value.bytes
      else p.bytes ++ byte '\n' :: newSection q.sect.bytes q.key.bytes q.value.bytes) := by
  obtain ⟨text, htail, -⟩ := p.document_tail
  have hopen : ∀ name, p.document.tail = .opened name → ¬ name <+: q.sect.bytes := by
    intro n hn
    rw [htail] at hn
    cases hn
  obtain ⟨rfl, -⟩ := lookUp_unheaded p.document_valid hl hh hopen
  obtain ⟨w, hw, rfl⟩ := text_written hold hroom hl h
  have hlen := hroom.room
  obtain ⟨t, ht, hws, -⟩ := newText_append rfl (by omega) hw
  have hnew := zero_not_mem_newSection q.sect_zero q.key_zero q.value_zero
  have hzero : 0 ∉ p.bytes := p.document_bytes ▸ p.document_valid.zero
  have hz : 0 ∉ t := by
    rw [ht]
    split
    · exact hnew
    · intro hm
      rcases List.mem_append.mp hm with hm | hm
      · exact hzero hm
      rcases List.mem_cons.mp hm with hm | hm
      · exact absurd hm (by decide)
      · exact hnew hm
  rw [hws, strOf_filled hz, ht]

section
variable {ts : List Token} (hts : Tokens true ts) (hstart : startAfter true ts = true)
  (htrim : ∀ t ∈ ts, t.Trim) (heof : eof ∉ bytesOf ts)

include hts hstart htrim heof in
/-- A byte 0xFF in the section: its header does not end. -/
theorem hasTable_opened (hsect : eof ∈ q.sect.bytes)
    (hlen : (bytesOf ts).length + q.sect.bytes.length + 1 < maxFileSize) :
    HasTable (some (bytesOf ts ++ newSection q.sect.bytes q.key.bytes q.value.bytes))
      (tableOf none ts) := by
  obtain ⟨htake, hshort⟩ := takeWhile_eof_mem hsect
    (byte ']' :: byte '\n' :: newKey q.key.bytes q.value.bytes)
  have hd : Document.Valid ⟨ts, .opened (q.sect.bytes.takeWhile (· ≠ eof))⟩ :=
    ⟨hts, hstart, named_of_subset q.sect.named fun b hb => List.takeWhile_subset _ hb⟩
  have hlines : Document.lines ⟨ts, .opened (q.sect.bytes.takeWhile (· ≠ eof))⟩ = ts :=
    List.append_nil ts
  have hload : (bytesOf ts ++ newSection q.sect.bytes q.key.bytes q.value.bytes).takeWhile
      (· ≠ eof) = Document.bytes ⟨ts, .opened (q.sect.bytes.takeWhile (· ≠ eof))⟩ := by
    rw [takeWhile_eof heof, newSection, List.takeWhile_cons,
      if_pos (by simp [eof_ne_leftBarce.symm])]
    exact congrArg (bytesOf ts ++ byte '[' :: ·) htake
  have hdlen : (Document.bytes ⟨ts, .opened (q.sect.bytes.takeWhile (· ≠ eof))⟩).length + 1 <
      maxFileSize := by
    simp only [Document.bytes, Tail.bytes, List.length_append, List.length_cons]
    omega
  have hread := Document.hasTable hd (by rw [hlines]; exact htrim) hload
    (Nat.lt_of_succ_lt hdlen) fun _ => hdlen
  rwa [Document.table, hlines] at hread

/-- The lines up to a new header and the end of its line. -/
def headerLines (q : Update) (ts : List Token) : List Token :=
  ts ++ [.header q.sect.bytes, .line [] (byte '\n')]

include hts hstart in
theorem headerLines_tokens : Tokens true (headerLines q ts) := by
  refine tokens_append.mpr ⟨hts, ?_⟩
  rw [hstart]
  exact ⟨⟨rfl, q.sect.named⟩, ⟨rfl, by simp, by simp⟩, trivial⟩

include htrim in
theorem headerLines_trim : ∀ t ∈ headerLines q ts, t.Trim := by
  intro t ht
  rcases List.mem_append.mp ht with ht | ht
  · exact htrim t ht
  rcases List.mem_cons.mp ht with rfl | ht
  · trivial
  · rw [List.mem_singleton.mp ht]
    exact flush_nil

variable (q ts) in
theorem headerLines_table : tableOf none (headerLines q ts) = tableOf none ts := by
  rw [headerLines, tableOf_append]
  exact List.append_nil _

variable (q ts) in
theorem headerLines_sect : sectAfter none (headerLines q ts) = some q.sect.bytes := by
  rw [headerLines, sectAfter_append]
  rfl

variable (q ts) in
theorem headerLines_bytes : bytesOf (headerLines q ts) =
    bytesOf ts ++ byte '[' :: (q.sect.bytes ++ [byte ']', byte '\n']) := by
  simp [headerLines, bytesOf, Token.bytes]

variable (q ts) in
theorem headerLines_newKey : bytesOf ts ++ newSection q.sect.bytes q.key.bytes q.value.bytes =
    bytesOf (headerLines q ts) ++ newKey q.key.bytes q.value.bytes := by
  rw [headerLines_bytes, newSection, newKey]
  simp only [List.append_assoc, List.cons_append, List.nil_append]

end

include hroom in
/-- A new section adds an entry, unless a byte 0xFF in a name hides it. -/
theorem section_read :
    HasTable (some (if p.bytes = [] then newSection q.sect.bytes q.key.bytes q.value.bytes
        else p.bytes ++ byte '\n' :: newSection q.sect.bytes q.key.bytes q.value.bytes))
      (if eof ∈ q.sect.bytes ∨ eof ∈ q.key.bytes then p.table
        else p.table ++ [(q.names, q.visible)]) := by
  obtain ⟨ts, hts, hstart, htrim, htable, hbytes, hle, heof⟩ := lines_before_section q p
  have heof := heof hroom.eof
  have hlen := hroom.room
  rw [hbytes, ← htable]
  rcases Classical.em (eof ∈ q.sect.bytes) with hsect | hsect
  · rw [if_pos (Or.inl hsect)]
    exact hasTable_opened hts hstart htrim heof hsect (by omega)
  have htok := headerLines_tokens (q := q) hts hstart
  have htrim' := headerLines_trim (q := q) htrim
  have heof' : eof ∉ bytesOf (headerLines q ts) := by
    rw [headerLines_bytes]
    simp [heof, hsect]
  have hlen' : (bytesOf (headerLines q ts)).length + q.key.bytes.length + q.value.bytes.length + 3 ≤
      maxFileSize := by
    rw [headerLines_bytes]
    simp only [List.length_append, List.length_cons, List.length_nil]
    omega
  rw [headerLines_newKey, ← headerLines_table q ts]
  rcases Classical.em (eof ∈ q.key.bytes) with hkey | hkey
  · rw [if_pos (Or.inr hkey)]
    have hread := hasTable_hidden htok htrim' heof' hkey (by omega) []
    rwa [List.append_nil] at hread
  · rw [if_neg (not_or.mpr ⟨hsect, hkey⟩)]
    exact hasTable_new htok htrim' heof' (headerLines_sect q ts) hkey (by omega)

end

end AcqBoard.Ini
