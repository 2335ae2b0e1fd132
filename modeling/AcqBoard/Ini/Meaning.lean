import AcqBoard.Ini.Exact
import AcqBoard.Ini.Storage
import AcqBoard.Schemes.FirstBelow

/-! What a profile means.

    A profile stands for a table: the values under the names of their section and their key. One pair
    of names is below another if both of its names are prefixes, and what `read_profile_string` reads
    is the first entry below the names it is asked for (`Document.hasTable`). So far this says that
    the positions in the buffer can be forgotten; it holds for every text whose lines are flush. -/

namespace AcqBoard.Ini
open Schemes

structure Names where
  sect : List UInt8
  key : List UInt8
  deriving DecidableEq

instance : Preorder Names where
  le a b := a.sect <+: b.sect ∧ a.key <+: b.key
  le_refl _ := ⟨List.prefix_rfl, List.prefix_rfl⟩
  le_trans _ _ _ h₁ h₂ := ⟨h₁.1.trans h₂.1, h₁.2.trans h₂.2⟩

instance : DecidableLE Names := fun a b =>
  inferInstanceAs (Decidable (a.sect <+: b.sect ∧ a.key <+: b.key))

abbrev Table := List (Names × List UInt8)

/-- The entry on a line, if it has one and is in a section. -/
def entryOf (sect : Option (List UInt8)) (text : List UInt8) : Option (Names × List UInt8) :=
  match sect, cut text with
  | some s, some k =>
    if k ≠ [] ∧ k.head? ≠ some (byte ';') then some (⟨s, k⟩, text.drop (k.length + 1)) else none
  | _, _ => none

/-- The entries of the tokens, which begin in the section `sect`. -/
def tableOf : Option (List UInt8) → List Token → Table
  | _, [] => []
  | _, .header name :: ts => tableOf (some name) ts
  | sect, .line text _ :: ts => (entryOf sect text).toList ++ tableOf sect ts

/-- The section behind the tokens. -/
def sectAfter : Option (List UInt8) → List Token → Option (List UInt8)
  | sect, [] => sect
  | _, .header name :: ts => sectAfter (some name) ts
  | sect, .line _ _ :: ts => sectAfter sect ts

theorem tableOf_append (s : Option (List UInt8)) (us vs : List Token) :
    tableOf s (us ++ vs) = tableOf s us ++ tableOf (sectAfter s us) vs := by
  induction us generalizing s with
  | nil => rfl
  | cons t us ih =>
    cases t with
    | header name => exact ih (some name)
    | line text nl =>
      rw [List.cons_append, tableOf, ih, tableOf, sectAfter, List.append_assoc]

theorem sectAfter_append (s : Option (List UInt8)) (us vs : List Token) :
    sectAfter s (us ++ vs) = sectAfter (sectAfter s us) vs := by
  induction us generalizing s with
  | nil => rfl
  | cons t us ih =>
    cases t with
    | header name => exact ih (some name)
    | line text nl => exact ih s

section
variable {s : Option (List UInt8)} {text : List UInt8} {e : Names × List UInt8}

theorem entryOf_eq_some : entryOf s text = some e ↔ s = some e.1.sect ∧ cut text = some e.1.key ∧
    (e.1.key ≠ [] ∧ e.1.key.head? ≠ some (byte ';')) ∧ e.2 = text.drop (e.1.key.length + 1) := by
  obtain ⟨⟨s', k'⟩, v⟩ := e
  cases s with
  | none => simp [entryOf]
  | some s =>
    cases hc : cut text with
    | none => simp [entryOf, hc]
    | some k =>
      simp only [entryOf, hc, Option.ite_none_right_eq_some, Option.some.injEq, Prod.mk.injEq,
        Names.mk.injEq]
      constructor
      · rintro ⟨hk, ⟨rfl, rfl⟩, rfl⟩
        exact ⟨rfl, rfl, hk, rfl⟩
      · rintro ⟨rfl, rfl, hk, rfl⟩
        exact ⟨hk, ⟨rfl, rfl⟩, rfl⟩

/-- The line of an entry. -/
theorem entryOf_text (h : entryOf s text = some e) :
    byte '=' ∉ e.1.key ∧ text = e.1.key ++ byte '=' :: e.2 := by
  obtain ⟨-, hcut, -, hv⟩ := entryOf_eq_some.mp h
  obtain ⟨heq, v, rfl⟩ := cut_eq_some hcut
  refine ⟨heq, ?_⟩
  rw [hv, ← List.drop_drop, List.drop_left]
  rfl

theorem entryOf_entry (name : List UInt8) {k : List UInt8} (hk : k ≠ []) (hhead : k.head? ≠ some (byte ';'))
    (heq : byte '=' ∉ k) (v : List UInt8) :
    entryOf (some name) (k ++ byte '=' :: v) = some (⟨name, k⟩, v) := by
  refine entryOf_eq_some.mpr ⟨rfl, cut_eq heq v, ⟨hk, hhead⟩, ?_⟩
  rw [← List.drop_drop, List.drop_left]
  rfl

theorem entryOf_none (h : byte '=' ∉ text) : entryOf s text = none := by
  cases s with
  | none => rfl
  | some s => simp only [entryOf, cut_none h]

end

/-! ### The walk reads the table -/

/-- The text begins neither with white space nor like a header. -/
def Flush (text : List UInt8) : Prop := ∀ b, text.head? = some b → isSpace b = false ∧ b ≠ byte '['

theorem flush_nil : Flush [] := fun _ h => nomatch h

theorem Flush.takeWhile {text : List UInt8} (h : Flush text) : text.takeWhile isSpace = [] := by
  cases text with
  | nil => rfl
  | cons b text => simp [(h b rfl).1]

def Token.Trim : Token → Prop
  | .header _ => True
  | .line text _ => Flush text

/-- The section passes. -/
def Passes (sect : List UInt8) (s : Option (List UInt8)) : Prop := ∃ name, s = some name ∧ name <+: sect

section
variable {sect key text : List UInt8} {s : Option (List UInt8)} {w w' : Walk} {f : Spans}
  {ts : List Token}

variable (key) in
/-- What a line that is flush does. -/
theorem readLine_table (ht : Flush text) (hs : InSection w ↔ Passes sect s)
    (len : ℕ) :
    match w.readLine key text len with
    | .ok w' => firstBelow (entryOf s text).toList ⟨sect, key⟩ = none ∧
        (InSection w' ↔ Passes sect s) ∧ w'.pos = w.pos + len
    | .error f => ∃ e, entryOf s text = some e ∧ e.1 ≤ ⟨sect, key⟩ ∧
        f.valueS = (w.pos + e.1.key.length + 1 : ℕ) ∧ f.valueE = (w.pos + text.length : ℕ) := by
  rcases Classical.em (InSection w ∧ matchKey key text ≠ none) with ⟨hin, hm⟩ | hno
  · obtain ⟨k, hk⟩ := Option.ne_none_iff_exists'.mp hm
    obtain ⟨f, hf, hvalue⟩ := readLine_entry ht.takeWhile hin hk len
    obtain ⟨t, hcut, ⟨hne, hhead, hpre⟩, rfl⟩ := matchKey_eq_some.mp hk
    obtain ⟨name, rfl, hname⟩ := hs.mp hin
    rw [hf]
    exact ⟨(⟨name, t⟩, text.drop (t.length + 1)), entryOf_eq_some.mpr ⟨rfl, hcut, ⟨hne, hhead⟩, rfl⟩,
      ⟨hname, hpre⟩, hvalue⟩
  · have hor : w.place = .outside ∨ matchKey key text = none := by
      rcases not_and_or.mp hno with h | h
      · exact Or.inl (not_not.mp h)
      · exact Or.inr (not_not.mp h)
    obtain ⟨w', hw, hplace, hpos⟩ := readLine_other key w ht.takeWhile hor len
    rw [hw]
    refine ⟨firstBelow_eq_none.mpr ?_, (not_congr hplace).trans hs, hpos⟩
    intro e he hle
    obtain ⟨hsect, hcut, ⟨hne, hhead⟩, -⟩ := entryOf_eq_some.mp (Option.mem_toList.mp he)
    exact hno ⟨hs.mpr ⟨_, hsect, hle.1⟩,
      Option.ne_none_iff_exists'.mpr ⟨_, matchKey_eq_some.mpr ⟨_, hcut, ⟨hne, hhead, hle.2⟩, rfl⟩⟩⟩

/-- Run lemma, by induction on the tokens: a walk that goes on has read nothing. -/
theorem run_table (hts : ∀ t ∈ ts, t.Trim) (hs : InSection w ↔ Passes sect s)
    (h : run (step sect key) w ts = .ok w') : firstBelow (tableOf s ts) ⟨sect, key⟩ = none ∧
      (InSection w' ↔ Passes sect (sectAfter s ts)) ∧ w'.pos = w.pos + (bytesOf ts).length := by
  induction ts generalizing w s with
  | nil =>
    obtain rfl := Except.ok.inj h
    exact ⟨rfl, hs, rfl⟩
  | cons t ts ih =>
    obtain ⟨u, hu, hrest⟩ := run_cons_ok.mp h
    have hts' : ∀ t ∈ ts, t.Trim := fun t ht => hts t (List.mem_cons_of_mem _ ht)
    have hbytes : (bytesOf (t :: ts)).length = t.bytes.length + (bytesOf ts).length := by
      rw [bytesOf, List.flatMap_cons, List.length_append]
      rfl
    cases t with
    | header name =>
      obtain rfl : w.readHeader sect name (name.length + 2) = u := Except.ok.inj hu
      have hread : (InSection (w.readHeader sect name (name.length + 2)) ↔
          Passes sect (some name)) ∧
          (w.readHeader sect name (name.length + 2)).pos = w.pos + (name.length + 2) := by
        rcases Classical.em (name <+: sect) with hpre | hpre
        · rw [readHeader_fresh hpre]
          exact ⟨iff_of_true (by simp [InSection]) ⟨name, rfl, hpre⟩, rfl⟩
        · rw [readHeader_outside hpre]
          refine ⟨iff_of_false (by simp [InSection]) ?_, rfl⟩
          rintro ⟨n, hn, hp⟩
          exact hpre (Option.some.inj hn ▸ hp)
      obtain ⟨hnone, hin, hpos⟩ := ih hts' hread.1 hrest
      refine ⟨hnone, hin, ?_⟩
      rw [hpos, hread.2, hbytes, Token.bytes]
      simp only [List.length_cons, List.length_append, List.length_nil]
      omega
    | line text nl =>
      have hline := readLine_table key (hts _ List.mem_cons_self) hs (text.length + 1)
      have hread : w.readLine key text (text.length + 1) = .ok u := hu
      rw [hread] at hline
      obtain ⟨hfirst, hin', hpos'⟩ := hline
      obtain ⟨hnone, hin, hpos⟩ := ih hts' hin' hrest
      refine ⟨?_, hin, ?_⟩
      · rw [tableOf, firstBelow_append, hfirst, hnone]
        rfl
      · rw [hpos, hpos', hbytes, Token.bytes, List.length_append, List.length_singleton,
          Nat.add_assoc]

/-- The start of a walk. -/
theorem outside_start : InSection {} ↔ Passes sect none :=
  iff_of_false (fun h => h rfl) fun ⟨_, h, _⟩ => nomatch h

/-- A walk that ends with an entry, at that entry. -/
theorem run_entry_table (hts : ∀ t ∈ ts, t.Trim) (h : run (step sect key) {} ts = .error f) :
    ∃ us v text nl vs e, ts = us ++ .line text nl :: vs ∧ run (step sect key) {} us = .ok v ∧
      v.readLine key text (text.length + 1) = .error f ∧
      firstBelow (tableOf none us) ⟨sect, key⟩ = none ∧
      entryOf (sectAfter none us) text = some e ∧ e.1 ≤ ⟨sect, key⟩ ∧
      f.valueS = ((bytesOf us).length + e.1.key.length + 1 : ℕ) ∧
      f.valueE = ((bytesOf us).length + text.length : ℕ) := by
  obtain ⟨us, t, vs, v, rfl, hus, hstep⟩ := run_eq_error h
  have htrim : ∀ t ∈ us, t.Trim := fun t ht => hts t (List.mem_append_left _ ht)
  obtain ⟨hnone, hin, hpos⟩ := run_table htrim outside_start hus
  have hpos' : v.pos = (bytesOf us).length := hpos.trans (Nat.zero_add _)
  cases t with
  | header name => cases hstep
  | line text nl =>
    have hread : v.readLine key text (text.length + 1) = .error f := hstep
    have ht : Flush text := hts (.line text nl) (by simp)
    have hline := readLine_table key ht hin (text.length + 1)
    rw [hread] at hline
    obtain ⟨e, he, hle, hvs, hve⟩ := hline
    rw [hpos'] at hvs hve
    exact ⟨us, v, text, nl, vs, e, rfl, hus, hread, hnone, he, hle, hvs, hve⟩

end

/-! ### Documents -/

/-- The tail as a line that ends. A header without its `]` has no line. -/
def Tail.lines : Tail → List Token
  | .line text => [.line text (byte '\n')]
  | .opened _ => []

def Document.lines (d : Document) : List Token := d.tokens ++ d.tail.lines

def Document.table (d : Document) : Table := tableOf none d.lines

section
variable {sect key text : List UInt8} {w : Walk} {f : Spans} {d : Document}

/-- An entry does not depend on how its line ends. -/
theorem readLine_error_iff (n m : ℕ) :
    w.readLine key text n = .error f ↔ w.readLine key text m = .error f := by
  unfold Walk.readLine
  split
  · simp
  split
  · simp
  · cases matchKey key (text.drop (w.place.skipped text)) <;> simp

variable (sect key d) in
/-- The look-up is the walk over the lines. -/
theorem lookUp_lines : match run (step sect key) {} d.lines with
    | .ok _ => (d.lookUp sect key).1 = false
    | .error f => d.lookUp sect key = (true, f) := by
  rw [Document.lines, run_append, Document.lookUp]
  cases hrun : run (step sect key) {} d.tokens with
  | error f => rfl
  | ok w =>
    simp only [bind, Except.bind]
    cases htail : d.tail with
    | opened name => rfl
    | line text =>
      rw [Tail.lines, run_cons, readTail]
      have hstep : step sect key w (.line text (byte '\n')) =
          w.readLine key text (text.length + 1) := rfl
      cases hread : w.readLine key text (text.length + 1) with
      | error f =>
        rw [hstep, hread, (readLine_error_iff _ _).mp hread]
        rfl
      | ok v =>
        rw [hstep, hread]
        cases hread' : w.readLine key text text.length with
        | error f => rw [(readLine_error_iff _ _).mp hread'] at hread; cases hread
        | ok v' => rfl

theorem bytesOf_append (us vs : List Token) : bytesOf (us ++ vs) = bytesOf us ++ bytesOf vs :=
  List.flatMap_append

theorem Document.bytesOf_lines {t : List UInt8} (h : d.tail = .line t) :
    bytesOf d.lines = d.bytes ++ [byte '\n'] := by
  simp [Document.lines, Document.bytes, h, Tail.lines, Tail.bytes, bytesOf, Token.bytes]

/-- The text around a line. -/
theorem Document.bytes_of_lines {us vs : List Token} {nl : UInt8}
    (h : d.lines = us ++ .line text nl :: vs) :
    ∃ rest, d.bytes = bytesOf us ++ (text ++ rest) := by
  have hbytes : bytesOf d.lines = bytesOf us ++ (text ++ nl :: bytesOf vs) := by
    rw [h, bytesOf_append]
    simp [bytesOf, Token.bytes]
  cases htail : d.tail with
  | opened name =>
    have hlines : d.lines = d.tokens := by simp [Document.lines, htail, Tail.lines]
    rw [hlines] at hbytes
    refine ⟨nl :: bytesOf vs ++ d.tail.bytes, ?_⟩
    rw [Document.bytes, hbytes]
    simp only [List.append_assoc]
  | line t =>
    refine ⟨(nl :: bytesOf vs).dropLast, ?_⟩
    have hlast : (d.bytes ++ [byte '\n']).dropLast = d.bytes := List.dropLast_concat
    rw [← hlast, ← d.bytesOf_lines htail, hbytes, ← List.append_assoc, ← List.append_assoc,
      List.dropLast_append_of_ne_nil (by simp)]

end

/-! ### Reading -/

/-- What `read_profile_string` makes of a table. -/
def readTable (m : Table) (sect key value : List UInt8) (defaultValue : Option (List UInt8)) :
    Except Fault (Bool × List UInt8) :=
  if sect = [] ∨ key = [] ∨ value = [] then .error .assertion
  else match firstBelow m ⟨sect, key⟩ with
    | none => .ok (false, match defaultValue with
        | some d => strncpy value d
        | none => value)
    | some v =>
      let s := v.take (value.length - 1)
      .ok (true, s ++ List.replicate (value.length - s.length) 0)

/-- The file is read like the table. -/
def HasTable (file : File) (m : Table) : Prop := ∀ sect key value defaultValue,
  readProfileString sect key value defaultValue file = readTable m sect key value defaultValue

theorem hasTable_none : HasTable none [] := by
  intro sect key value defaultValue
  unfold readProfileString readTable
  split
  · rfl
  · rfl

/-- With the zero bytes behind it, `parse_file` is the walk over a document. -/
theorem Document.Valid.parseFile {sect key : List UInt8} {d : Document} (hd : d.Valid) (hs : sect ≠ [])
    (hk : key ≠ []) (hlen : d.bytes.length < maxFileSize)
    (htail : d.tail ≠ .line [] → d.bytes.length + 1 < maxFileSize) :
    parseFile sect key (filled d.bytes) = .ok (d.lookUp sect key) := by
  rw [filled_end hlen]
  refine parseFile_document hs hk hd fun hopen => ?_
  have hroom := htail hopen
  obtain ⟨n, hn⟩ : ∃ n, maxFileSize - d.bytes.length - 1 = n + 1 :=
    ⟨maxFileSize - d.bytes.length - 2, by omega⟩
  exact ⟨List.replicate n 0, by rw [hn, List.replicate_succ]⟩

/-- What is copied of a value that stands in the buffer behind `a`. -/
theorem take_value {a v b : List UInt8} {vs ve : ℤ} (hvs : vs = a.length)
    (hve : ve = (a.length + v.length : ℕ)) (rest : List UInt8) {size : ℕ} (hsize : 0 < size) :
    (((a ++ (v ++ b)) ++ rest).drop vs.toNat).take (min (ve - vs) ((size : ℤ) - 1)).toNat =
      v.take (size - 1) := by
  have hcount : (min (ve - vs) ((size : ℤ) - 1)).toNat = min v.length (size - 1) := by omega
  rw [hcount, hvs, Int.toNat_natCast, List.append_assoc, List.drop_left, List.append_assoc,
    List.take_append_of_le_length (Nat.min_le_left _ _), Nat.min_comm, ← List.take_eq_take_min]

/-- A document is read like its table. -/
theorem Document.hasTable {d : Document} (hd : d.Valid) (htrim : ∀ t ∈ d.lines, t.Trim)
    {bytes : List UInt8} (hload : bytes.takeWhile (· ≠ eof) = d.bytes)
    (hlen : d.bytes.length < maxFileSize)
    (htail : d.tail ≠ .line [] → d.bytes.length + 1 < maxFileSize) :
    HasTable (some bytes) d.table := by
  intro sect key value defaultValue
  unfold readProfileString readTable
  split
  · rfl
  rename_i hne
  rw [not_or, not_or] at hne
  obtain ⟨hs, hk, hv⟩ := hne
  rw [loadIniFile_eq (by rw [hload]; exact hlen), hload]
  simp only [bind, Except.bind, hd.parseFile hs hk hlen htail, pure, Except.pure]
  have hlook := lookUp_lines sect key d
  cases hrun : run (step sect key) {} d.lines with
  | ok w =>
    rw [hrun] at hlook
    obtain ⟨hnone, -⟩ := run_table htrim outside_start hrun
    have hfirst : firstBelow d.table ⟨sect, key⟩ = none := hnone
    simp only [hlook, hfirst]
    rfl
  | error f =>
    rw [hrun] at hlook
    obtain ⟨us, v, text, nl, vs, e, hlines, -, -, hnone, he, hle, hvs, hve⟩ :=
      run_entry_table htrim hrun
    have hfirst : firstBelow d.table ⟨sect, key⟩ = some e.2 := by
      rw [Document.table, hlines, tableOf_append, tableOf, he]
      exact firstBelow_here hnone hle e.2 _
    obtain ⟨-, htext⟩ := entryOf_text he
    obtain ⟨rest, hbytes⟩ := d.bytes_of_lines hlines
    have hsplit : d.bytes = bytesOf us ++ (e.1.key ++ [byte '=']) ++ (e.2 ++ rest) := by
      rw [hbytes, htext]
      simp only [List.append_assoc, List.cons_append, List.nil_append]
    have hfront : (bytesOf us ++ (e.1.key ++ [byte '='])).length =
        (bytesOf us).length + e.1.key.length + 1 := by
      rw [List.length_append, List.length_append, List.length_singleton, Nat.add_assoc]
    have hstart : f.valueS = ((bytesOf us ++ (e.1.key ++ [byte '='])).length : ℕ) := by
      rw [hfront, hvs]
    have hend : f.valueE =
        ((bytesOf us ++ (e.1.key ++ [byte '='])).length + e.2.length : ℕ) := by
      rw [hfront, hve, htext, List.length_append, List.length_cons]
      omega
    have htake := take_value (b := rest) hstart hend
      (List.replicate (maxFileSize - d.bytes.length) 0) (List.length_pos_iff.mpr hv)
    rw [← hsplit] at htake
    simp only [hlook, hfirst, if_true, filled, htake]

end AcqBoard.Ini
