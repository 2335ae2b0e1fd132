import AcqBoard.Ini.Entry
import AcqBoard.Ini.Storage
import Mathlib.Data.Bool.AllAny

/-! A profile string read back after it was written.

    `write_profile_string` puts a new section behind the text, a new key behind a header, or a new
    value between the old spans. `write_read_iff` says for which texts and strings the scanner then
    finds what was written. -/

namespace AcqBoard.Ini
open Schemes

/-- What is written. -/
structure Setting where
  sect : List UInt8
  key : List UInt8
  value : List UInt8
  sect_ne : sect ≠ []
  key_ne : key ≠ []
  sect_plain : ∀ b ∈ sect, newline b = false ∧ b ≠ 0 ∧ b ≠ byte ']'
  key_plain : ∀ b ∈ key, newline b = false ∧ b ≠ 0 ∧ b ≠ byte '='
  key_head : ∀ b, key.head? = some b → b ≠ byte ';' ∧ b ≠ byte '[' ∧ isSpace b = false
  value_plain : ∀ b ∈ value, newline b = false ∧ b ≠ 0 ∧ b ≠ eof

/-- The condition on the text: the key is there, or it can be put behind a header, or a new section
    behind the text. A header without its `]` spoils the text for the last two, and a byte that
    `load_ini_file` takes for the end of the file the key or the section. -/
def Document.Keeps (q : Setting) (d : Document) : Prop :=
  d.HasEntry q.sect q.key ∨ eof ∉ q.key ∧
    (Headed q.sect d.tokens ∧ (∀ name, d.tail = .opened name → ¬ name <+: q.sect) ∨
      ¬ Headed q.sect d.tokens ∧ eof ∉ q.sect ∧ ∀ name, d.tail ≠ .opened name)

/-! ### What is read back -/

/-- The law: reading the key with this buffer gives exactly the value. -/
def Yields (q : Setting) (value : List UInt8) (defaultValue : Option (List UInt8)) (file : File) :
    Prop :=
  ∃ out, readProfileString q.sect q.key value defaultValue file = .ok (true, out) ∧
    strOf out = q.value

section
variable {q : Setting} {value : List UInt8} {defaultValue : Option (List UInt8)} {ts : List Token}
  {w : Walk} {text : List UInt8}

theorem Setting.sect_zero (q : Setting) : 0 ∉ q.sect := fun h => (q.sect_plain 0 h).2.1 rfl

theorem Setting.key_zero (q : Setting) : 0 ∉ q.key := fun h => (q.key_plain 0 h).2.1 rfl

theorem Setting.value_zero (q : Setting) : 0 ∉ q.value := fun h => (q.value_plain 0 h).2.1 rfl

theorem Setting.value_eof (q : Setting) : eof ∉ q.value := fun h => (q.value_plain _ h).2.2 rfl

theorem Setting.key_eq (q : Setting) : byte '=' ∉ q.key := fun h => (q.key_plain _ h).2.2 rfl

/-- What stands behind the first `=` of the line that the scanner comes to is read. -/
theorem read_of_site {sect key v a rest bytes : List UInt8} (hsect : sect ≠ []) (hkey : key ≠ [])
    (hs : Site sect key ts w text a.length)
    (htext : text.drop (w.place.skipped text) = a ++ byte '=' :: v)
    (hload : bytes.takeWhile (· ≠ eof) = bytesOf ts ++ (text ++ rest))
    (hrest : rest = [] ∨ ∃ c s, rest = c :: s ∧ newline c = true)
    (hlen : (bytesOf ts ++ (text ++ rest)).length < maxFileSize) (hz : 0 ∉ v)
    (hv : v.length < value.length) :
    ∃ out, readProfileString sect key value defaultValue (some bytes) = .ok (true, out) ∧
      strOf out = v := by
  have hsplit : text = text.take (w.place.skipped text) ++ (a ++ byte '=' :: v) := by
    rw [← htext, List.take_append_drop]
  have hbytes : bytesOf ts ++ (text ++ rest) =
      bytesOf ts ++ (text.take (w.place.skipped text) ++ (a ++ [byte '='])) ++ (v ++ rest) := by
    conv_lhs => rw [hsplit]
    simp only [List.append_assoc, List.cons_append, List.nil_append]
  have htake : (text.take (w.place.skipped text)).length = w.place.skipped text := by
    rw [List.length_take, Nat.min_eq_left]
    by_contra hlt
    rw [List.drop_eq_nil_of_le (by omega)] at htext
    simp at htext
  have hlentext : text.length = w.place.skipped text + (a.length + (v.length + 1)) := by
    conv_lhs => rw [hsplit]
    simp only [List.length_append, List.length_cons, htake]
  have hpos := (at_of_run hs.tokens hs.run).pos
  have hp : parseFile sect key (filled (bytesOf ts ++ (text ++ rest))) =
      .ok (true, w.entry text a.length) := by
    rw [filled_end hlen]
    rcases hrest with rfl | ⟨c, s, rfl, hc⟩
    · rw [List.append_nil, List.append_assoc]
      exact hs.parseFile hsect hkey (Or.inr rfl) _
    · rw [List.append_assoc, List.append_assoc]
      exact hs.parseFile hsect hkey (Or.inl hc) _
  rw [hbytes] at hload hlen hp
  refine readProfileString_found hsect hkey hload hlen hp ?_ ?_ hz hv
  · simp only [Walk.entry, List.length_append, htake, List.length_singleton, hpos]
    omega
  · simp only [Walk.entry, List.length_append, htake, List.length_singleton, hpos, hlentext]
    omega

/-- A line with the value behind its first `=` is read back. -/
theorem yields_of_site {a rest : List UInt8} {bytes : List UInt8}
    (hs : Site q.sect q.key ts w text a.length)
    (htext : text.drop (w.place.skipped text) = a ++ byte '=' :: q.value)
    (hload : bytes.takeWhile (· ≠ eof) = bytesOf ts ++ (text ++ rest))
    (hrest : rest = [] ∨ ∃ c s, rest = c :: s ∧ newline c = true)
    (hlen : (bytesOf ts ++ (text ++ rest)).length < maxFileSize)
    (hv : q.value.length < value.length) : Yields q value defaultValue (some bytes) :=
  read_of_site q.sect_ne q.key_ne hs htext hload hrest hlen q.value_zero hv

/-- Where the loaded text has no entry, nothing is read. -/
theorem not_yields {d : Document} {bytes : List UInt8} (hd : d.Valid)
    (h : (d.lookUp q.sect q.key).1 = false) (hload : bytes.takeWhile (· ≠ eof) = d.bytes)
    (hlen : d.bytes.length + 1 < maxFileSize) : ¬ Yields q value defaultValue (some bytes) := by
  rintro ⟨out, hout, -⟩
  have hp : parseFile q.sect q.key (d.bytes ++
      0 :: 0 :: List.replicate (maxFileSize - d.bytes.length - 2) 0) = .ok (d.lookUp q.sect q.key) :=
    parseFile_document q.sect_ne q.key_ne hd fun _ => ⟨_, rfl⟩
  have hans : d.lookUp q.sect q.key = (false, (d.lookUp q.sect q.key).2) := by rw [← h]
  rw [← filled_end_two hlen, hans] at hp
  exact readProfileString_missing hload (by omega) hp hout

theorem skipped_append {sp s : List UInt8} {b : UInt8} (hsp : ∀ b ∈ sp, isSpace b = true)
    (hb : isSpace b = false) : Place.fresh.skipped (sp ++ b :: s) = sp.length := by
  rw [Place.skipped, if_pos rfl, List.takeWhile_append_of_pos hsp]
  simp [hb]

/-- An entry for the key itself. -/
theorem Setting.matchKey (q : Setting) (v : List UInt8) :
    matchKey q.key (q.key ++ byte '=' :: v) = some q.key.length := by
  obtain ⟨b, s, hb⟩ := List.exists_cons_of_ne_nil q.key_ne
  have hhead : q.key.head? ≠ some (byte ';') := fun h => (q.key_head _ h).1 rfl
  exact matchKey_eq_some.mpr ⟨q.key, cut_eq q.key_eq v, ⟨q.key_ne, hhead, List.prefix_rfl⟩, rfl⟩

/-- A line behind a seat, where it starts with the key. -/
theorem plain_new {sp s : List UInt8} (start : Bool)
    (hsp : ∀ b ∈ sp, isSpace b = true ∧ newline b = false)
    (hs : ∀ b ∈ s, newline b = false ∧ b ≠ 0) (hhead : s.head? ≠ some (byte '[')) :
    Plain start (sp ++ s) := by
  refine ⟨?_, fun _ => ?_⟩
  · intro b hb
    rcases List.mem_append.mp hb with hb | hb
    · exact ⟨(hsp b hb).2, ne_of_space (hsp b hb).1 rfl⟩
    · exact hs b hb
  · cases sp with
    | nil => exact hhead
    | cons b sp =>
      have hne : b ≠ byte '[' := ne_of_space (hsp b List.mem_cons_self).1 rfl
      simpa using hne

theorem Setting.head_ne (q : Setting) (s : List UInt8) :
    (q.key ++ s).head? ≠ some (byte '[') := by
  obtain ⟨b, k, hb⟩ := List.exists_cons_of_ne_nil q.key_ne
  have hne := (q.key_head b (by rw [hb]; rfl)).2.1
  simpa [hb] using hne

theorem Setting.entry_plain (q : Setting) :
    ∀ b ∈ q.key ++ byte '=' :: q.value, newline b = false ∧ b ≠ 0 := by
  intro b hb
  rcases List.mem_append.mp hb with hb | hb
  · exact ⟨(q.key_plain b hb).1, (q.key_plain b hb).2.1⟩
  rcases List.mem_cons.mp hb with rfl | hb
  · exact ⟨rfl, by decide⟩
  · exact ⟨(q.value_plain b hb).1, (q.value_plain b hb).2.1⟩

/-- The new line behind a seat. -/
theorem site_new {sp : List UInt8} (hts : Tokens true ts)
    (hrun : run (step q.sect q.key) {} ts = .ok w) (hw : w.place = .fresh)
    (hsp : ∀ b ∈ sp, isSpace b = true ∧ newline b = false) :
    Site q.sect q.key ts w (sp ++ (q.key ++ byte '=' :: q.value)) q.key.length ∧
      (sp ++ (q.key ++ byte '=' :: q.value)).drop
        (w.place.skipped (sp ++ (q.key ++ byte '=' :: q.value))) =
          q.key ++ byte '=' :: q.value := by
  obtain ⟨b, k, hb⟩ := List.exists_cons_of_ne_nil q.key_ne
  have hspace := (q.key_head b (by rw [hb]; rfl)).2.2
  have hskip : w.place.skipped (sp ++ (q.key ++ byte '=' :: q.value)) = sp.length := by
    rw [hw, hb]
    exact skipped_append (fun b hb => (hsp b hb).1) hspace
  have hdrop : (sp ++ (q.key ++ byte '=' :: q.value)).drop
      (w.place.skipped (sp ++ (q.key ++ byte '=' :: q.value))) =
        q.key ++ byte '=' :: q.value := by
    rw [hskip, List.drop_left]
  refine ⟨⟨hts, hrun, plain_new _ hsp q.entry_plain (q.head_ne _), by rw [hw]; simp, ?_⟩, hdrop⟩
  rw [hdrop]
  exact q.matchKey q.value

/-- The line of an entry with another value. -/
theorem Site.replace {k : ℕ} (hs : Site q.sect q.key ts w text k) : ∃ sp t v,
    text = sp ++ (t ++ byte '=' :: v) ∧ k = t.length ∧ w.place.skipped text = sp.length ∧
      Site q.sect q.key ts w (sp ++ (t ++ byte '=' :: q.value)) t.length ∧
      w.place.skipped (sp ++ (t ++ byte '=' :: q.value)) = sp.length := by
  obtain ⟨t, hcut, htaken, rfl⟩ := matchKey_eq_some.mp hs.entry
  obtain ⟨heq, v, hdrop⟩ := cut_eq_some hcut
  obtain ⟨b, u, hbu⟩ := List.exists_cons_of_ne_nil htaken.1
  have hsplit : text = text.take (w.place.skipped text) ++ (t ++ byte '=' :: v) := by
    rw [← hdrop, List.take_append_drop]
  have hlen : (text.take (w.place.skipped text)).length = w.place.skipped text := by
    rw [List.length_take, Nat.min_eq_left]
    by_contra hlt
    rw [List.drop_eq_nil_of_le (by omega)] at hdrop
    simp at hdrop
  have hskip : w.place.skipped (text.take (w.place.skipped text) ++ (t ++ byte '=' :: q.value)) =
      (text.take (w.place.skipped text)).length := by
    cases hp : w.place with
    | outside => exact (hs.place hp).elim
    | inside => rfl
    | fresh =>
      rw [hp, drop_skipped] at hdrop
      have hhead := List.head_dropWhile_not isSpace (l := text) (by simp [hdrop])
      have hb : isSpace b = false := by simpa [hdrop, hbu] using hhead
      rw [take_skipped, hbu]
      exact skipped_append (fun c hc => List.mem_takeWhile_imp hc) hb
  refine ⟨_, t, v, hsplit, rfl, hlen.symm, ⟨hs.tokens, hs.run, ⟨?_, ?_⟩, hs.place, ?_⟩, hskip⟩
  · intro c hc
    rcases List.mem_append.mp hc with hc | hc
    · exact hs.plain.inner c (List.mem_of_mem_take hc)
    rcases List.mem_append.mp hc with hc | hc
    · exact hs.plain.inner c (by rw [hsplit]; simp [hc])
    rcases List.mem_cons.mp hc with rfl | hc
    · exact ⟨rfl, by decide⟩
    · exact ⟨(q.value_plain c hc).1, (q.value_plain c hc).2.1⟩
  · intro hstart
    have hhead := hs.plain.head hstart
    rw [hsplit, hbu, ← List.append_assoc, List.head?_append] at hhead
    rw [hbu, ← List.append_assoc, List.head?_append]
    simpa using hhead
  · rw [hskip, List.drop_left]
    exact matchKey_eq_some.mpr ⟨t, cut_eq heq q.value, htaken, rfl⟩

/-- A line without an `=` at the end of the text is no entry. -/
theorem not_yields_cut {bytes s : List UInt8} (hts : Tokens true ts)
    (hrun : run (step q.sect q.key) {} ts = .ok w) (hplain : Plain (startAfter true ts) s)
    (hs : byte '=' ∉ s) (hload : bytes.takeWhile (· ≠ eof) = bytesOf ts ++ s)
    (hlen : (bytesOf ts ++ s).length + 1 < maxFileSize) :
    ¬ Yields q value defaultValue (some bytes) := by
  have hnone : ∀ n, Ini.matchKey q.key (s.drop n) = none := by
    intro n
    have hmem : byte '=' ∉ s.drop n := fun h => hs (List.mem_of_mem_drop h)
    rw [Ini.matchKey, cut_none hmem]
  refine not_yields (d := ⟨ts, .line s⟩) ⟨hts, hplain⟩ ?_ hload hlen
  rw [Document.lookUp]
  dsimp only
  rw [hrun]
  cases hread : w.readLine q.key s s.length with
  | ok v => simp only [bind, Except.bind, readTail, hread, answer]
  | error f =>
    obtain ⟨-, k, hk, -⟩ := readLine_eq_error hread
    rw [hnone] at hk
    cases hk

/-- What is left of the key in front of a byte that ends the file. -/
theorem cut_key {key : List UInt8} (start : Bool)
    (hplain : ∀ b ∈ key, newline b = false ∧ b ≠ 0 ∧ b ≠ byte '=')
    (hhead : ∀ b, key.head? = some b → b ≠ byte '[' ∧ isSpace b = false) :
    Plain start (key.takeWhile (· ≠ eof)) ∧ byte '=' ∉ key.takeWhile (· ≠ eof) ∧
      ∀ b, (key.takeWhile (· ≠ eof)).head? = some b → isSpace b = false ∧ b ≠ byte '[' := by
  have hsub : ∀ b ∈ key.takeWhile (· ≠ eof), b ∈ key := fun b hb => List.takeWhile_subset _ hb
  have hcut : ∀ b, (key.takeWhile (· ≠ eof)).head? = some b → isSpace b = false ∧ b ≠ byte '[' := by
    intro b hb
    obtain ⟨t, ht⟩ := List.head?_eq_some_iff.mp hb
    obtain ⟨r, hr⟩ := List.takeWhile_prefix (l := key) (· ≠ eof)
    rw [ht] at hr
    exact (hhead b (by rw [← hr]; rfl)).symm
  refine ⟨⟨fun b hb => ?_, fun _ h => (hcut _ h).2 rfl⟩, fun h => (hplain _ (hsub _ h)).2.2 rfl, hcut⟩
  exact ⟨(hplain b (hsub b hb)).1, (hplain b (hsub b hb)).2.1⟩

theorem Setting.key_cut (q : Setting) (start : Bool) :
    Plain start (q.key.takeWhile (· ≠ eof)) ∧ byte '=' ∉ q.key.takeWhile (· ≠ eof) := by
  obtain ⟨hplain, hnone, -⟩ := cut_key start q.key_plain fun b hb => (q.key_head b hb).2
  exact ⟨hplain, hnone⟩

/-- The key behind a seat is read back, unless a byte of it ends the file. -/
theorem yields_new {sp rest bytes : List UInt8} (hts : Tokens true ts)
    (hrun : run (step q.sect q.key) {} ts = .ok w) (hw : w.place = .fresh)
    (hsp : ∀ b ∈ sp, isSpace b = true ∧ newline b = false) (heof : eof ∉ bytesOf ts ++ sp)
    (hbytes : bytes = bytesOf ts ++ sp ++ (newKey q.key q.value ++ rest))
    (hlen : bytes.length < maxFileSize)
    (hfits : (bytesOf ts ++ sp).length + q.key.length < maxFileSize)
    (hv : q.value.length < value.length) :
    Yields q value defaultValue (some bytes) ↔ eof ∉ q.key := by
  have hcut : bytes.takeWhile (· ≠ eof) =
      bytesOf ts ++ sp ++ (newKey q.key q.value ++ rest).takeWhile (· ≠ eof) := by
    rw [hbytes, takeWhile_eof heof]
  rcases Classical.em (eof ∈ q.key) with hkey | hkey
  · refine iff_of_false ?_ (not_not.mpr hkey)
    obtain ⟨htake, hshort⟩ := takeWhile_eof_mem hkey (byte '=' :: (q.value ++ [byte '\n']) ++ rest)
    have hload : bytes.takeWhile (· ≠ eof) =
        bytesOf ts ++ (sp ++ q.key.takeWhile (· ≠ eof)) := by
      have hnew : newKey q.key q.value ++ rest =
          q.key ++ (byte '=' :: (q.value ++ [byte '\n']) ++ rest) := List.append_assoc ..
      rw [hcut, hnew, htake, List.append_assoc]
    obtain ⟨hplain, hnone⟩ := q.key_cut true
    have heq : byte '=' ∉ sp ++ q.key.takeWhile (· ≠ eof) := by
      intro h
      rcases List.mem_append.mp h with h | h
      · exact ne_of_space (hsp _ h).1 (by rfl) rfl
      · exact hnone h
    refine not_yields_cut hts hrun (plain_new _ hsp hplain.inner (hplain.head rfl)) heq hload ?_
    simp only [List.length_append] at hfits ⊢
    omega
  · refine iff_of_true ?_ hkey
    obtain ⟨hsite, hdrop⟩ := site_new hts hrun hw hsp
    have hnew : eof ∉ newKey q.key q.value :=
      not_mem_newKey eof_ne_equals eof_ne_lf hkey q.value_eof
    have hload : bytes.takeWhile (· ≠ eof) = bytesOf ts ++
        (sp ++ (q.key ++ byte '=' :: q.value) ++ byte '\n' :: rest.takeWhile (· ≠ eof)) := by
      rw [hcut, takeWhile_eof hnew, newKey]
      simp only [List.append_assoc, List.cons_append, List.nil_append]
    have hle : (bytes.takeWhile (· ≠ eof)).length ≤ bytes.length :=
      (List.takeWhile_sublist _).length_le
    refine yields_of_site hsite hdrop hload (Or.inr ⟨_, _, rfl, rfl⟩) ?_ hv
    rw [← hload]
    omega

theorem Setting.sect_named (q : Setting) : Named q.sect := fun c hc =>
  ⟨(q.sect_plain c hc).2.2, (q.sect_plain c hc).2.1⟩

theorem named_of_subset {s t : List UInt8} (h : Named t) (hs : ∀ b ∈ s, b ∈ t) : Named s :=
  fun c hc => h c (hs c hc)

/-- A header that the end of the loaded text cuts off has no entry. -/
theorem not_yields_opened {bytes name : List UInt8} (hts : Tokens true ts)
    (hstart : startAfter true ts = true) (hrun : run (step q.sect q.key) {} ts = .ok w)
    (hn : Named name) (hload : bytes.takeWhile (· ≠ eof) = bytesOf ts ++ byte '[' :: name)
    (hlen : (bytesOf ts ++ byte '[' :: name).length + 1 < maxFileSize) :
    ¬ Yields q value defaultValue (some bytes) := by
  refine not_yields (d := ⟨ts, .opened name⟩) ⟨hts, hstart, hn⟩ ?_ hload hlen
  rw [Document.lookUp]
  dsimp only
  rw [hrun]
  rfl

/-- A new section at the start of a line. -/
theorem yields_newSection {bytes : List UInt8} (hts : Tokens true ts)
    (hstart : startAfter true ts = true) (hrun : run (step q.sect q.key) {} ts = .ok w)
    (heof : eof ∉ bytesOf ts) (hbytes : bytes = bytesOf ts ++ newSection q.sect q.key q.value)
    (hlen : bytes.length < maxFileSize) (hv : q.value.length < value.length) :
    Yields q value defaultValue (some bytes) ↔ eof ∉ q.key ∧ eof ∉ q.sect := by
  rcases Classical.em (eof ∈ q.sect) with hsect | hsect
  · refine iff_of_false ?_ fun h => h.2 hsect
    obtain ⟨htake, hshort⟩ := takeWhile_eof_mem hsect (byte ']' :: byte '\n' :: newKey q.key q.value)
    have hload : bytes.takeWhile (· ≠ eof) =
        bytesOf ts ++ byte '[' :: q.sect.takeWhile (· ≠ eof) := by
      rw [hbytes, takeWhile_eof heof, newSection, List.takeWhile_cons,
        if_pos (by simp [eof_ne_leftBarce.symm])]
      exact congrArg (bytesOf ts ++ byte '[' :: ·) htake
    refine not_yields_opened hts hstart hrun
      (named_of_subset q.sect_named fun b hb => List.takeWhile_subset _ hb) hload ?_
    rw [hbytes, newSection] at hlen
    simp only [List.length_append, List.length_cons] at hlen ⊢
    omega
  · rw [and_iff_left hsect]
    have hnl : Plain false [] := ⟨by simp, by simp⟩
    have htok : Tokens true (ts ++ [.header q.sect, .line [] (byte '\n')]) := by
      refine tokens_append.mpr ⟨hts, ?_⟩
      rw [hstart]
      exact ⟨⟨rfl, q.sect_named⟩, ⟨rfl, hnl⟩, trivial⟩
    obtain ⟨v, hrun', hfresh⟩ : ∃ v, run (step q.sect q.key) {}
        (ts ++ [.header q.sect, .line [] (byte '\n')]) = .ok v ∧ v.place = .fresh := by
      have hplace : (w.readHeader q.sect q.sect (q.sect.length + 2)).place = .fresh := by
        rw [readHeader_fresh List.prefix_rfl]
      refine ⟨_, run_append_ok.mpr ⟨w, hrun, run_cons_ok.mpr ⟨_, rfl, run_cons_ok.mpr
        ⟨_, readLine_blank hplace (by simp) 1, rfl⟩⟩⟩, hplace⟩
    have hold : bytesOf (ts ++ [.header q.sect, .line [] (byte '\n')]) =
        bytesOf ts ++ byte '[' :: (q.sect ++ [byte ']', byte '\n']) := by
      simp [bytesOf, Token.bytes]
    have hsplit : bytes = bytesOf (ts ++ [.header q.sect, .line [] (byte '\n')]) ++ [] ++
        (newKey q.key q.value ++ []) := by
      rw [hold, hbytes, newSection, newKey]
      simp only [List.append_assoc, List.cons_append, List.nil_append, List.append_nil]
    have heof' : eof ∉ bytesOf (ts ++ [.header q.sect, .line [] (byte '\n')]) ++ [] := by
      simp [hold, heof, hsect]
    refine yields_new htok hrun' hfresh (by simp) heof' hsplit hlen ?_ hv
    rw [hsplit, newKey] at hlen
    simp only [List.length_append, List.length_cons] at hlen ⊢
    omega

/-- A key that lies outside of the section is not read. -/
theorem not_yields_outside {bytes : List UInt8} (hts : Tokens true ts)
    (hrun : run (step q.sect q.key) {} ts = .ok w)
    (hout : w.place = .outside)
    (hload : bytes.takeWhile (· ≠ eof) =
      bytesOf ts ++ (newKey q.key q.value).takeWhile (· ≠ eof))
    (hlen : (bytesOf ts ++ newKey q.key q.value).length + 1 < maxFileSize) :
    ¬ Yields q value defaultValue (some bytes) := by
  rcases Classical.em (eof ∈ q.key) with hkey | hkey
  · obtain ⟨htake, hshort⟩ := takeWhile_eof_mem hkey (byte '=' :: (q.value ++ [byte '\n']))
    obtain ⟨hplain, hnone⟩ := q.key_cut _
    refine not_yields_cut hts hrun hplain hnone (hload.trans ?_) ?_
    · exact congrArg (bytesOf ts ++ ·) htake
    · rw [newKey] at hlen
      simp only [List.length_append, List.length_cons] at hlen ⊢
      omega
  · have hnew : eof ∉ newKey q.key q.value :=
      not_mem_newKey eof_ne_equals eof_ne_lf hkey q.value_eof
    have htok : Tokens true (ts ++ [.line (q.key ++ byte '=' :: q.value) (byte '\n')]) := by
      refine tokens_append.mpr ⟨hts, ⟨rfl, q.entry_plain, fun _ => q.head_ne _⟩, trivial⟩
    have hbytes : bytesOf (ts ++ [.line (q.key ++ byte '=' :: q.value) (byte '\n')]) =
        bytesOf ts ++ newKey q.key q.value := by
      rw [bytesOf_concat, Token.bytes, newKey, List.append_assoc, List.cons_append]
    have hdoc : (⟨ts ++ [.line (q.key ++ byte '=' :: q.value) (byte '\n')], .line []⟩ :
        Document).bytes = bytesOf ts ++ newKey q.key q.value := by
      rw [Document.bytes, hbytes, Tail.bytes, List.append_nil]
    have hstep : step q.sect q.key w (.line (q.key ++ byte '=' :: q.value) (byte '\n')) =
        .ok { w with pos := w.pos + ((q.key ++ byte '=' :: q.value).length + 1) } :=
      readLine_outside hout _ _
    obtain ⟨v, hrun', hout'⟩ : ∃ v, run (step q.sect q.key) {}
        (ts ++ [.line (q.key ++ byte '=' :: q.value) (byte '\n')]) = .ok v ∧ v.place = .outside := by
      refine ⟨_, run_append_ok.mpr ⟨w, hrun, run_cons_ok.mpr ⟨_, hstep, rfl⟩⟩, ?_⟩
      exact hout
    have hend : Plain (startAfter true
        (ts ++ [.line (q.key ++ byte '=' :: q.value) (byte '\n')])) [] := ⟨by simp, by simp⟩
    have hvalid : Document.Valid ⟨_, .line []⟩ := ⟨htok, hend⟩
    refine not_yields hvalid ?_ (hload.trans ?_) (by rw [hdoc]; exact hlen)
    · rw [Document.lookUp]
      dsimp only
      rw [hrun']
      exact congrArg (fun r => (answer r).1) (readLine_outside hout' [] 0)
    · rw [hdoc]
      have hall := takeWhile_eof hnew []
      rw [List.append_nil, List.takeWhile_nil, List.append_nil] at hall
      rw [hall]

/-- A new section behind a header without its `]`: the two make up one header that does not
    pass, since it has a LF in it. -/
theorem not_yields_merged {bytes name : List UInt8} (hts : Tokens true ts)
    (hstart : startAfter true ts = true) (hrun : run (step q.sect q.key) {} ts = .ok w)
    (hname : Named name) (heof : eof ∉ bytesOf ts ++ byte '[' :: name)
    (hbytes : bytes = bytesOf ts ++
      byte '[' :: (name ++ byte '\n' :: newSection q.sect q.key q.value))
    (hlen : bytes.length + 1 < maxFileSize) : ¬ Yields q value defaultValue (some bytes) := by
  have hlong : ∀ s, (∀ b ∈ s, b ∈ q.sect) → Named (name ++ byte '\n' :: byte '[' :: s) := by
    intro s hs c hc
    rcases List.mem_append.mp hc with hc | hc
    · exact hname c hc
    rcases List.mem_cons.mp hc with rfl | hc
    · decide
    rcases List.mem_cons.mp hc with rfl | hc
    · decide
    · exact q.sect_named c (hs c hc)
  have hopen : eof ∉ bytesOf ts ++ byte '[' :: (name ++ [byte '\n', byte '[']) := by
    simpa using heof
  have hsplit : bytes = bytesOf ts ++ byte '[' :: (name ++ [byte '\n', byte '[']) ++
      (q.sect ++ byte ']' :: byte '\n' :: newKey q.key q.value) := by
    rw [hbytes, newSection, newKey]
    simp only [List.append_assoc, List.cons_append, List.nil_append]
  have hlen' := hlen
  rw [hsplit] at hlen'
  rcases Classical.em (eof ∈ q.sect) with hsect | hsect
  · obtain ⟨htake, hshort⟩ := takeWhile_eof_mem hsect (byte ']' :: byte '\n' :: newKey q.key q.value)
    refine not_yields_opened hts hstart hrun
      (hlong (q.sect.takeWhile (· ≠ eof)) fun b hb => List.takeWhile_subset _ hb) ?_ ?_
    · rw [hsplit, takeWhile_eof hopen, htake]
      simp only [List.append_assoc, List.cons_append, List.nil_append]
    · simp only [List.length_append, List.length_cons] at hlen' ⊢
      omega
  · have hpre : ¬ (name ++ byte '\n' :: byte '[' :: q.sect) <+: q.sect := by
      intro hp
      have hmem : byte '\n' ∈ q.sect := hp.subset (by simp)
      exact absurd (q.sect_plain _ hmem).1 (by decide)
    have htok : Tokens true (ts ++
        [.header (name ++ byte '\n' :: byte '[' :: q.sect), .line [] (byte '\n')]) := by
      refine tokens_append.mpr ⟨hts, ?_⟩
      rw [hstart]
      exact ⟨⟨rfl, hlong q.sect fun _ hb => hb⟩, ⟨rfl, by simp, by simp⟩, trivial⟩
    have hold : bytesOf (ts ++
        [.header (name ++ byte '\n' :: byte '[' :: q.sect), .line [] (byte '\n')]) =
          bytesOf ts ++ byte '[' :: (name ++ [byte '\n', byte '[']) ++
            (q.sect ++ [byte ']', byte '\n']) := by
      simp [bytesOf, Token.bytes]
    have hplace : (w.readHeader q.sect (name ++ byte '\n' :: byte '[' :: q.sect)
        ((name ++ byte '\n' :: byte '[' :: q.sect).length + 2)).place = .outside := by
      rw [readHeader_outside hpre]
    have hsect' : eof ∉ q.sect ++ [byte ']', byte '\n'] := by simp [hsect]
    have happ : q.sect ++ byte ']' :: byte '\n' :: newKey q.key q.value =
        q.sect ++ [byte ']', byte '\n'] ++ newKey q.key q.value := by
      simp only [List.append_assoc, List.cons_append, List.nil_append]
    refine not_yields_outside htok
      (run_append_ok.mpr ⟨w, hrun, run_cons_ok.mpr ⟨_, rfl, run_cons_ok.mpr
        ⟨_, readLine_outside hplace [] 1, rfl⟩⟩⟩) hplace ?_ ?_
    · rw [hsplit, takeWhile_eof hopen, happ, takeWhile_eof hsect', hold]
      simp only [List.append_assoc]
    · rw [hold, List.append_assoc, ← happ]
      exact hlen'

/-! ### The three ways to write -/

/-- The domain: what a file can hold, and room for what is added. -/
structure Fits (q : Setting) (old : List UInt8) : Prop where
  eof : eof ∉ old
  room : old.length + q.sect.length + q.key.length + q.value.length + 8 ≤ maxFileSize

section
variable {conv : List UInt8 → ℤ → Except Fault (List UInt8)} {d : Document} {f : Spans}
  {w : List UInt8} (hd : d.Valid) (hfits : Fits q d.bytes)
  (hw : newText conv q.sect q.key q.value (filled d.bytes) d.bytes.length f = .ok w)
include hd hfits hw

/-- Where no header passes, a new section goes behind the text. -/
theorem text_appended (h : d.lookUp q.sect q.key = (false, f)) (hh : ¬ Headed q.sect d.tokens)
    (hno : ∀ name, d.tail = .opened name → ¬ name <+: q.sect) :
    ∃ u, run (step q.sect q.key) {} d.tokens = .ok u ∧ u.place = .outside ∧
      strOf w = (if d.bytes = [] then newSection q.sect q.key q.value
        else d.bytes ++ byte '\n' :: newSection q.sect q.key q.value) ∧
      (strOf w).length < maxFileSize := by
  obtain ⟨rfl, u, hrun, hout⟩ := lookUp_unheaded hd h hh hno
  have hroom := hfits.room
  obtain ⟨t, ht, hws, hlt⟩ := newText_append rfl (by omega) hw
  have hnew := zero_not_mem_newSection q.sect_zero q.key_zero q.value_zero
  have hz : 0 ∉ t := by
    rw [ht]
    split
    · exact hnew
    · intro hm
      rcases List.mem_append.mp hm with hm | hm
      · exact hd.zero hm
      rcases List.mem_cons.mp hm with hm | hm
      · exact absurd hm (by decide)
      · exact hnew hm
  rw [hws, strOf_filled hz]
  exact ⟨u, hrun, hout, ht, hlt⟩

/-- A key that comes after the NUL is lost. -/
theorem not_yields_lost (h : d.lookUp q.sect q.key = (false, f)) {name : List UInt8}
    (htail : d.tail = .opened name) (hpre : name <+: q.sect) :
    ¬ Yields q value defaultValue (some (strOf w)) := by
  obtain ⟨hsec, hsecE⟩ := lookUp_opened hd h htail hpre
  have hroom := hfits.room
  rw [newText_lost hsec (lookUp_keyS hd h) hd.zero (by omega) hsecE hw]
  refine not_yields hd (by rw [h]) ?_ (by omega)
  simpa using takeWhile_eof hfits.eof []

variable (hv : q.value.length < value.length)
include hv

/-- A value that is replaced is read back. -/
theorem yields_replace (h : d.lookUp q.sect q.key = (true, f)) :
    Yields q value defaultValue (some (strOf w)) := by
  obtain ⟨ts, u, text, k, rest, hs, rfl, hbytes, hrest⟩ := hd.split h
  obtain ⟨sp, t, v, rfl, rfl, hskip, hsite, hskip'⟩ := hs.replace
  have hpos := (at_of_run hs.tokens hs.run).pos
  have hroom := hfits.room
  have hheaded : Headed q.sect ts := by
    by_contra hno
    exact hs.place ((tracked_run hs.tokens hs.run).unheaded hno).1
  have hsec : (u.entry (sp ++ (t ++ byte '=' :: v)) t.length).secS ≠ -1 := by
    rw [Walk.entry]
    dsimp only
    rw [entered_secS]
    exact ((tracked_run hs.tokens hs.run).headed hheaded).1
  have hkey : (u.entry (sp ++ (t ++ byte '=' :: v)) t.length).keyS ≠ -1 := by
    rw [Walk.entry]
    dsimp only
    omega
  -- the text up to the value, the value and the rest
  have hold : d.bytes = bytesOf ts ++ (sp ++ (t ++ [byte '='])) ++ (v ++ rest) := by
    rw [hbytes]
    simp only [List.append_assoc, List.cons_append, List.nil_append]
  have hnew : bytesOf ts ++ (sp ++ (t ++ [byte '='])) ++ (q.value ++ rest) =
      bytesOf ts ++ (sp ++ (t ++ byte '=' :: q.value) ++ rest) := by
    simp only [List.append_assoc, List.cons_append, List.nil_append]
  have hlen : (bytesOf ts ++ (sp ++ (t ++ [byte '='])) ++ (q.value ++ rest)).length <
      maxFileSize := by
    rw [hold] at hroom
    simp only [List.length_append] at hroom ⊢
    omega
  have hvs : (u.entry (sp ++ (t ++ byte '=' :: v)) t.length).valueS =
      (bytesOf ts ++ (sp ++ (t ++ [byte '=']))).length := by
    simp only [Walk.entry, hskip, hpos, List.length_append, List.length_singleton]
    omega
  have hve : (u.entry (sp ++ (t ++ byte '=' :: v)) t.length).valueE =
      ((bytesOf ts ++ (sp ++ (t ++ [byte '=']))).length + v.length : ℕ) := by
    simp only [Walk.entry, hpos, List.length_append, List.length_cons, List.length_nil]
    omega
  have hws := newText_replace hsec hkey hold hvs hve (by omega) hlen hw
  have hz : 0 ∉ bytesOf ts ++ (sp ++ (t ++ [byte '='])) ++ (q.value ++ rest) := by
    have hzero := hd.zero
    rw [hold] at hzero
    simp only [List.mem_append, not_or] at hzero ⊢
    exact ⟨hzero.1, q.value_zero, hzero.2.2⟩
  have heof : eof ∉ bytesOf ts ++ (sp ++ (t ++ [byte '='])) ++ (q.value ++ rest) := by
    have heof := hfits.eof
    rw [hold] at heof
    simp only [List.mem_append, not_or] at heof ⊢
    exact ⟨heof.1, q.value_eof, heof.2.2⟩
  rw [hws, strOf_filled hz]
  refine yields_of_site hsite ?_ ?_ hrest (by rw [← hnew]; exact hlen) hv
  · rw [hskip', List.drop_left]
  · rw [← hnew]
    simpa using takeWhile_eof heof []

/-- A key that is put at a seat is read back, unless a byte of it ends the file. -/
theorem yields_insert (h : d.lookUp q.sect q.key = (false, f)) (hh : Headed q.sect d.tokens)
    (hno : ∀ name, d.tail = .opened name → ¬ name <+: q.sect) :
    Yields q value defaultValue (some (strOf w)) ↔ eof ∉ q.key := by
  obtain ⟨hsec, us, v, sp, rest, hseat⟩ := lookUp_headed hd h hh hno
  have hroom := hfits.room
  have hlen : (bytesOf us ++ sp).length ≤ d.bytes.length := by
    rw [hseat.bytes]
    simp only [List.length_append]
    omega
  have htake : d.bytes.take (bytesOf us ++ sp).length = bytesOf us ++ sp := by
    rw [hseat.bytes, ← List.append_assoc, List.take_left]
  obtain ⟨s, -, hws, hlt⟩ := newText_insert hsec (lookUp_keyS hd h) (by omega) hseat.pos hlen hw
  rw [htake] at hws hlt
  have hz : 0 ∉ bytesOf us ++ sp ++ newKey q.key q.value := by
    intro hmem
    rcases List.mem_append.mp hmem with hmem | hmem
    · exact hd.zero (List.mem_of_mem_take (htake ▸ hmem))
    · exact not_mem_newKey (by decide) (by decide) q.key_zero q.value_zero hmem
  have hstr : strOf w = bytesOf us ++ sp ++ (newKey q.key q.value ++ strOf s) := by
    rw [hws, strOf_filled_eq, strOf_append hz, List.append_assoc]
  have hle : (strOf w).length ≤ (bytesOf us ++ sp ++ newKey q.key q.value ++ s).length := by
    rw [hws, strOf_filled_eq]
    exact (List.takeWhile_sublist _).length_le
  have heof : eof ∉ bytesOf us ++ sp := fun hmem =>
    hfits.eof (List.mem_of_mem_take (htake ▸ hmem))
  exact yields_new hseat.tokens hseat.run hseat.place hseat.space heof hstr (by omega) (by omega) hv

/-- A section that is put behind lines is read back, unless a byte of it or of the key ends the
    file. -/
theorem yields_append (h : d.lookUp q.sect q.key = (false, f)) (hh : ¬ Headed q.sect d.tokens)
    {text : List UInt8} (htail : d.tail = .line text) :
    Yields q value defaultValue (some (strOf w)) ↔ eof ∉ q.key ∧ eof ∉ q.sect := by
  have hno : ∀ name, d.tail = .opened name → ¬ name <+: q.sect := by
    intro name hn
    rw [htail] at hn
    cases hn
  obtain ⟨u, hrun, hout, ht, hlt⟩ := text_appended hd hfits hw h hh hno
  -- the lines in front of the new section
  obtain ⟨us, v, hus, hstart, hv', hbytes, heof⟩ : ∃ us v, Tokens true us ∧
      startAfter true us = true ∧ run (step q.sect q.key) {} us = .ok v ∧
      strOf w = bytesOf us ++ newSection q.sect q.key q.value ∧ eof ∉ bytesOf us := by
    rcases eq_or_ne d.bytes [] with hnil | hne
    · rw [if_pos hnil] at ht
      exact ⟨[], {}, trivial, rfl, rfl, ht, by simp [bytesOf]⟩
    · rw [if_neg hne] at ht
      have hfit := hd.tail
      rw [htail] at hfit
      have htok : Tokens true (d.tokens ++ [.line text (byte '\n')]) :=
        tokens_append.mpr ⟨hd.tokens, ⟨rfl, hfit⟩, trivial⟩
      have hold : bytesOf (d.tokens ++ [.line text (byte '\n')]) = d.bytes ++ [byte '\n'] := by
        rw [bytesOf_concat, Document.bytes, htail, Token.bytes, Tail.bytes, List.append_assoc]
      have hstep : step q.sect q.key u (.line text (byte '\n')) =
          .ok { u with pos := u.pos + (text.length + 1) } := readLine_outside hout text _
      refine ⟨d.tokens ++ [.line text (byte '\n')], _, htok, ?_,
        run_append_ok.mpr ⟨u, hrun, run_cons_ok.mpr ⟨_, hstep, rfl⟩⟩, ?_, ?_⟩
      · rw [startAfter_append]
        rfl
      · rw [ht, hold, List.append_assoc]
        rfl
      · simp [hold, hfits.eof]
  exact yields_newSection hus hstart hv' heof hbytes hlt hv

omit hv in
/-- A section that is put behind a header without its `]` becomes a part of that header. -/
theorem not_yields_unclosed (h : d.lookUp q.sect q.key = (false, f))
    (hh : ¬ Headed q.sect d.tokens) {name : List UInt8} (htail : d.tail = .opened name)
    (hpre : ¬ name <+: q.sect) : ¬ Yields q value defaultValue (some (strOf w)) := by
  have hno : ∀ n, d.tail = .opened n → ¬ n <+: q.sect := by
    intro n hn
    rw [htail] at hn
    rwa [← Tail.opened.inj hn]
  obtain ⟨u, hrun, -, ht, -⟩ := text_appended hd hfits hw h hh hno
  have hroom := hfits.room
  have hfit := hd.tail
  rw [htail] at hfit
  have hold : d.bytes = bytesOf d.tokens ++ byte '[' :: name := by
    rw [Document.bytes, htail, Tail.bytes]
  rw [if_neg (by simp [hold])] at ht
  refine not_yields_merged hd.tokens hfit.1 hrun hfit.2 (hold ▸ hfits.eof) ?_ ?_
  · rw [ht, hold, List.append_assoc]
    rfl
  · rw [ht, newSection]
    simp only [List.length_append, List.length_cons, List.length_nil]
    omega

end

end

/-! ### The round trip -/

theorem Document.eq_of_empty {d : Document} (h : d.bytes = []) : d = ⟨[], .line []⟩ := by
  obtain ⟨ts, tail⟩ := d
  obtain ⟨hts, htail⟩ := List.append_eq_nil_iff.mp h
  have htok : ts = [] := by
    rcases ts with - | ⟨t, ts⟩
    · rfl
    · rw [bytesOf, List.flatMap_cons] at hts
      cases t <;> simp [Token.bytes] at hts
  cases tail with
  | line text =>
    obtain rfl : text = [] := htail
    rw [htok]
  | opened name => cases htail

/-- For a document. -/
theorem yields_iff_keeps {conv : List UInt8 → ℤ → Except Fault (List UInt8)} {q : Setting}
    {file file' : File} {disk : Disk} {value : List UInt8} {defaultValue : Option (List UInt8)}
    {d : Document} (hd : d.Valid) (hbytes : file.getD [] = d.bytes) (hfits : Fits q d.bytes)
    (hv : q.value.length < value.length)
    (h : writeProfileString conv q.sect q.key q.value file disk = .ok (true, file')) :
    Yields q value defaultValue file' ↔ d.Keeps q := by
  have hroom := hfits.room
  have hp : parseFile q.sect q.key (d.bytes ++
      0 :: 0 :: List.replicate (maxFileSize - d.bytes.length - 2) 0) = .ok (d.lookUp q.sect q.key) :=
    parseFile_document q.sect_ne q.key_ne hd fun _ => ⟨_, rfl⟩
  rw [← filled_end_two (by omega)] at hp
  obtain ⟨found, f, hl⟩ : ∃ found f, d.lookUp q.sect q.key = (found, f) := ⟨_, _, rfl⟩
  rw [hl] at hp
  have hnone : d.bytes = [] → f = {} := by
    intro hnil
    rw [Document.eq_of_empty hnil] at hl
    exact (Prod.mk.inj hl).2.symm
  obtain ⟨w, hw, rfl⟩ := writeProfileString_ok hbytes hfits.eof (by omega) hp hnone h
  have hentry : d.HasEntry q.sect q.key ↔ (d.lookUp q.sect q.key).1 = true := lookUp_iff.symm
  rw [Document.Keeps, hentry, hl]
  cases found with
  | true => exact iff_of_true (yields_replace hd hfits hw hv hl) (Or.inl rfl)
  | false =>
    have hno : ¬ ((false, f) : Bool × Spans).1 = true := by simp
    rw [or_iff_right hno]
    rcases Classical.em (∃ name, d.tail = .opened name ∧ name <+: q.sect) with hlost | hlost
    · obtain ⟨name, htail, hpre⟩ := hlost
      refine iff_of_false (not_yields_lost hd hfits hw hl htail hpre) ?_
      rintro ⟨-, ⟨-, hall⟩ | ⟨-, -, hall⟩⟩
      · exact hall name htail hpre
      · exact hall name htail
    have hall : ∀ name, d.tail = .opened name → ¬ name <+: q.sect := fun name htail hpre =>
      hlost ⟨name, htail, hpre⟩
    rcases Classical.em (Headed q.sect d.tokens) with hh | hh
    · rw [yields_insert hd hfits hw hv hl hh hall]
      exact ⟨fun hkey => ⟨hkey, Or.inl ⟨hh, hall⟩⟩, And.left⟩
    · cases htail : d.tail with
      | opened name =>
        refine iff_of_false (not_yields_unclosed hd hfits hw hl hh htail (hall name htail)) ?_
        rintro ⟨-, ⟨h, -⟩ | ⟨-, -, h⟩⟩
        · exact hh h
        · exact h name rfl
      | line text =>
        rw [yields_append hd hfits hw hv hl hh htail]
        simp [hh]

/-- A profile string is read back after it was written, if and only if the text keeps it. -/
theorem write_read_iff (conv : List UInt8 → ℤ → Except Fault (List UInt8)) (q : Setting)
    (file file' : File) (disk : Disk) (value : List UInt8) (defaultValue : Option (List UInt8))
    (hzero : 0 ∉ file.getD []) (hfits : Fits q (file.getD []))
    (hv : q.value.length < value.length)
    (h : writeProfileString conv q.sect q.key q.value file disk = .ok (true, file')) :
    Yields q value defaultValue file' ↔
      ∃ d : Document, d.Valid ∧ d.bytes = file.getD [] ∧ d.Keeps q := by
  constructor
  · intro hy
    obtain ⟨d, hd, hbytes⟩ := exists_document hzero
    exact ⟨d, hd, hbytes, (yields_iff_keeps hd hbytes.symm (hbytes ▸ hfits) hv h).mp hy⟩
  · rintro ⟨d, hd, hbytes, hk⟩
    exact (yields_iff_keeps hd hbytes.symm (hbytes ▸ hfits) hv h).mpr hk

/-- `x=v` in `[s]`. -/
def oneKey : Setting where
  sect := [byte 's']
  key := [byte 'x']
  value := [byte 'v']
  sect_ne := by decide
  key_ne := by decide
  sect_plain := List.forall_mem_singleton.mpr (by decide)
  key_plain := List.forall_mem_singleton.mpr (by decide)
  key_head := by
    rintro b ⟨⟩
    decide
  value_plain := List.forall_mem_singleton.mpr (by decide)

/-- Without a file, a disk that works makes a file of one section. -/
theorem write_oneKey_absent : writeProfileString (fun s _ => .ok s) oneKey.sect oneKey.key
    oneKey.value none ⟨true, none⟩ = .ok (true, some (ascii "[s]\nx=v\n")) := by
  have hp : parseFile oneKey.sect oneKey.key (filled []) = .ok (false, {}) := by
    have hd : Document.Valid ⟨[], .line []⟩ := ⟨trivial, by simp, by simp⟩
    rw [filled_end_two (by decide)]
    exact parseFile_document oneKey.sect_ne oneKey.key_ne hd fun _ => ⟨_, rfl⟩
  have hold : (none : File).getD [] = [] := rfl
  exact writeProfileString_newSection oneKey.sect_ne oneKey.key_ne hold (by simp) hp rfl
    (by decide) (by decide)

theorem write_read_oneKey :
    Yields oneKey [7, 7] none (some (ascii "[s]\nx=v\n")) ↔
      ∃ d : Document, d.Valid ∧ d.bytes = [] ∧ d.Keeps oneKey :=
  write_read_iff (fun s _ => .ok s) oneKey none _ ⟨true, none⟩ [7, 7] none (by simp)
    ⟨by simp, by decide⟩ (by decide) write_oneKey_absent

/-- Behind a header without its `]`, the write succeeds and the key is lost. -/
theorem write_read_behind_opened : ¬ ∀ (conv : List UInt8 → ℤ → Except Fault (List UInt8))
    (q : Setting) (file file' : File) (disk : Disk) (value : List UInt8)
    (defaultValue : Option (List UInt8)), 0 ∉ file.getD [] → Fits q (file.getD []) →
      q.value.length < value.length →
        writeProfileString conv q.sect q.key q.value file disk = .ok (true, file') →
          Yields q value defaultValue file' := by
  intro h
  have hname : Named (ascii "zzz") := List.all_iff_forall_prop.mp (by decide)
  have hp : parseFile oneKey.sect oneKey.key (filled (ascii "[zzz")) = .ok (false, {}) := by
    have hd : Document.Valid ⟨[], .opened (ascii "zzz")⟩ := ⟨trivial, rfl, hname⟩
    rw [filled_end_two (by decide)]
    exact parseFile_document oneKey.sect_ne oneKey.key_ne hd fun _ => ⟨_, rfl⟩
  have hold : (some (ascii "[zzz") : File).getD [] = ascii "[zzz" := rfl
  have hw : writeProfileString (fun s _ => .ok s) oneKey.sect oneKey.key oneKey.value
      (some (ascii "[zzz")) ⟨true, none⟩ = .ok (true, some (ascii "[zzz\n[s]\nx=v\n")) :=
    writeProfileString_newSection oneKey.sect_ne oneKey.key_ne hold (by decide) hp rfl
      (by decide) (by decide)
  have hts : Tokens true [] := trivial
  have hy := h _ oneKey (some (ascii "[zzz")) _ ⟨true, none⟩ [7, 7] none (by decide)
    ⟨by decide, by decide⟩ (by decide) hw
  exact not_yields_merged hts rfl rfl hname (by decide) rfl (by decide) hy

end AcqBoard.Ini
