import AcqBoard.Ini.Entry
import AcqBoard.Ini.Reads

/-! Where the reads and the answers of `parse_file` lie.

    The buffer is zero behind the file, and one of the NULs that the scanner steps over can be the
    first of them:

        a file that ends within a header that passes     ->  `sec_e` is behind the file
        a file of MAX_FILE_SIZE - 1 bytes, and the scanner comes through all of it
                                                         ->  a read behind the buffer

    In every other case the scanner stays in the buffer and its offsets in the file. -/

namespace AcqBoard.Ini
open Schemes

/-- Two offsets in the first `n` bytes, or none. -/
def Between (s e : ℤ) (n : ℕ) : Prop := s = -1 ∧ e = -1 ∨ 0 ≤ s ∧ s ≤ e ∧ e ≤ n

instance (s e : ℤ) (n : ℕ) : Decidable (Between s e n) := inferInstanceAs (Decidable (_ ∨ _))

structure Spans.Within (f : Spans) (n : ℕ) : Prop where
  sec : Between f.secS f.secE n
  key : Between f.keyS f.keyE n
  value : Between f.valueS f.valueE n

/-- The invariant of the walk: no entry, and a section, if any, in front of the position. -/
structure Walk.Kept (w : Walk) : Prop where
  sec : Between w.spans.secS w.spans.secE w.pos
  key : w.spans.keyS = -1 ∧ w.spans.keyE = -1
  value : w.spans.valueS = -1 ∧ w.spans.valueE = -1
  found : w.place ≠ .outside → 0 ≤ w.spans.secS

theorem Between.mono {s e : ℤ} {m n : ℕ} (h : Between s e m) (hmn : m ≤ n) : Between s e n := by
  rcases h with h | ⟨h₁, h₂, h₃⟩
  · exact Or.inl h
  · exact Or.inr ⟨h₁, h₂, by omega⟩

section
variable {sect key text : List UInt8} {w w' : Walk} {len k : ℕ} {f : Spans}

theorem kept_start : ({} : Walk).Kept :=
  ⟨Or.inl ⟨rfl, rfl⟩, ⟨rfl, rfl⟩, ⟨rfl, rfl⟩, fun h => (h rfl).elim⟩

theorem Walk.Kept.within (h : w.Kept) : w.spans.Within w.pos :=
  ⟨h.sec, Or.inl h.key, Or.inl h.value⟩

theorem Spans.Within.mono {m n : ℕ} (h : f.Within m) (hmn : m ≤ n) : f.Within n :=
  ⟨h.sec.mono hmn, h.key.mono hmn, h.value.mono hmn⟩

theorem skipped_le (p : Place) (text : List UInt8) : p.skipped text ≤ text.length := by
  unfold Place.skipped
  split
  · exact (List.takeWhile_sublist _).length_le
  · exact Nat.zero_le _

/-- An entry has a key, and its `=` is in the line. -/
theorem matchKey_lt (h : matchKey key text = some k) : 0 < k ∧ k < text.length := by
  obtain ⟨t, hcut, ⟨hne, -, -⟩, rfl⟩ := matchKey_eq_some.mp h
  obtain ⟨-, v, rfl⟩ := cut_eq_some hcut
  rw [List.length_append, List.length_cons]
  exact ⟨List.length_pos_iff.mpr hne, by omega⟩

/-- Only `sec_e` moves when a line is looked at, and not behind the line. -/
theorem Walk.Kept.entered (h : w.Kept) (hout : w.place ≠ .outside) (text : List UInt8) :
    ∃ e, w.entered text = { w.spans with secE := e } ∧
      0 ≤ w.spans.secS ∧ w.spans.secS ≤ e ∧ e ≤ (w.pos + text.length : ℕ) := by
  have hfound := h.found hout
  have hskip := skipped_le w.place text
  rcases h.sec with ⟨hs, -⟩ | ⟨-, hse, he⟩
  · omega
  unfold Walk.entered
  split
  · exact ⟨_, rfl, hfound, by omega, by omega⟩
  · exact ⟨w.spans.secE, rfl, hfound, hse, by omega⟩

/-- A line that the walk passes. -/
theorem Walk.Kept.readLine (h : w.Kept) (hlen : text.length ≤ len)
    (hr : w.readLine key text len = .ok w') : w'.Kept ∧ w'.pos = w.pos + len := by
  rcases eq_or_ne w.place .outside with hout | hout
  · rw [readLine_outside hout] at hr
    obtain rfl := Except.ok.inj hr
    exact ⟨⟨h.sec.mono (Nat.le_add_right _ _), h.key, h.value, fun hno => (hno hout).elim⟩, rfl⟩
  have hfound := h.found hout
  rcases Classical.em (w.place = .fresh ∧ ∀ b ∈ text, isSpace b = true) with hblank | hblank
  · rw [readLine_blank hblank.1 hblank.2] at hr
    obtain rfl := Except.ok.inj hr
    refine ⟨⟨Or.inr ⟨hfound, ?_, le_refl _⟩, h.key, h.value, fun _ => hfound⟩, rfl⟩
    rcases h.sec with ⟨hs, -⟩ | ⟨-, hse, he⟩
    · omega
    · dsimp only
      omega
  · rw [readLine_entered hout hblank] at hr
    cases hm : matchKey key (text.drop (w.place.skipped text)) with
    | some k =>
      rw [hm] at hr
      cases hr
    | none =>
      rw [hm] at hr
      obtain rfl := Except.ok.inj hr
      obtain ⟨e, he, hse, hle⟩ := h.entered hout text
      rw [he]
      exact ⟨⟨Or.inr ⟨hse, hle.1, by dsimp only; omega⟩, h.key, h.value, fun _ => hse⟩, rfl⟩

/-- The offsets of an entry lie in its line. -/
theorem Walk.Kept.entry (h : w.Kept) (hr : w.readLine key text len = .error f) :
    f.Within (w.pos + text.length) := by
  obtain ⟨hout, k, hm, rfl⟩ := readLine_eq_error hr
  obtain ⟨hk, hlt⟩ := matchKey_lt hm
  rw [List.length_drop] at hlt
  obtain ⟨e, he, hsec⟩ := h.entered hout text
  refine ⟨?_, Or.inr ?_, Or.inr ?_⟩
  · rw [Walk.entry, he]
    exact Or.inr hsec
  · dsimp only [Walk.entry]
    omega
  · dsimp only [Walk.entry]
    omega

/-- What is passed over in a line that has a NUL behind it. -/
theorem Walk.Kept.line_ok (h : w.Kept) (hstop : ¬ w.place.Stops text)
    (hr : w.readLine key text len = .ok w') : w'.spans.Within (w.pos + text.length) := by
  rw [Place.Stops, not_or, not_or] at hstop
  obtain ⟨hout, hblank, -⟩ := hstop
  rw [readLine_entered hout hblank] at hr
  cases hm : matchKey key (text.drop (w.place.skipped text)) with
  | some k =>
    rw [hm] at hr
    cases hr
  | none =>
    rw [hm] at hr
    obtain rfl := Except.ok.inj hr
    obtain ⟨e, he, hsec⟩ := h.entered hout text
    rw [he]
    exact ⟨Or.inr hsec, Or.inl h.key, Or.inl h.value⟩

theorem Walk.Kept.readHeader (h : w.Kept) (name : List UInt8) :
    (w.readHeader sect name (name.length + 2)).Kept ∧
      (w.readHeader sect name (name.length + 2)).pos = w.pos + (name.length + 2) := by
  rcases Classical.em (name <+: sect) with hpre | hpre
  · rw [readHeader_fresh hpre]
    refine ⟨⟨Or.inr ?_, h.key, h.value, fun _ => ?_⟩, rfl⟩
    · dsimp only
      omega
    · dsimp only
      omega
  · rw [readHeader_outside hpre]
    exact ⟨⟨h.sec.mono (Nat.le_add_right _ _), h.key, h.value, fun hno => (hno rfl).elim⟩, rfl⟩

/-! ### Over the items -/

variable {it : Item} {its : List Item} {r : Bool × Spans}

theorem Item.length_bytes (it : Item) : it.bytes.length = match it with
    | .token (.header name) => name.length + 2
    | .token (.line text _) => text.length + 1
    | .cutLine text => text.length + 1
    | .cutHeader name => name.length + 2 := by
  cases it with
  | token t => cases t <;> simp [Item.bytes, Token.bytes]
  | cutLine text => simp [Item.bytes]
  | cutHeader name => simp [Item.bytes]

theorem Walk.Kept.item_ok (h : w.Kept) (hs : itemStep sect key w it = .ok w') :
    w'.Kept ∧ w'.pos = w.pos + it.bytes.length := by
  rw [it.length_bytes]
  cases it with
  | token t =>
    have hstep := mapError_eq_ok.mp hs
    cases t with
    | header name =>
      obtain rfl := Except.ok.inj hstep
      exact h.readHeader name
    | line text nl => exact h.readLine (Nat.le_succ _) hstep
  | cutLine text =>
    rw [itemStep] at hs
    split at hs
    · cases hs
    · exact h.readLine (Nat.le_succ _) (mapError_eq_ok.mp hs)
  | cutHeader name =>
    rw [itemStep] at hs
    split at hs
    · obtain rfl := Except.ok.inj hs
      exact h.readHeader name
    · cases hs

/-- How the walk ends at an item: with an entry of its line, or with the offsets that it has in front
    of the last byte. -/
theorem itemStep_error (hs : itemStep sect key w it = .error r) :
    (r.1 = true ∧ ∃ text c len, it.bytes = text ++ [c] ∧ w.readLine key text len = .error r.2 ∧
        ∀ {start}, it.Fits start → Plain start text) ∨
      r.1 = false ∧ ∃ v : Walk, r.2 = v.spans ∧
        (w.Kept → v.Kept ∧ v.pos + 1 ≤ w.pos + it.bytes.length) := by
  cases it with
  | token t =>
    obtain ⟨g, hg, rfl⟩ := mapError_eq_error.mp hs
    cases t with
    | header name => cases hg
    | line text nl => exact Or.inl ⟨rfl, text, nl, _, rfl, hg, fun h => h.2⟩
  | cutLine text =>
    rw [itemStep] at hs
    split at hs
    · obtain rfl := Except.error.inj hs
      cases hline : w.readLine key text text.length with
      | error g => exact Or.inl ⟨rfl, text, 0, _, rfl, hline, fun h => h⟩
      | ok v =>
        refine Or.inr ⟨rfl, v, rfl, fun h => ?_⟩
        obtain ⟨hkept, hpos⟩ := h.readLine (Nat.le_refl _) hline
        rw [Item.length_bytes]
        exact ⟨hkept, by dsimp only; omega⟩
    · obtain ⟨g, hg, rfl⟩ := mapError_eq_error.mp hs
      exact Or.inl ⟨rfl, text, 0, _, rfl, hg, fun h => h⟩
  | cutHeader name =>
    rw [itemStep] at hs
    split at hs
    · cases hs
    · obtain rfl := Except.error.inj hs
      refine Or.inr ⟨rfl, w, rfl, fun h => ⟨h, ?_⟩⟩
      rw [Item.length_bytes]
      dsimp only
      omega

/-- The answer at an item leaves out its last byte. -/
theorem Walk.Kept.item_error (h : w.Kept) (hs : itemStep sect key w it = .error r) :
    r.2.Within (w.pos + it.bytes.length - 1) := by
  rcases itemStep_error hs with ⟨-, text, c, len, hbytes, hline, -⟩ | ⟨-, v, hv, hkept⟩
  · rw [hbytes, List.length_append, List.length_singleton]
    exact h.entry hline
  · obtain ⟨hv', hpos⟩ := hkept h
    rw [hv]
    exact hv'.within.mono (by omega)

theorem length_itemBytes (it : Item) (its : List Item) :
    (itemBytes (it :: its)).length = it.bytes.length + (itemBytes its).length := by
  rw [itemBytes, List.flatMap_cons, List.length_append]
  rfl

theorem Walk.Kept.run_ok (h : w.Kept) (hr : run (itemStep sect key) w its = .ok w') :
    w'.Kept ∧ w'.pos = w.pos + (itemBytes its).length := by
  induction its generalizing w with
  | nil =>
    obtain rfl : w = w' := Except.ok.inj hr
    exact ⟨h, rfl⟩
  | cons it its ih =>
    obtain ⟨u, hu, hrest⟩ := run_cons_ok.mp hr
    obtain ⟨hkept, hpos⟩ := h.item_ok hu
    obtain ⟨hkept', hpos'⟩ := ih hkept hrest
    rw [length_itemBytes]
    exact ⟨hkept', by omega⟩

theorem Walk.Kept.run_error (h : w.Kept) (hr : run (itemStep sect key) w its = .error r) :
    r.2.Within (w.pos + (itemBytes its).length - 1) := by
  obtain ⟨init, it, post, u, rfl, hinit, hit⟩ := run_eq_error hr
  obtain ⟨hkept, hpos⟩ := h.run_ok hinit
  refine (hkept.item_error hit).mono ?_
  have hlen : (itemBytes (init ++ it :: post)).length =
      (itemBytes init).length + (itemBytes (it :: post)).length := by
    rw [itemBytes, List.flatMap_append, List.length_append]
    rfl
  rw [length_itemBytes] at hlen
  omega

/-- The last NUL, stepped over in a line: the offsets stay in front of it. -/
theorem within_of_cutLine {text : List UInt8} (h : w.Kept)
    (hr : run (itemStep sect key) w (its ++ [.cutLine text]) = .ok w') :
    w'.spans.Within (w.pos + (itemBytes (its ++ [.cutLine text])).length - 1) := by
  obtain ⟨u, hu, hlast⟩ := run_append_ok.mp hr
  obtain ⟨v, hv, hnil⟩ := run_cons_ok.mp hlast
  obtain rfl : v = w' := Except.ok.inj hnil
  obtain ⟨hkept, hpos⟩ := h.run_ok hu
  rw [itemStep] at hv
  split at hv
  · cases hv
  · rename_i hstop
    refine (hkept.line_ok hstop (mapError_eq_ok.mp hv)).mono ?_
    rw [itemBytes, List.flatMap_append, List.flatMap_singleton, Item.bytes, List.length_append,
      List.length_append, List.length_singleton]
    have hlen : (itemBytes its).length = (its.flatMap Item.bytes).length := rfl
    omega

/-- The last NUL, stepped over in a header: `sec_e` is behind it. -/
theorem secE_of_cutHeader {name : List UInt8} (h : w.Kept)
    (hr : run (itemStep sect key) w (its ++ [.cutHeader name]) = .ok w') :
    w'.spans.secE = (w.pos + (itemBytes (its ++ [.cutHeader name])).length : ℕ) := by
  obtain ⟨u, hu, hlast⟩ := run_append_ok.mp hr
  obtain ⟨v, hv, hnil⟩ := run_cons_ok.mp hlast
  obtain rfl : v = w' := Except.ok.inj hnil
  obtain ⟨-, hpos⟩ := h.run_ok hu
  have hlen : (itemBytes (its ++ [.cutHeader name])).length =
      (itemBytes its).length + (name.length + 2) := by
    rw [itemBytes, List.flatMap_append, List.flatMap_singleton, List.length_append,
      Item.length_bytes]
    rfl
  rw [itemStep] at hv
  split at hv
  · rename_i hpre
    obtain rfl := Except.ok.inj hv
    rw [readHeader_fresh hpre, hlen]
    dsimp only
    omega
  · cases hv

/-- An entry and the text around its value. -/
theorem value_of_error (h : w.Kept) {start : Bool} (hits : Items start its)
    (hr : run (itemStep sect key) w its = .error (true, f)) :
    ∃ a s b, itemBytes its = a ++ (s ++ b) ∧ 0 ∉ s ∧ f.valueS = (w.pos + a.length : ℕ) ∧
      f.valueE = (w.pos + a.length + s.length : ℕ) := by
  obtain ⟨init, it, post, u, rfl, hinit, hit⟩ := run_eq_error hr
  obtain ⟨-, hpos⟩ := h.run_ok hinit
  obtain ⟨-, start', hfits, -⟩ := items_append hits
  obtain ⟨-, text, c, len, hbytes, hline, hfit⟩ := (itemStep_error hit).resolve_right
    fun hno => Bool.noConfusion hno.1
  have hplain := hfit hfits
  obtain ⟨-, k, hm, rfl⟩ := readLine_eq_error hline
  obtain ⟨-, hlt⟩ := matchKey_lt hm
  rw [List.length_drop] at hlt
  have hlen : (itemBytes init ++ text.take (u.place.skipped text + k + 1)).length =
      (itemBytes init).length + (u.place.skipped text + k + 1) := by
    rw [List.length_append, List.length_take, Nat.min_eq_left (by omega)]
  refine ⟨itemBytes init ++ text.take (u.place.skipped text + k + 1),
    text.drop (u.place.skipped text + k + 1), c :: itemBytes post, ?_,
    fun hz => hplain.zero (List.mem_of_mem_drop hz), ?_, ?_⟩
  · have hsplit := List.take_append_drop (u.place.skipped text + k + 1) text
    rw [itemBytes, List.flatMap_append, List.flatMap_cons, ← itemBytes, ← itemBytes, hbytes,
      List.append_assoc, List.append_assoc, ← List.append_assoc (text.take _), hsplit]
    rfl
  · rw [hlen]
    dsimp only [Walk.entry]
    omega
  · rw [hlen, List.length_drop]
    dsimp only [Walk.entry]
    omega

/-- Without an entry there is no key. -/
theorem missing_of_error (h : w.Kept) (hr : run (itemStep sect key) w its = .error (false, f)) :
    f.keyS = -1 := by
  obtain ⟨init, it, post, u, rfl, hinit, hit⟩ := run_eq_error hr
  obtain ⟨-, v, hv, hkept⟩ := (itemStep_error hit).resolve_left fun hno => Bool.noConfusion hno.1
  obtain ⟨hv', -⟩ := hkept (h.run_ok hinit).1
  rw [show f = v.spans from hv]
  exact hv'.key.1

/-! ### `parse_file` over the items -/

theorem run_next_start : run (Item.next sect key) .outside its =
    verdictOf (run (itemStep sect key) {} its) := run_next {} its

theorem through_iff : Through sect key its ↔ ∃ w, run (itemStep sect key) {} its = .ok w := by
  unfold Through
  rw [run_next_start]
  cases run (itemStep sect key) {} its with
  | ok w => exact iff_of_true ⟨w.place, rfl⟩ ⟨w, rfl⟩
  | error r =>
    refine iff_of_false ?_ ?_
    · rintro ⟨p, ⟨⟩⟩
    · rintro ⟨w, ⟨⟩⟩

/-- The scanner ends at one of the items, whatever follows them. -/
theorem parseFile_stops (hs : sect ≠ []) (hk : key ≠ []) (hits : Items true its)
    (hr : run (itemStep sect key) {} its = .error r) (rest : List UInt8) :
    parseFile sect key (itemBytes its ++ rest) = .ok r := by
  have hres := resumes_items sect key rest at_start (show Items (lineStart []) its from hits)
  rw [hr] at hres
  exact parseFile_of_resumes hs hk hres

/-- It comes through all of them, to another NUL. -/
theorem parseFile_through (hs : sect ≠ []) (hk : key ≠ []) (hits : Items true its)
    (hr : run (itemStep sect key) {} its = .ok w) (rest : List UInt8) :
    parseFile sect key (itemBytes its ++ 0 :: rest) = .ok (false, w.spans) := by
  have hres := resumes_items sect key (0 :: rest) at_start (show Items (lineStart []) its from hits)
  rw [hr] at hres
  exact parseFile_of_resumes hs hk (hres.2 (resumes_of_returns hres.1 (Or.inl rfl) returns_end))

theorem items_append_of {jts : List Item} {start : Bool} (h : Items start its)
    (hj : ∀ start', Items start' jts) : Items start (its ++ jts) := by
  induction its generalizing start with
  | nil => exact hj start
  | cons it its ih => exact ⟨h.1, ih h.2⟩

variable (sect key) in
/-- A line and a header behind the items: the header is the section then. -/
theorem run_header (h : w.Kept) : ∃ w' : Walk, w'.spans.secS = (w.pos + 2 : ℕ) ∧
    run (itemStep sect key) w [.token (.line [] (byte '\n')), .token (.header [])] = .ok w' := by
  obtain ⟨u, hu⟩ : ∃ u, w.readLine key [] 1 = .ok u := by
    rcases eq_or_ne w.place .outside with hout | hout
    · exact ⟨_, readLine_outside hout [] 1⟩
    rcases Classical.em (w.place = .fresh ∧ ∀ b ∈ ([] : List UInt8), isSpace b = true) with hb | hb
    · exact ⟨_, readLine_blank hb.1 hb.2 1⟩
    · rw [readLine_entered hout hb, List.drop_nil]
      exact ⟨_, rfl⟩
  obtain ⟨-, hpos⟩ := h.readLine (Nat.zero_le 1) hu
  have hstep : itemStep sect key w (.token (.line [] (byte '\n'))) = .ok u :=
    mapError_eq_ok.mpr hu
  refine ⟨u.readHeader sect [] 2, ?_, run_cons_ok.mpr ⟨u, hstep, rfl⟩⟩
  rw [readHeader_fresh List.nil_prefix]
  dsimp only
  omega

/-- Without another NUL the scanner does not stay in the buffer: what it returned there would have to
    be its answer for every text that follows, and there are texts with different ones. -/
theorem reads_behind (hs : sect ≠ []) (hk : key ≠ []) (hits : Items true its)
    (hr : run (itemStep sect key) {} its = .ok w) (n : ℕ) :
    (memory (itemBytes its)).parseFile sect key n = none := by
  by_contra hne
  obtain ⟨r, hread⟩ := Option.ne_none_iff_exists'.mp hne
  obtain ⟨hkept, -⟩ := kept_start.run_ok hr
  obtain ⟨w', hsec, hrun⟩ := run_header sect key hkept
  have hmore : Items true (its ++ [.token (.line [] (byte '\n')), .token (.header [])]) := by
    refine items_append_of hits fun start => ⟨⟨rfl, ⟨by simp, by simp⟩⟩, ⟨rfl, ?_⟩, trivial⟩
    intro c hc
    exact absurd hc List.not_mem_nil
  have hrun' : run (itemStep sect key) {}
      (its ++ [.token (.line [] (byte '\n')), .token (.header [])]) = .ok w' :=
    run_append_ok.mpr ⟨w, hr, hrun⟩
  have hlong := parseFile_through hs hk hmore hrun' []
  rw [itemBytes, List.flatMap_append, ← itemBytes, List.append_assoc] at hlong
  have hanswer := (parse_agrees hread (parseFile_through hs hk hits hr [])).symm.trans
    (parse_agrees hread hlong)
  have hspans : w.spans.secS = (w.pos + 2 : ℕ) := by
    rw [← hsec]
    exact congrArg Spans.secS (Prod.mk.inj hanswer).2
  rcases hkept.sec with ⟨h, -⟩ | ⟨-, hse, he⟩
  · omega
  · omega

/-- The buffer behind a file: the items of the file with its NUL, and zero bytes. -/
theorem filled_items {s : List UInt8} (hlen : s.length < maxFileSize)
    (hb : itemBytes its = s ++ [0]) :
    filled s = itemBytes its ++ List.replicate (maxFileSize - s.length - 1) 0 := by
  rw [filled_end hlen, hb, List.append_assoc]
  rfl

/-- Behind a file there is another NUL, except for the longest. -/
theorem filled_room {s : List UInt8} (hroom : s.length + 1 < maxFileSize)
    (hb : itemBytes its = s ++ [0]) :
    ∃ k, filled s = itemBytes its ++ 0 :: List.replicate k 0 := by
  refine ⟨maxFileSize - s.length - 2, ?_⟩
  rw [filled_end_two hroom, hb, List.append_assoc]
  rfl

theorem filled_full {s : List UInt8} (hlen : s.length < maxFileSize)
    (hfull : maxFileSize ≤ s.length + 1) (hb : itemBytes its = s ++ [0]) :
    filled s = itemBytes its := by
  have hnone : maxFileSize - s.length - 1 = 0 := by omega
  rw [filled_items hlen hb, hnone, List.replicate_zero, List.append_nil]

/-! ### The verdict of the text -/

/-- The scanner finds an entry in the text. -/
def HasMatch (sect key s : List UInt8) : Prop :=
  ∃ its, Items true its ∧ itemBytes its = s ++ [0] ∧
    run (Item.next sect key) .outside its = .error .entry

/-- The scanner comes through the whole text. -/
def PassesAll (sect key s : List UInt8) : Prop :=
  ∃ its, Items true its ∧ itemBytes its = s ++ [0] ∧ Through sect key its

/-- The scanner does not leave the buffer. -/
def Stays (sect key s : List UInt8) : Prop :=
  s.length + 1 < maxFileSize ∨ ¬ PassesAll sect key s

/-- The verdict of the automaton is that of the walk. -/
theorem hasMatch_walk (h : run (Item.next sect key) .outside its = .error .entry) :
    ∃ f, run (itemStep sect key) {} its = .error (true, f) := by
  rw [run_next_start] at h
  cases hr : run (itemStep sect key) {} its with
  | ok w =>
    rw [hr] at h
    cases h
  | error r =>
    obtain ⟨found, f⟩ := r
    rw [hr] at h
    cases found with
    | true => exact ⟨f, rfl⟩
    | false => exact Verdict.noConfusion (Except.error.inj h)

theorem hasMatch_of_walk (hr : run (itemStep sect key) {} its = .error (true, f)) :
    run (Item.next sect key) .outside its = .error .entry := by
  rw [run_next_start, hr]
  rfl

/-- Through a file as long as the buffer allows the scanner does not come back. -/
theorem stays_of_parse {s : List UInt8} (hs : sect ≠ []) (hk : key ≠ [])
    (hlen : s.length < maxFileSize) (hp : parseFile sect key (filled s) = .ok r) :
    Stays sect key s := by
  rcases Nat.lt_or_ge (s.length + 1) maxFileSize with hroom | hfull
  · exact Or.inl hroom
  refine Or.inr ?_
  rintro ⟨its, hits, hb, hthrough⟩
  obtain ⟨w, hr⟩ := through_iff.mp hthrough
  have hread := parseFile_reads hp
  rw [filled_full hlen hfull hb, reads_behind hs hk hits hr] at hread
  cases hread

/-- Without an entry `parse_file` says so. -/
theorem parseFile_missing {s : List UInt8} (hs : sect ≠ []) (hk : key ≠ [])
    (hlen : s.length < maxFileSize) (hno : ¬ HasMatch sect key s) (hstays : Stays sect key s) :
    ∃ f, parseFile sect key (filled s) = .ok (false, f) := by
  obtain ⟨its, hits, hb⟩ := exists_items true s
  cases hr : run (itemStep sect key) {} its with
  | error r =>
    obtain ⟨found, f⟩ := r
    cases found with
    | true => exact (hno ⟨its, hits, hb, hasMatch_of_walk hr⟩).elim
    | false =>
      rw [filled_items hlen hb]
      exact ⟨f, parseFile_stops hs hk hits hr _⟩
  | ok w =>
    have hroom : s.length + 1 < maxFileSize :=
      hstays.resolve_right fun h => h ⟨its, hits, hb, through_iff.mpr ⟨w, hr⟩⟩
    obtain ⟨k, hbuf⟩ := filled_room hroom hb
    rw [hbuf]
    exact ⟨w.spans, parseFile_through hs hk hits hr _⟩

/-- It returns exactly where it stays in the buffer. -/
theorem stays_iff {s : List UInt8} (hs : sect ≠ []) (hk : key ≠ []) (hlen : s.length < maxFileSize) :
    Stays sect key s ↔ ∃ r, parseFile sect key (filled s) = .ok r := by
  refine ⟨fun h => ?_, fun ⟨r, hr⟩ => stays_of_parse hs hk hlen hr⟩
  rcases Classical.em (HasMatch sect key s) with ⟨its, hits, hb, hverdict⟩ | hno
  · obtain ⟨f, hr⟩ := hasMatch_walk hverdict
    rw [filled_items hlen hb]
    exact ⟨_, parseFile_stops hs hk hits hr _⟩
  · obtain ⟨f, hp⟩ := parseFile_missing hs hk hlen hno h
    exact ⟨_, hp⟩

/-- The offsets that it returns: one more than the file has bytes is the most, and a value lies in the
    file. -/
theorem parseFile_spans {s : List UInt8} (hs : sect ≠ []) (hk : key ≠ [])
    (hlen : s.length < maxFileSize) {found : Bool}
    (hp : parseFile sect key (filled s) = .ok (found, f)) : f.Within (s.length + 1) ∧
      (f.keyS ≠ -1 → 0 ≤ f.valueS ∧ f.valueS ≤ f.valueE ∧ f.valueE ≤ s.length) := by
  obtain ⟨its, hits, hb⟩ := exists_items true s
  have hbytes : (itemBytes its).length = s.length + 1 := by
    rw [hb, List.length_append, List.length_singleton]
  cases hr : run (itemStep sect key) {} its with
  | error r =>
    have hparse := parseFile_stops hs hk hits hr (List.replicate (maxFileSize - s.length - 1) 0)
    rw [← filled_items hlen hb, hp] at hparse
    obtain rfl := Except.ok.inj hparse
    have hwithin := kept_start.run_error hr
    refine ⟨hwithin.mono (by rw [hbytes]; dsimp only; omega), fun hkey => ?_⟩
    cases found with
    | false => exact (hkey (missing_of_error kept_start hr)).elim
    | true =>
      obtain ⟨a, t, b, hsplit, -, hvs, hve⟩ := value_of_error kept_start hits hr
      have hvalue := hwithin.value
      rw [hbytes] at hvalue
      dsimp only [Between] at hvalue hvs hve
      omega
  | ok w =>
    have hroom : s.length + 1 < maxFileSize := (stays_of_parse hs hk hlen hp).resolve_right fun h =>
      h ⟨its, hits, hb, through_iff.mpr ⟨w, hr⟩⟩
    obtain ⟨k, hbuf⟩ := filled_room hroom hb
    have hparse := parseFile_through hs hk hits hr (List.replicate k 0)
    rw [← hbuf, hp] at hparse
    obtain ⟨rfl, rfl⟩ := Prod.mk.inj (Except.ok.inj hparse)
    obtain ⟨hkept, hpos⟩ := kept_start.run_ok hr
    have hwithin := hkept.within
    rw [hpos, hbytes] at hwithin
    exact ⟨hwithin.mono (by dsimp only; omega), fun hkey => (hkey hkept.key.1).elim⟩

/-! ### The bounds -/

/-- `parse_file` returns after some number of turns without a read outside of the buffer, and its
    offsets lie in the file. -/
def ParsesWithin (sect key buf : List UInt8) (size : ℕ) : Prop :=
  ∃ n r, (memory buf).parseFile sect key n = some r ∧ r.2.Within size

theorem parses_of_stops {s : List UInt8} (hs : sect ≠ []) (hk : key ≠ [])
    (hlen : s.length < maxFileSize) (hits : Items true its) (hb : itemBytes its = s ++ [0])
    (hr : run (itemStep sect key) {} its = .error r) :
    ParsesWithin sect key (filled s) s.length := by
  have hparse := parseFile_stops hs hk hits hr (List.replicate (maxFileSize - s.length - 1) 0)
  rw [← filled_items hlen hb] at hparse
  have hwithin := kept_start.run_error hr
  rw [hb, List.length_append, List.length_singleton] at hwithin
  exact ⟨_, r, parseFile_reads hparse, hwithin.mono (by dsimp only; omega)⟩

/-- With another NUL behind the file the scanner stays in the buffer. Where the file does not end in
    a header, its offsets are in the file. -/
theorem parses_of_through {s : List UInt8} (hs : sect ≠ []) (hk : key ≠ [])
    (hlen : s.length < maxFileSize) (hits : Items true its) (hb : itemBytes its = s ++ [0])
    (hr : run (itemStep sect key) {} its = .ok w) :
    ParsesWithin sect key (filled s) s.length ↔ s.length + 1 < maxFileSize ∧ ¬ CutOff its := by
  have hbytes : (itemBytes its).length = s.length + 1 := by
    rw [hb, List.length_append, List.length_singleton]
  rcases Nat.lt_or_ge (s.length + 1) maxFileSize with hroom | hfull
  · obtain ⟨k, hbuf⟩ := filled_room hroom hb
    have hparse := parseFile_through hs hk hits hr (List.replicate k 0)
    rw [← hbuf] at hparse
    have hiff : ParsesWithin sect key (filled s) s.length ↔ w.spans.Within s.length := by
      constructor
      · rintro ⟨n, r, hread, hwithin⟩
        rw [← List.append_nil (filled s)] at hparse
        rw [parse_agrees hread hparse] at hwithin
        exact hwithin
      · intro hwithin
        exact ⟨_, _, parseFile_reads hparse, hwithin⟩
    rw [hiff, and_iff_right hroom]
    obtain ⟨init, it, rfl, hcut⟩ := last_item hits hb
    cases it with
    | token t => exact (hcut t rfl).elim
    | cutLine text =>
      have hwithin := within_of_cutLine kept_start hr
      rw [hbytes] at hwithin
      refine iff_of_true (hwithin.mono (by dsimp only; omega)) ?_
      rintro ⟨init', name, heq⟩
      cases List.append_inj_right' heq rfl
    | cutHeader name =>
      refine iff_of_false (fun hwithin => ?_) (not_not.mpr ⟨init, name, rfl⟩)
      have hsec := secE_of_cutHeader kept_start hr
      rw [hbytes] at hsec
      rcases hwithin.sec with ⟨-, h⟩ | ⟨-, -, h⟩
      · omega
      · dsimp only at hsec
        omega
  · refine iff_of_false ?_ fun h => absurd h.1 (by omega)
    rintro ⟨n, r, hread, -⟩
    rw [filled_full hlen hfull hb, reads_behind hs hk hits hr] at hread
    cases hread

/-- CORRECT: `parse_file` stays in the buffer and its offsets in the file exactly if the scanner does
    not come through the whole file, or the file leaves two NULs behind it and does not end in a
    header. -/
theorem parseFile_within_iff {bytes buf : List UInt8} {size : ℕ} (hs : sect ≠ []) (hk : key ≠ [])
    (hload : loadIniFile (some bytes) = .ok (some (buf, size))) :
    ParsesWithin sect key buf size ↔
      ∀ its, Items true its → itemBytes its = bytes.takeWhile (· ≠ eof) ++ [0] →
        Through sect key its → size + 1 < maxFileSize ∧ ¬ CutOff its := by
  obtain ⟨rfl, rfl, hlen⟩ := loadIniFile_ok hload
  constructor
  · intro h its hits hb hthrough
    obtain ⟨w, hr⟩ := through_iff.mp hthrough
    exact (parses_of_through hs hk hlen hits hb hr).mp h
  · intro h
    obtain ⟨its, hits, hb⟩ := exists_items true (bytes.takeWhile (· ≠ eof))
    cases hr : run (itemStep sect key) {} its with
    | error r => exact parses_of_stops hs hk hlen hits hb hr
    | ok w =>
      exact (parses_of_through hs hk hlen hits hb hr).mpr
        (h its hits hb (through_iff.mpr ⟨w, hr⟩))

/-- An entry is found before the end of the file. -/
theorem parseFile_within_entry :
    ParsesWithin (ascii "a") (ascii "k") (filled (ascii "[a]\nk=v\n")) 8 ∧
      ∀ its, Items true its → itemBytes its = ascii "[a]\nk=v\n" ++ [0] →
        Through (ascii "a") (ascii "k") its → 8 + 1 < maxFileSize ∧ ¬ CutOff its := by
  have hparse : ParsesWithin (ascii "a") (ascii "k") (filled (ascii "[a]\nk=v\n")) 8 :=
    ⟨10, _, rfl, Or.inr (by decide), Or.inr (by decide), Or.inr (by decide)⟩
  have hload : loadIniFile (some (ascii "[a]\nk=v\n")) =
      .ok (some (filled (ascii "[a]\nk=v\n"), 8)) := loadIniFile_eq (by decide)
  exact ⟨hparse, (parseFile_within_iff (by decide) (by decide) hload).mp hparse⟩

/-- A file of one `[`: the section that is found ends behind the NUL. -/
theorem parseFile_leaves_file :
    loadIniFile (some (ascii "[")) = .ok (some (filled (ascii "["), 1)) ∧
      ¬ ParsesWithin (ascii "a") (ascii "k") (filled (ascii "[")) 1 := by
  refine ⟨loadIniFile_eq (by decide), fun h => ?_⟩
  have hits : Items true [.cutHeader []] := ⟨⟨rfl, fun c hc => absurd hc List.not_mem_nil⟩, trivial⟩
  have hiff : ParsesWithin (ascii "a") (ascii "k") (filled (ascii "[")) 1 ↔
      1 + 1 < maxFileSize ∧ ¬ CutOff [.cutHeader []] :=
    parses_of_through (s := ascii "[") (by decide) (by decide) (by decide) hits rfl rfl
  exact (hiff.mp h).2 ⟨[], [], rfl⟩

end

end AcqBoard.Ini
