import AcqBoard.Ini.Storage

/-! What a NUL does in a profile.

    The buffer behind a file is zero, and a file may have NULs of its own. To the scanner a NUL ends a
    header like a `]` and a line like a newline; it stops there only if it is in no section that
    passes, in the white space behind a header, or where a line would begin. In the other cases it
    steps over the NUL:

        [name NUL     a header that passes    ->  the white space behind it
        text NUL      a line of its section   ->  the next line, which does not count as one

    So a file is a list of items that ends in a cut one, and an automaton over the three places of the
    scanner tells whether it comes through all of them. -/

namespace AcqBoard.Ini
open Schemes

inductive Item where
  | token (t : Token)
  | cutLine (text : List UInt8)     -- a line that ends in a NUL
  | cutHeader (name : List UInt8)   -- a header without its `]`

def Item.bytes : Item → List UInt8
  | .token t => t.bytes
  | .cutLine text => text ++ [0]
  | .cutHeader name => byte '[' :: (name ++ [0])

/-- An item can stand where a line starts, or in the middle of one. -/
def Item.Fits : Bool → Item → Prop
  | start, .token t => t.Fits start
  | start, .cutLine text => Plain start text
  | start, .cutHeader name => start = true ∧ Named name

/-- Whether a line starts behind the item. -/
def Item.starts : Item → Bool
  | .token t => t.starts
  | _ => false

def Items : Bool → List Item → Prop
  | _, [] => True
  | start, it :: its => it.Fits start ∧ Items it.starts its

def itemBytes (its : List Item) : List UInt8 := its.flatMap Item.bytes

/-- Why the scanner does not come through the items. -/
inductive Verdict where
  | entry
  | stops
  deriving DecidableEq

/-- The scanner stops at the NUL behind the text. -/
def Place.Stops (p : Place) (text : List UInt8) : Prop :=
  p = .outside ∨ (p = .fresh ∧ ∀ b ∈ text, isSpace b = true) ∨ text = []

instance (p : Place) (text : List UInt8) : Decidable (p.Stops text) :=
  inferInstanceAs (Decidable (_ ∨ _ ∧ _ ∨ _))

/-- A line from one place to the next. -/
def lineNext (key : List UInt8) (p : Place) (text : List UInt8) : Except Verdict Place :=
  if p = .outside then .ok .outside
  else if p = .fresh ∧ text.all isSpace = true then .ok .fresh
  else match matchKey key (text.drop (p.skipped text)) with
    | none => .ok .inside
    | some _ => .error .entry

def Item.next (sect key : List UInt8) (p : Place) : Item → Except Verdict Place
  | .token (.header name) => .ok (if name <+: sect then .fresh else .outside)
  | .token (.line text _) => lineNext key p text
  | .cutLine text => if p.Stops text then .error .stops else lineNext key p text
  | .cutHeader name => if name <+: sect then .ok .fresh else .error .stops

/-- The scanner steps over every NUL of the items and finds no entry. -/
def Through (sect key : List UInt8) (its : List Item) : Prop :=
  ∃ p, run (Item.next sect key) .outside its = .ok p

/-- The file ends within a header. -/
def CutOff (its : List Item) : Prop := ∃ init name, its = init ++ [.cutHeader name]

/-- The walk over an item, or the answer with which it ends. -/
def itemStep (sect key : List UInt8) (w : Walk) : Item → Except (Bool × Spans) Walk
  | .token t => (step sect key w t).mapError (true, ·)
  | .cutLine text =>
    if w.place.Stops text then .error (answer (w.readLine key text text.length))
    else (w.readLine key text (text.length + 1)).mapError (true, ·)
  | .cutHeader name =>
    if name <+: sect then .ok (w.readHeader sect name (name.length + 2)) else .error (false, w.spans)

/-! ### The code walks over the items -/

section
variable {sect key pre rest : List UInt8} {w : Walk} {its : List Item}

theorem lineStart_item (pre : List UInt8) {it : Item} {start : Bool} (h : it.Fits start) :
    lineStart (pre ++ it.bytes) = it.starts := by
  cases it with
  | token t => exact lineStart_token pre h
  | cutLine text =>
    rw [Item.bytes, ← List.append_assoc]
    exact lineStart_concat _ 0
  | cutHeader name =>
    rw [Item.bytes, ← List.cons_append, ← List.append_assoc]
    exact lineStart_concat _ 0

variable (sect key rest) in
/-- A header without its `]`. -/
theorem resumes_cutHeader {name : List UInt8} (hat : w.At pre) (hl : lineStart pre = true)
    (hn : Named name) : w.Leads sect key rest id pre (Item.cutHeader name).bytes
      (itemStep sect key w (.cutHeader name)) := by
  have hbuf : pre ++ ((Item.cutHeader name).bytes ++ rest) =
      pre ++ byte '[' :: (name ++ 0 :: rest) := by simp [Item.bytes]
  have hpos : w.pos + (name.length + 2) = (pre ++ (Item.cutHeader name).bytes).length := by
    simp only [Item.bytes, List.length_append, List.length_cons, List.length_nil, hat.pos]
  unfold Walk.Leads
  rw [itemStep, hbuf]
  by_cases hpre : name <+: sect
  · rw [if_pos hpre, readHeader_fresh hpre]
    refine ⟨⟨hpos, fun _ => by simp [Item.bytes], fun _ => rfl⟩, fun {r} h => ?_⟩
    refine resumes_of_returns hat (Or.inr ⟨hl, rfl⟩) (returns_header hl hn (Or.inr rfl) ?_)
    obtain ⟨b, hb, hscan, hin⟩ : Fresh sect key (pre ++ byte '[' :: (name ++ 0 :: rest))
      (w.pos + (name.length + 2)) _ r := h
    rw [hat.pos, ← Nat.add_assoc] at hb hscan
    rw [hat.pos] at hin
    rw [if_pos hpre]
    exact ⟨b, hb, hscan, hin⟩
  · rw [if_neg hpre]
    refine resumes_of_returns hat (Or.inr ⟨hl, rfl⟩) (returns_header hl hn (Or.inr rfl) ?_)
    have hend : pre ++ byte '[' :: (name ++ 0 :: rest) = pre ++ byte '[' :: name ++ 0 :: rest := by
      simp
    have hlen : pre.length + name.length + 1 = (pre ++ byte '[' :: name).length := by
      simp only [List.length_append, List.length_cons]
      omega
    rw [if_neg hpre, hend, hlen]
    exact returns_end

variable (sect key rest) in
/-- A line that ends in a NUL. -/
theorem resumes_cutLine {text : List UInt8} (hat : w.At pre) (ht : Plain (lineStart pre) text) :
    w.Leads sect key rest id pre (Item.cutLine text).bytes (itemStep sect key w (.cutLine text)) := by
  have hbuf : pre ++ ((Item.cutLine text).bytes ++ rest) = pre ++ (text ++ 0 :: rest) := by
    simp [Item.bytes]
  have hpos : w.pos + (text.length + 1) = (pre ++ (Item.cutLine text).bytes).length := by
    rw [hat.pos, List.length_append, Item.bytes, List.length_append, List.length_singleton]
  unfold Walk.Leads
  rw [itemStep, hbuf]
  by_cases hstop : w.place.Stops text
  · rw [if_pos hstop]
    exact resumes_tail_stop hat ht hstop
  · rw [if_neg hstop]
    rw [Place.Stops, not_or, not_or] at hstop
    obtain ⟨hout, hblank, hne⟩ := hstop
    have hin := resumes_entered sect key rest hat ht hout hblank
      (Or.inr ⟨rfl, drop_skipped_ne hout hblank hne⟩)
    rw [readLine_entered hout hblank]
    cases hm : matchKey key (text.drop (w.place.skipped text)) with
    | none =>
      rw [hm] at hin
      refine ⟨⟨hpos, fun _ => by simp [Item.bytes], fun h => Place.noConfusion h⟩, fun {r} h => ?_⟩
      unfold Walk.Resumes at h
      dsimp only at h
      rw [hat.pos] at h
      exact hin h
    | some k =>
      rw [hm] at hin
      exact hin

variable (sect key rest) in
/-- One item. -/
theorem resumes_item {it : Item} (hat : w.At pre) (h : it.Fits (lineStart pre)) :
    w.Leads sect key rest id pre it.bytes (itemStep sect key w it) := by
  cases it with
  | token t =>
    have hstep := resumes_step sect key rest hat h
    rw [itemStep]
    cases hw : step sect key w t with
    | error f =>
      rw [hw] at hstep
      exact hstep
    | ok w' =>
      rw [hw] at hstep
      exact hstep
  | cutLine text => exact resumes_cutLine sect key rest hat h
  | cutHeader name => exact resumes_cutHeader sect key rest hat h.1 h.2

variable (sect key rest) in
/-- All the items. -/
theorem resumes_items (hat : w.At pre) (h : Items (lineStart pre) its) :
    w.Leads sect key rest id pre (itemBytes its) (run (itemStep sect key) w its) := by
  refine leads_run (L := Items) ?_ ?_ hat h
  · intro pre it its hits
    rw [lineStart_item pre hits.1]
    exact hits.2
  · intro w pre it its rest hat hits
    exact resumes_item sect key rest hat hits.1

end

/-! ### Files are items -/

theorem items_append {its jts : List Item} {start : Bool} (h : Items start (its ++ jts)) :
    Items start its ∧ ∃ start', Items start' jts := by
  induction its generalizing start with
  | nil => exact ⟨trivial, start, h⟩
  | cons it its ih =>
    obtain ⟨hits, hjts⟩ := ih h.2
    exact ⟨⟨h.1, hits⟩, hjts⟩

theorem items_tokens {ts : List Token} {start : Bool} {its : List Item} (h : Tokens start ts)
    (hits : Items (startAfter start ts) its) : Items start (ts.map .token ++ its) := by
  induction ts generalizing start with
  | nil => exact hits
  | cons t ts ih => exact ⟨h.1, ih h.2 hits⟩

theorem itemBytes_tokens (ts : List Token) (its : List Item) :
    itemBytes (ts.map .token ++ its) = bytesOf ts ++ itemBytes its := by
  rw [itemBytes, List.flatMap_append, List.flatMap_map]
  rfl

/-- The end of a text and its NUL are a cut item. -/
theorem exists_cut {start : Bool} {tail : Tail} (h : tail.Fits start) :
    ∃ it : Item, it.Fits start ∧ it.bytes = tail.bytes ++ [0] ∧ it.starts = false := by
  cases tail with
  | line text => exact ⟨.cutLine text, h, rfl, rfl⟩
  | opened name => exact ⟨.cutHeader name, h, rfl, rfl⟩

/-- Every file is a list of items, by induction on what is behind its next NUL. -/
theorem exists_items (start : Bool) (s : List UInt8) :
    ∃ its, Items start its ∧ itemBytes its = s ++ [0] := by
  induction hn : s.length using Nat.strong_induction_on generalizing start s with
  | _ n ih =>
    subst hn
    by_cases hs : (0 : UInt8) ∈ s
    · obtain ⟨l, r, rfl, hl⟩ := List.eq_append_cons_of_mem hs
      obtain ⟨ts, tail, hts, htail, hbytes⟩ := exists_tokens start l hl
      obtain ⟨it, hit, hitb, hstart⟩ := exists_cut htail
      obtain ⟨its, hits, hitsb⟩ := ih r.length (by simp; omega) false r rfl
      have hrest : Items (startAfter start ts) (it :: its) := ⟨hit, by rwa [hstart]⟩
      refine ⟨ts.map .token ++ it :: its, items_tokens hts hrest, ?_⟩
      rw [itemBytes_tokens, itemBytes, List.flatMap_cons, hitb, ← itemBytes, hitsb, ← hbytes]
      simp
    · obtain ⟨ts, tail, hts, htail, hbytes⟩ := exists_tokens start s hs
      obtain ⟨it, hit, hitb, -⟩ := exists_cut htail
      have hrest : Items (startAfter start ts) [it] := ⟨hit, trivial⟩
      refine ⟨ts.map .token ++ [it], items_tokens hts hrest, ?_⟩
      rw [itemBytes_tokens, itemBytes, List.flatMap_singleton, hitb, ← hbytes, List.append_assoc]

/-- The last item of a file is a cut one. -/
theorem last_item {its : List Item} {s : List UInt8} (h : Items true its)
    (hb : itemBytes its = s ++ [0]) : ∃ init it, its = init ++ [it] ∧ ∀ t, it ≠ .token t := by
  rcases List.eq_nil_or_concat its with rfl | ⟨init, it, rfl⟩
  · exact absurd hb.symm (List.append_ne_nil_of_right_ne_nil s (List.cons_ne_nil 0 []))
  rw [List.concat_eq_append] at h hb ⊢
  refine ⟨init, it, rfl, ?_⟩
  rintro t rfl
  obtain ⟨-, start, hfits, -⟩ := items_append h
  have hlast : (itemBytes init ++ t.bytes).getLast? = some 0 := by
    rw [itemBytes, List.flatMap_append, List.flatMap_singleton] at hb
    exact (congrArg List.getLast? hb).trans List.getLast?_concat
  have hne : t.bytes ≠ [] := by
    cases t with
    | header name => exact List.cons_ne_nil _ _
    | line text nl => exact List.append_ne_nil_of_right_ne_nil text (List.cons_ne_nil nl [])
  obtain ⟨u, c, huc⟩ := (List.eq_nil_or_concat t.bytes).resolve_left hne
  rw [huc, List.concat_eq_append, ← List.append_assoc, List.getLast?_concat] at hlast
  obtain rfl := Option.some.inj hlast
  exact hfits.zero (by simp [huc])

/-! ### The automaton -/

/-- What the automaton sees of a walk. -/
def verdictOf : Except (Bool × Spans) Walk → Except Verdict Place
  | .ok w => .ok w.place
  | .error r => .error (if r.1 then .entry else .stops)

section
variable {sect key : List UInt8} {w : Walk}

theorem verdictOf_readLine (w : Walk) (text : List UInt8) (len : ℕ) :
    verdictOf ((w.readLine key text len).mapError (true, ·)) = lineNext key w.place text := by
  unfold lineNext
  split
  · rename_i hout
    rw [readLine_outside hout]
    exact congrArg Except.ok hout
  · rename_i hout
    split
    · rename_i hblank
      rw [readLine_blank hblank.1 (List.all_eq_true.mp hblank.2)]
      exact congrArg Except.ok hblank.1
    · rename_i hblank
      have hlook : ¬ (w.place = .fresh ∧ ∀ b ∈ text, isSpace b = true) :=
        fun h => hblank ⟨h.1, List.all_eq_true.mpr h.2⟩
      rw [readLine_entered hout hlook]
      cases matchKey key (text.drop (w.place.skipped text)) with
      | none => rfl
      | some k => rfl

theorem readHeader_place (w : Walk) (name : List UInt8) (len : ℕ) :
    (w.readHeader sect name len).place = if name <+: sect then .fresh else .outside := by
  unfold Walk.readHeader
  split <;> rfl

/-- Where the scanner stops there is no entry. -/
theorem answer_stops {text : List UInt8} (h : w.place.Stops text) (len : ℕ) :
    (answer (w.readLine key text len)).1 = false := by
  rcases eq_or_ne w.place .outside with hout | hout
  · rw [readLine_outside hout]
    rfl
  rcases Classical.em (w.place = .fresh ∧ ∀ b ∈ text, isSpace b = true) with hblank | hblank
  · rw [readLine_blank hblank.1 hblank.2]
    rfl
  · obtain rfl := (h.resolve_left hout).resolve_left hblank
    rw [readLine_entered hout hblank, List.drop_nil]
    rfl

theorem next_eq (w : Walk) (it : Item) :
    it.next sect key w.place = verdictOf (itemStep sect key w it) := by
  cases it with
  | token t =>
    cases t with
    | header name => exact congrArg Except.ok (readHeader_place w name _).symm
    | line text nl => exact (verdictOf_readLine w text _).symm
  | cutLine text =>
    rw [Item.next, itemStep]
    split
    · rename_i hstop
      rw [verdictOf, answer_stops hstop]
      rfl
    · exact (verdictOf_readLine w text _).symm
  | cutHeader name =>
    rw [Item.next, itemStep]
    split
    · rename_i hpre
      rw [readHeader_fresh hpre]
      rfl
    · rfl

/-- The automaton follows the walk. -/
theorem run_next (w : Walk) (its : List Item) : run (Item.next sect key) w.place its =
    verdictOf (run (itemStep sect key) w its) := by
  induction its generalizing w with
  | nil => rfl
  | cons it its ih =>
    rw [run_cons, run_cons, next_eq]
    cases itemStep sect key w it with
    | error r => rfl
    | ok w' => exact ih w'

end

end AcqBoard.Ini
