import AcqBoard.App.Configuration
import AcqBoard.Schemes.CString
import AcqBoard.Schemes.FileTree

/-! `CreateDir`: the data directory and what is above it.

    The function copies the path, adds a slash if there is none at its end, and cuts the copy at each
    slash but a first one:

        /sd//data     ->     /sd     /sd/     /sd//data

    A name that does not exist is made; of one that exists nothing else is asked. Everything in front
    of a further name has to be a directory for that name to be found or made, so only the last name
    can be a file when the function reports success. -/

namespace AcqBoard.Directories
open Schemes FileTree App

/-- The path of a call: a string as `Configuration` has it in `s_SdDataDIR`, not empty. -/
structure PathName extends DataDir where
  nonempty : bytes ≠ []

/-- `strlen` of the string in the 256 bytes of `DirName`. -/
def strlen (dirName : ℕ → UInt8) : ℕ := (cstr dirName 0 256).length

/-- `strcat(DirName, "/")`, if the last byte is another one. -/
def strcatSlash (dirName : ℕ → UInt8) : ℕ → UInt8 :=
  if dirName (strlen dirName - 1) ≠ slash then load dirName (strlen dirName) [slash] else dirName

/-- The loop of `CreateDir` from index `i` on. -/
def createDirLoop (e : Rights) : ℕ → ℕ → (ℕ → UInt8) → FileTree → FileTree × UInt32
  | 0, _, _, t => (t, 1)
  | n + 1, i, dirName, t =>
    if dirName i = slash then
      let cut := nulAt dirName i
      if t.access e (cstr cut 0 256) ≠ 0 then
        match t.mkdir e (cstr cut 0 256) with
        | none => (t, 0)
        | some t => createDirLoop e n (i + 1) (Function.update cut i slash) t
      else createDirLoop e n (i + 1) (Function.update cut i slash) t
    else createDirLoop e n (i + 1) dirName t

/-- `CreateDir`, on whatever the stack holds in `DirName`. The empty path is read before its first
    byte. -/
def createDir (e : Rights) (dirName : ℕ → UInt8) (sPathName : List UInt8) (t : FileTree) :
    Except Fault (FileTree × UInt32) :=
  let dirName := load dirName 0 sPathName
  if strlen dirName = 0 then .error .outOfRange
  else
    let dirName := strcatSlash dirName
    .ok (createDirLoop e (strlen dirName - 1) 1 dirName t)

/-! ### The cuts -/

/-- The path with a slash at its end. -/
def ended (p : List UInt8) : List UInt8 := if p.getLast? = some slash then p else p ++ [slash]

/-- What stands in front of each slash of `r`, behind `l`. -/
def cutsFrom : List UInt8 → List UInt8 → List (List UInt8)
  | _, [] => []
  | l, b :: r => if b = slash then l :: cutsFrom (l ++ [b]) r else cutsFrom (l ++ [b]) r

/-- The names that the loop tests. -/
def cuts (s : List UInt8) : List (List UInt8) := cutsFrom (s.take 1) (s.drop 1)

/-- One name; a failure leaves the tree as it is. -/
def cutStep (e : Rights) (t : FileTree) (q : List UInt8) : Except FileTree FileTree :=
  if t.access e q ≠ 0 then
    match t.mkdir e q with
    | none => .error t
    | some t => .ok t
  else .ok t

/-- What `CreateDir` returns at the end of the loop, or at the first failure. -/
def outcome : Except FileTree FileTree → FileTree × UInt32
  | .ok t => (t, 1)
  | .error t => (t, 0)

section
variable {e : Rights} {t : FileTree} {m : ℕ → UInt8} {p l r : List UInt8}

/-- The cut is undone before the next one, so that the loop tests the cuts of one string. -/
theorem createDirLoop_eq (h : Holds m 0 (l ++ r)) (hlen : (l ++ r).length < 256) (t : FileTree) :
    createDirLoop e r.length l.length m t = outcome (run (cutStep e) t (cutsFrom l r)) := by
  induction r generalizing l t with
  | nil => rfl
  | cons b r ih =>
    have hb : m l.length = b := by
      have htail := holds_append h
      rw [Nat.zero_add] at htail
      exact htail.1
    have hnext : Holds m 0 ((l ++ [b]) ++ r) := by rwa [List.append_assoc]
    have hlen' : ((l ++ [b]) ++ r).length < 256 := by rwa [List.append_assoc]
    have hstep : ∀ t, createDirLoop e r.length (l.length + 1) m t =
        outcome (run (cutStep e) t (cutsFrom (l ++ [b]) r)) := by
      intro t
      have heq := ih hnext hlen' t
      rwa [List.length_append, List.length_singleton] at heq
    rw [List.length_cons, createDirLoop, cutsFrom, hb]
    by_cases hs : b = slash
    · have hrestore : Function.update (nulAt m l.length) l.length slash = m := by
        rw [nulAt, Function.update_idem, ← hs, ← hb, Function.update_eq_self]
      have hname : cstr (nulAt m l.length) 0 256 = l := by
        have hcut := holds_cut_left h
        rw [Nat.zero_add] at hcut
        refine cstr_of_holds hcut ?_
        rw [List.length_append] at hlen
        omega
      rw [if_pos hs, if_pos hs, run_cons]
      dsimp only
      rw [hname, hrestore, cutStep]
      by_cases ha : t.access e l ≠ 0
      · rw [if_pos ha, if_pos ha]
        cases t.mkdir e l with
        | none => rfl
        | some t' => exact hstep t'
      · rw [if_neg ha, if_neg ha]
        exact hstep t
    · rw [if_neg hs, if_neg hs]
      exact hstep t

theorem strlen_of_holds (h : Holds m 0 p) (hlen : p.length < 256) : strlen m = p.length := by
  rw [strlen, cstr_of_holds h hlen]

theorem not_mem_ended (h : (0 : UInt8) ∉ p) : (0 : UInt8) ∉ ended p := by
  rw [ended]
  split
  · exact h
  · exact List.not_mem_append h (by decide)

theorem strcatSlash_load (hp : p ≠ []) (h0 : (0 : UInt8) ∉ p) (hlen : p.length < 256) :
    strcatSlash (load m 0 p) = load m 0 (ended p) := by
  obtain ⟨q, b, rfl⟩ := (List.eq_nil_or_concat p).resolve_left hp
  rw [List.concat_eq_append] at h0 hlen ⊢
  have hholds := holds_load (m := m) (p := 0) h0
  have hlast : load m 0 (q ++ [b]) ((q ++ [b]).length - 1) = b := by
    have htail := (holds_append hholds).1
    rw [Nat.zero_add] at htail
    rw [List.length_append, List.length_singleton, Nat.add_sub_cancel, htail]
  rw [strcatSlash, strlen_of_holds hholds hlen, hlast, ended, List.getLast?_concat]
  by_cases hb : b = slash
  · rw [if_neg (not_not.mpr hb), if_pos (by rw [hb])]
  · rw [if_pos hb, if_neg fun h => hb (Option.some.inj h), ← load_concat slash, Nat.zero_add]
    exact Function.update_comm (by omega) _ _ _

theorem take_drop_ended (h : ended p ≠ []) :
    (ended p).take 1 ++ (ended p).drop 1 = ended p ∧ ((ended p).take 1).length = 1 := by
  have hpos := List.length_pos_iff.mpr h
  exact ⟨List.take_append_drop 1 _, by rw [List.length_take]; omega⟩

theorem createDir_eq (e : Rights) (m : ℕ → UInt8) (p : PathName) (t : FileTree) :
    createDir e m p.bytes t = .ok (outcome (run (cutStep e) t (cuts (ended p.bytes)))) := by
  have hlen : p.bytes.length < 256 := lt_trans p.fits (by decide)
  have hlen' : (ended p.bytes).length < 256 := by
    have hfits := p.fits
    rw [ended]
    split
    · exact hlen
    · rw [List.length_append, List.length_singleton]
      omega
  have hne : ended p.bytes ≠ [] := by
    rw [ended]
    split
    · exact p.nonempty
    · simp
  have hholds := holds_load (m := m) (p := 0) (not_mem_ended p.noNul)
  obtain ⟨hsplit, hone⟩ := take_drop_ended hne
  have hloop := createDirLoop_eq (e := e) (m := load m 0 (ended p.bytes))
    (by rwa [hsplit]) (by rwa [hsplit]) t
  rw [hone, List.length_drop] at hloop
  rw [createDir]
  dsimp only
  rw [strlen_of_holds (holds_load p.noNul) hlen,
    if_neg (Nat.ne_of_gt (List.length_pos_iff.mpr p.nonempty)),
    strcatSlash_load p.nonempty p.noNul hlen, strlen_of_holds hholds hlen', hloop]
  rfl

/-- The string function and the one that only looks at the last byte fail alike. -/
theorem createDir_fails_iff (e : Rights) (m : ℕ → UInt8) (dir : DataDir) (t : FileTree) :
    (∃ r, createDir e m dir.bytes t = .ok r) ↔ App.createDir dir = .ok () := by
  rw [App.createDir]
  by_cases hd : dir.bytes = []
  · rw [if_pos (by rw [hd]; rfl), hd]
    exact iff_of_false (by rintro ⟨r, hr⟩; cases hr) (by simp)
  · rw [if_neg (by rwa [List.length_eq_zero_iff])]
    exact iff_of_true ⟨_, createDir_eq e m ⟨dir, hd⟩ t⟩ rfl

/-- The next name has at most one component more. -/
def Adj (q q' : List UInt8) : Prop := names q' = names q ∨ ∃ c, names q' = names q ++ [c]

/-- The last cut was `q`, and `w` is behind its slash. -/
theorem isChain_cutsFrom {q w : List UInt8} (hw : slash ∉ w)
    (hl : ∀ s, names (l ++ s) = names q ++ names (w ++ s)) : (q :: cutsFrom l r).IsChain Adj := by
  induction r generalizing l q w with
  | nil => exact List.isChain_singleton q
  | cons b r ih =>
    rw [cutsFrom]
    by_cases hb : b = slash
    · rw [if_pos hb, List.isChain_cons_cons, hb]
      refine ⟨?_, ih List.not_mem_nil fun s => ?_⟩
      · have hnames := hl []
        rw [List.append_nil, List.append_nil, names_of_not_mem hw] at hnames
        split at hnames
        · exact Or.inl (hnames.trans (List.append_nil _))
        · exact Or.inr ⟨w, hnames⟩
      · rw [List.append_assoc, List.singleton_append, names_append, List.nil_append]
    · rw [if_neg hb]
      refine ih (w := w ++ [b]) ?_ fun s => ?_
      · exact List.not_mem_append hw fun h => hb (List.mem_singleton.mp h).symm
      · rw [List.append_assoc, List.append_assoc, hl]

theorem isChain_cuts (s : List UInt8) : ([] :: cuts s).IsChain Adj := by
  cases s with
  | nil => exact List.isChain_singleton _
  | cons b s =>
    rw [cuts, List.take_succ_cons, List.take_zero, List.drop_succ_cons, List.drop_zero]
    by_cases hb : b = slash
    · refine isChain_cutsFrom (w := []) List.not_mem_nil fun r => ?_
      rw [hb, List.singleton_append, ← List.nil_append (slash :: r), names_append]
      rfl
    · refine isChain_cutsFrom (w := [b]) (fun h => hb (List.mem_singleton.mp h).symm) fun r => ?_
      rfl

theorem cutsFrom_append (l r s : List UInt8) :
    cutsFrom l (r ++ s) = cutsFrom l r ++ cutsFrom (l ++ r) s := by
  induction r generalizing l with
  | nil => rw [List.append_nil]; rfl
  | cons b r ih =>
    rw [List.cons_append, cutsFrom, cutsFrom, ih, List.append_assoc, List.singleton_append]
    split <;> rfl

theorem mem_cutsFrom {q : List UInt8} (h : q ∈ cutsFrom l r) :
    l <+: q ∧ ∃ s, q ++ slash :: s = l ++ r := by
  induction r generalizing l with
  | nil => cases h
  | cons b r ih =>
    have hrest : q ∈ cutsFrom (l ++ [b]) r → l <+: q ∧ ∃ s, q ++ slash :: s = l ++ b :: r := by
      intro h
      obtain ⟨hl, s, hs⟩ := ih h
      exact ⟨(List.prefix_append l [b]).trans hl, s, by rw [hs, List.append_assoc]; rfl⟩
    rw [cutsFrom] at h
    split at h
    · rename_i hb
      rcases List.mem_cons.mp h with rfl | h
      · exact ⟨List.prefix_refl _, r, by rw [hb]⟩
      · exact hrest h
    · exact hrest h

/-- The last cut is in front of the slash at the end. -/
theorem cuts_ended {q : List UInt8} (hq : q ≠ []) : ∃ init, cuts (q ++ [slash]) = init ++ [q] ∧
    ∀ x ∈ init, x ++ [slash] ≠ q ++ [slash] := by
  obtain ⟨b, q, rfl⟩ := List.exists_cons_of_ne_nil hq
  refine ⟨cutsFrom [b] q, ?_, fun x hx heq => ?_⟩
  · change cutsFrom [b] (q ++ [slash]) = _
    rw [cutsFrom_append]
    rfl
  · obtain ⟨-, s, hs⟩ := mem_cutsFrom hx
    rw [(List.append_inj' heq rfl).1] at hs
    have hlen := congrArg List.length hs
    simp at hlen

/-- A name that is tested is a prefix of the path. -/
theorem prefix_of_mem_cuts {q : List UInt8} (hp : p ≠ []) (h : q ∈ cuts (ended p)) :
    q <+: p ∧ q ≠ [] := by
  have hne : ended p ≠ [] := by
    rw [ended]
    split
    · exact hp
    · simp
  obtain ⟨hsplit, hone⟩ := take_drop_ended hne
  obtain ⟨hl, s, hs⟩ := mem_cutsFrom h
  rw [hsplit] at hs
  refine ⟨?_, ?_⟩
  · rw [ended] at hs
    split at hs
    · exact ⟨_, hs⟩
    · rcases List.eq_nil_or_concat s with rfl | ⟨s, b, rfl⟩
      · exact ⟨[], by rw [List.append_nil, (List.append_inj' hs rfl).1]⟩
      · rw [List.concat_eq_append, ← List.cons_append, ← List.append_assoc] at hs
        exact ⟨_, (List.append_inj' hs rfl).1⟩
  · rintro rfl
    rw [List.prefix_nil.mp hl] at hone
    cases hone

theorem names_ended (p : List UInt8) : names (ended p) = names p := by
  rw [ended]
  split
  · rfl
  · exact names_slash p

theorem names_prefix {q : List UInt8} (h : q ++ slash :: r = ended p) : names q <+: names p := by
  rw [← names_ended p, ← h, names_append]
  exact List.prefix_append _ _

/-- A prefix of the path begins where the path begins. -/
theorem find_of_front {q : List UInt8} (h : q <+: p) (hq : q ≠ []) (t : FileTree) (e : Rights)
    (ns : List Component) : t.find e q ns = t.find e p ns := by
  obtain ⟨s, rfl⟩ := h
  obtain ⟨b, q, rfl⟩ := List.exists_cons_of_ne_nil hq
  rfl

end

/-! ### The law -/

/-- The law of a call with the path `p` on the tree `t`. Success: the path and its ancestors are
    directories. In any case nothing else changes but that directories are added at prefixes of the
    path, the first in one that was there and each further one in the one before. Failure: one of
    them cannot be made. -/
structure Lawful (e : Rights) (p : List UInt8) (t : FileTree) (r : FileTree × UInt32) : Prop where
  dirs : r.2 = 1 → ∀ ns, ns <+: names p →
    ∃ s, r.1.find e p ns = some s ∧ r.1.isDir s.1 = true
  made : ∃ made, Extended t r.1 made ∧
    (∀ m ∈ made, ∃ q k, q <+: p ∧ r.1.find e p (names q) = some (m.id, k)) ∧ Chained made
  failed : r.2 ≠ 1 → r.2 = 0 ∧ ∃ q, q <+: p ∧ r.1.access e q ≠ 0 ∧ r.1.mkdir e q = none

/-- Before the last name: it leads to no file. -/
def LastOpen (e : Rights) (p : List UInt8) (t : FileTree) (q : List UInt8) : Prop :=
  q ++ [slash] = ended p → ∀ s, t.resolve e q = some s → t.isDir s.1 = true

/-- Before a name that is made, if one was made since `t₀`: what stands in front of it leads to the
    directory that was made last, which has the greatest number. -/
def InLine (e : Rights) (t₀ t : FileTree) (q : List UInt8) : Prop :=
  t.access e q ≠ 0 → t.mkdir e q ≠ none → t.next ≠ t₀.next →
    ∃ k, t.find e q (names q).dropLast = some (t.next - 1, k)

/-- The condition, before each name. -/
def NameOpen (e : Rights) (p : List UInt8) (t₀ t : FileTree) (q : List UInt8) : Prop :=
  LastOpen e p t q ∧ InLine e t₀ t q

/-- What holds behind the directories `made` under the second condition. -/
structure Inv (e : Rights) (p : List UInt8) (t₀ t : FileTree) (made : List Made) : Prop where
  extended : Extended t₀ t made
  prefixes : ∀ m ∈ made, ∃ q k, q <+: p ∧ t.find e p (names q) = some (m.id, k)
  chained : Chained made
  count : t.next = t₀.next + made.length
  last : ∀ m ∈ made.getLast?, m.id + 1 = t.next

section
variable {e : Rights} {t₀ t t' : FileTree} {p q q' : List UInt8} {made : List Made}

/-- Step lemma, for a name that is made. -/
theorem Inv.mkdir (h : Inv e p t₀ t made) (hpre : q <+: p) (hne : q ≠ []) (ha : t.access e q ≠ 0)
    (hline : InLine e t₀ t q) (hmk : t.mkdir e q = some t') :
    ∃ m, Inv e p t₀ t' (made ++ [m]) := by
  obtain ⟨ps, c, d, k, hd, hnames, hps, hc, -, -, rfl, hfind⟩ := mkdir_eq_some hmk
  have hgrows := grows_add hd hc
  rw [find_of_front hpre hne] at hfind
  refine ⟨⟨d, c, t.next⟩, h.extended.add hd hc, ?_, ?_, ?_, ?_⟩
  · rw [List.forall_mem_append, List.forall_mem_singleton]
    refine ⟨fun m hm => ?_, q, k, hpre, hfind⟩
    obtain ⟨x, j, hx, hj⟩ := h.prefixes m hm
    exact ⟨x, j, hx, hgrows.find hj⟩
  · refine h.chained.append (List.isChain_singleton _) ?_
    rintro m hm _ ⟨⟩
    have hpos := List.length_pos_of_mem (List.mem_of_getLast? hm)
    have hcount := h.count
    have hlast := h.last m hm
    obtain ⟨j, hj⟩ := hline ha (by rw [hmk]; simp) (by omega)
    rw [hnames, List.dropLast_concat, hps] at hj
    obtain rfl := (Prod.mk.inj (Option.some.inj hj)).1
    change t.next - 1 = m.id
    omega
  · rw [List.length_append, List.length_singleton, ← Nat.add_assoc, ← h.count]
    rfl
  · intro m hm
    rw [List.getLast?_concat] at hm
    obtain rfl := Option.some.inj hm
    rfl

/-- The three ways of a step. -/
theorem cutStep_cases (e : Rights) (t : FileTree) (q : List UInt8) :
    (t.access e q = 0 ∧ cutStep e t q = .ok t) ∨
    (t.access e q ≠ 0 ∧ t.mkdir e q = none ∧ cutStep e t q = .error t) ∨
    (t.access e q ≠ 0 ∧ ∃ t', t.mkdir e q = some t' ∧ cutStep e t q = .ok t') := by
  unfold cutStep
  by_cases ha : t.access e q = 0
  · exact Or.inl ⟨ha, if_neg (not_not.mpr ha)⟩
  · rw [if_pos ha]
    cases t.mkdir e q with
    | none => exact Or.inr (Or.inl ⟨ha, rfl, rfl⟩)
    | some t' => exact Or.inr (Or.inr ⟨ha, t', rfl, rfl⟩)

theorem cutStep_error {x : FileTree} (h : cutStep e t q = .error x) :
    x = t ∧ t.access e q ≠ 0 ∧ t.mkdir e q = none := by
  rcases cutStep_cases e t q with ⟨-, hstep⟩ | ⟨ha, hmk, hstep⟩ | ⟨-, t', -, hstep⟩
  · cases hstep.symm.trans h
  · exact ⟨Except.error.inj (h.symm.trans hstep), ha, hmk⟩
  · cases hstep.symm.trans h

/-- Run lemma: by induction on the names. -/
theorem Inv.run {qs : List (List UInt8)} (h : Inv e p t₀ t made)
    (hqs : ∀ x ∈ qs, x <+: p ∧ x ≠ []) (hm : Meets (cutStep e) (InLine e t₀) t qs) :
    ∃ made', Inv e p t₀ (outcome (Schemes.run (cutStep e) t qs)).1 made' := by
  induction qs generalizing t made with
  | nil => exact ⟨made, h⟩
  | cons x qs ih =>
    obtain ⟨⟨hpre, hne⟩, hrest⟩ := List.forall_mem_cons.mp hqs
    rw [run_cons]
    rcases cutStep_cases e t x with ⟨-, hstep⟩ | ⟨-, -, hstep⟩ | ⟨ha, t', hmk, hstep⟩
    · rw [hstep]
      exact ih h hrest (hm.2 t hstep)
    · rw [hstep]
      exact ⟨made, h⟩
    · obtain ⟨m, hmade⟩ := h.mkdir hpre hne ha hm.1 hmk
      rw [hstep]
      exact ih hmade hrest (hm.2 t' hstep)

/-! ### The chain needs the second condition -/

/-- The tree behind the names, whatever is made: it has grown by numbered directories. -/
theorem numbered_run (e : Rights) (qs : List (List UInt8)) (h : Numbered t₀ t) :
    Numbered t₀ (outcome (Schemes.run (cutStep e) t qs)).1 ∧
      Grows t (outcome (Schemes.run (cutStep e) t qs)).1 := by
  induction qs generalizing t with
  | nil => exact ⟨h, Grows.refl t⟩
  | cons x qs ih =>
    rw [run_cons]
    rcases cutStep_cases e t x with ⟨-, hstep⟩ | ⟨-, -, hstep⟩ | ⟨-, t', hmk, hstep⟩
    · rw [hstep]
      exact ih h
    · rw [hstep]
      exact ⟨h, Grows.refl t⟩
    · obtain ⟨-, c, d, -, hd, -, -, hc, -, -, rfl, -⟩ := mkdir_eq_some hmk
      obtain ⟨hnum, hgrows⟩ := ih (h.add hd)
      rw [hstep]
      exact ⟨hnum, (grows_add hd hc).trans hgrows⟩

/-- If in the end each new directory but the first is in the one before, every step met the
    condition. -/
theorem meets_inLine_of_line {qs : List (List UInt8)} (h : Numbered t₀ t)
    (hline : ∀ i d, t₀.next < i →
      (outcome (Schemes.run (cutStep e) t qs)).1.node i = some (.dir d) → d + 1 = i) :
    Meets (cutStep e) (InLine e t₀) t qs := by
  induction qs generalizing t with
  | nil => trivial
  | cons x qs ih =>
    rw [run_cons] at hline
    rcases cutStep_cases e t x with ⟨ha, hstep⟩ | ⟨-, hmk, hstep⟩ | ⟨-, t', hmk, hstep⟩
    · rw [hstep] at hline
      refine ⟨fun hne => absurd ha hne, fun u hu => ?_⟩
      obtain rfl := Except.ok.inj (hstep.symm.trans hu)
      exact ih h hline
    · refine ⟨fun _ hne => absurd hmk hne, fun u hu => ?_⟩
      rw [hstep] at hu
      cases hu
    · obtain ⟨ps, c, d, k, hd, hnames, hps, hc, -, -, rfl, -⟩ := mkdir_eq_some hmk
      obtain ⟨-, hgrows⟩ := numbered_run e qs (h.add (c := c) hd)
      have hnode : (t.add d c hd).node t.next = some (.dir d) := Function.update_self _ _ _
      rw [hstep] at hline
      refine ⟨fun _ _ hne => ⟨k, ?_⟩, fun u hu => ?_⟩
      · have hd' := hline t.next d (Nat.lt_of_le_of_ne h.next (Ne.symm hne))
          (hgrows.node _ _ hnode)
        have hlast : t.next - 1 = d := by omega
        rw [hnames, List.dropLast_concat, hps, hlast]
      · obtain rfl := Except.ok.inj (hstep.symm.trans hu)
        exact ih (h.add hd) hline

/-- What is added, and the second condition. -/
theorem made_iff {qs : List (List UInt8)} (hqs : ∀ x ∈ qs, x <+: p ∧ x ≠ []) :
    (∃ made, Extended t (outcome (Schemes.run (cutStep e) t qs)).1 made ∧
      (∀ m ∈ made, ∃ q k, q <+: p ∧
        (outcome (Schemes.run (cutStep e) t qs)).1.find e p (names q) = some (m.id, k)) ∧
      Chained made) ↔ Meets (cutStep e) (InLine e t) t qs := by
  constructor
  · rintro ⟨made, hext, -, hchained⟩
    obtain ⟨hnum, -⟩ := numbered_run e qs (Numbered.refl t)
    exact meets_inLine_of_line (Numbered.refl t)
      fun i d hi hd => parent_of_chained hnum hext hchained hi hd
  · intro hm
    have hstart : Inv e p t t [] := ⟨Extended.refl t, by simp, List.isChain_nil, rfl, by simp⟩
    obtain ⟨made, hinv⟩ := hstart.run hqs hm
    exact ⟨made, hinv.extended, hinv.prefixes, hinv.chained⟩

/-! ### Paths that do not step back -/

/-- The name `q` leads to the directory that was made last, if one was made, and this one is empty. -/
def Tip (e : Rights) (p : List UInt8) (t₀ : FileTree) (q : List UInt8) (t : FileTree) : Prop :=
  t.next ≠ t₀.next → (∃ k, t.find e p (names q) = some (t.next - 1, k)) ∧
    ∀ c, t.entry (t.next - 1) c = none

/-- Step lemma, for a name that is there. -/
theorem Tip.found (h : Tip e p t₀ q t) (hadj : Adj q q') (hpre : q' <+: p) (hne : q' ≠ [])
    (hnames : names q' <+: names p) (hback : dotdot ∉ names p) (ha : t.access e q' = 0) :
    Tip e p t₀ q' t := by
  intro hnew
  obtain ⟨⟨k, hk⟩, hempty⟩ := h hnew
  refine ⟨?_, hempty⟩
  obtain ⟨r, hr⟩ := access_eq_zero.mp ha
  obtain ⟨hfind, -⟩ := resolve_eq_some hr
  rw [find_of_front hpre hne] at hfind
  rcases hadj with heq | ⟨c, heq⟩
  · exact ⟨k, by rw [heq, hk]⟩
  · rw [heq] at hfind hnames ⊢
    -- a new directory has no entries, and the path does not step back
    obtain ⟨s, hs, hc⟩ := walk_append_eq_some.mp hfind
    obtain rfl := Option.some.inj (hs.symm.trans hk)
    have hmem : c ∈ names p := hnames.subset (List.mem_append_right _ (List.mem_singleton_self c))
    obtain rfl := walk_empty hc (hempty c) fun heq => hback (heq ▸ hmem)
    exact ⟨k, hfind⟩

/-- Step lemma, for a name that is made: it is in line, and the last directory now. -/
theorem Tip.mkdir (h : Tip e p t₀ q t) (hadj : Adj q q') (hpre : q' <+: p) (hne : q' ≠ [])
    (hmk : t.mkdir e q' = some t') : InLine e t₀ t q' ∧ Tip e p t₀ q' t' := by
  obtain ⟨ps, c, d, k, hd, hnames, hps, hc, -, hdotdot, rfl, hfind⟩ := mkdir_eq_some hmk
  rw [find_of_front hpre hne] at hps hfind
  refine ⟨fun _ _ hnew => ⟨k, ?_⟩, fun _ => ⟨⟨k, hfind⟩, add_empty hd⟩⟩
  obtain ⟨⟨j, hj⟩, -⟩ := h hnew
  rw [hnames, List.dropLast_concat, find_of_front hpre hne, hps]
  rcases hadj with heq | ⟨x, heq⟩
  · -- the directory that was made last would be the missing entry
    rw [← heq, hnames] at hj
    obtain ⟨s, hs, hlast⟩ := walk_append_eq_some.mp hj
    obtain rfl := Option.some.inj (hs.symm.trans hps)
    rw [(Prod.mk.inj (walk_empty hlast hc hdotdot)).1]
  · rw [heq] at hnames
    obtain ⟨rfl, -⟩ := List.append_inj' hnames rfl
    rw [(Prod.mk.inj (Option.some.inj (hps.symm.trans hj))).1]

/-- Run lemma: without `..` in the path the second condition is always met. -/
theorem Tip.meets {qs : List (List UInt8)} (h : Tip e p t₀ q t) (hback : dotdot ∉ names p)
    (hadj : (q :: qs).IsChain Adj)
    (hqs : ∀ x ∈ qs, x <+: p ∧ x ≠ [] ∧ names x <+: names p) :
    Meets (cutStep e) (InLine e t₀) t qs := by
  induction qs generalizing q t with
  | nil => trivial
  | cons x qs ih =>
    obtain ⟨hx, hchain⟩ := List.isChain_cons_cons.mp hadj
    obtain ⟨⟨hpre, hne, hnames⟩, hrest⟩ := List.forall_mem_cons.mp hqs
    rcases cutStep_cases e t x with ⟨ha, hstep⟩ | ⟨-, hmk, hstep⟩ | ⟨-, t', hmk, hstep⟩
    · refine ⟨fun hn => absurd ha hn, fun u hu => ?_⟩
      obtain rfl := Except.ok.inj (hstep.symm.trans hu)
      exact ih (h.found hx hpre hne hnames hback ha) hchain hrest
    · refine ⟨fun _ hn => absurd hmk hn, fun u hu => ?_⟩
      rw [hstep] at hu
      cases hu
    · obtain ⟨hline, htip⟩ := h.mkdir hx hpre hne hmk
      refine ⟨hline, fun u hu => ?_⟩
      obtain rfl := Except.ok.inj (hstep.symm.trans hu)
      exact ih htip hchain hrest

/-! ### The last name -/

/-- If a path leads to a directory, so do the names in front. -/
theorem dirs_of_find {s : ℕ × ℕ} (h : t.find e p (names p) = some s) (hd : t.isDir s.1 = true)
    {ns : List Component} (hns : ns <+: names p) :
    ∃ s, t.find e p ns = some s ∧ t.isDir s.1 = true := by
  obtain ⟨bs, hbs⟩ := hns
  rw [← hbs] at h
  by_cases hb : bs = []
  · rw [hb, List.append_nil] at h
    exact ⟨s, h, hd⟩
  · obtain ⟨x, hx, -⟩ := walk_append_eq_some.mp h
    exact ⟨x, hx, isDir_of_walk h hx hb⟩

/-- The last name decides. -/
theorem dirs_step (hpre : q <+: p) (hne : q ≠ []) (hnames : names q = names p) :
    ((outcome (cutStep e t q)).2 = 1 → ∀ ns, ns <+: names p →
      ∃ s, (outcome (cutStep e t q)).1.find e p ns = some s ∧
        (outcome (cutStep e t q)).1.isDir s.1 = true) ↔
    ∀ s, t.resolve e q = some s → t.isDir s.1 = true := by
  rcases cutStep_cases e t q with ⟨ha, hstep⟩ | ⟨ha, -, hstep⟩ | ⟨ha, t', hmk, hstep⟩
  · obtain ⟨r, hr⟩ := access_eq_zero.mp ha
    have hfind := (resolve_eq_some hr).1
    rw [find_of_front hpre hne, hnames] at hfind
    rw [hstep]
    constructor
    · intro h s hs
      obtain ⟨x, hx, hd⟩ := h rfl _ (List.prefix_refl _)
      obtain rfl := Option.some.inj (hr.symm.trans hs)
      obtain rfl := Option.some.inj (hfind.symm.trans hx)
      exact hd
    · exact fun h _ ns hns => dirs_of_find hfind (h r hr) hns
  · rw [hstep]
    refine iff_of_true (fun h => ?_) fun s hs => absurd (access_eq_zero.mpr ⟨s, hs⟩) ha
    cases h
  · refine iff_of_true ?_ fun s hs => absurd (access_eq_zero.mpr ⟨s, hs⟩) ha
    obtain ⟨ps, c, d, k, hd, -, -, -, -, -, rfl, hfind⟩ := mkdir_eq_some hmk
    rw [find_of_front hpre hne, hnames] at hfind
    rw [hstep]
    have hnode : (t.add d c hd).node t.next = some (.dir d) := Function.update_self _ _ _
    exact fun _ ns hns => dirs_of_find hfind (isDir_iff.mpr ⟨d, hnode⟩) hns

/-- Only the last name has a condition. -/
theorem meets_last {init : List (List UInt8)} (hq : q ++ [slash] = ended p)
    (hinit : ∀ x ∈ init, x ++ [slash] ≠ ended p) :
    Meets (cutStep e) (LastOpen e p) t (init ++ [q]) ↔
      ∀ u, Schemes.run (cutStep e) t init = .ok u →
        ∀ s, u.resolve e q = some s → u.isDir s.1 = true := by
  induction init generalizing t with
  | nil =>
    constructor
    · intro h u hu
      obtain rfl : t = u := by simpa using hu
      exact h.1 hq
    · exact fun h => ⟨fun _ => h t rfl, fun _ _ => trivial⟩
  | cons x init ih =>
    obtain ⟨hx, hinit⟩ := List.forall_mem_cons.mp hinit
    constructor
    · intro h u hu
      obtain ⟨v, hv, hu⟩ := run_cons_ok.mp hu
      exact (ih hinit).mp (h.2 v hv) u hu
    · intro h
      exact ⟨fun heq => absurd heq hx, fun v hv => (ih hinit).mpr fun u hu =>
        h u (run_cons_ok.mpr ⟨v, hv, hu⟩)⟩

theorem exists_ended (p : List UInt8) : ∃ q, q ++ [slash] = ended p := by
  rw [ended]
  split
  · obtain ⟨q, hq⟩ := List.getLast?_eq_some_iff.mp ‹_›
    exact ⟨q, hq.symm⟩
  · exact ⟨p, rfl⟩

theorem mem_cuts (hp : p ≠ []) (h : q ∈ cuts (ended p)) :
    q <+: p ∧ q ≠ [] ∧ names q <+: names p := by
  obtain ⟨hpre, hne⟩ := prefix_of_mem_cuts hp h
  obtain ⟨-, s, hs⟩ := mem_cutsFrom h
  exact ⟨hpre, hne, names_prefix (hs.trans (List.take_append_drop 1 _))⟩

/-- What a success promises, and the condition. -/
theorem dirs_iff (hp : p ≠ []) :
    ((outcome (Schemes.run (cutStep e) t (cuts (ended p)))).2 = 1 → ∀ ns, ns <+: names p →
      ∃ s, (outcome (Schemes.run (cutStep e) t (cuts (ended p)))).1.find e p ns = some s ∧
        (outcome (Schemes.run (cutStep e) t (cuts (ended p)))).1.isDir s.1 = true) ↔
    Meets (cutStep e) (LastOpen e p) t (cuts (ended p)) := by
  obtain ⟨q, hq⟩ := exists_ended p
  by_cases hne : q = []
  · have hcuts : cuts (ended p) = [] := by rw [← hq, hne]; rfl
    have hnames : names p = [] := by rw [← names_ended, ← hq, hne]; rfl
    rw [hcuts, hnames]
    refine iff_of_true (fun _ ns hns => ?_) trivial
    rw [List.prefix_nil.mp hns]
    exact ⟨_, walk_nil _ _ _ _, isDir_origin t p⟩
  · obtain ⟨init, hinit, hlast⟩ := cuts_ended hne
    rw [hq] at hinit hlast
    have hmem : q ∈ cuts (ended p) := by rw [hinit]; exact List.mem_concat_self
    obtain ⟨hpre, -, -⟩ := mem_cuts hp hmem
    have hnames : names q = names p := by rw [← names_ended p, ← hq, names_slash]
    rw [hinit, meets_last hq hlast, run_append]
    cases hrun : Schemes.run (cutStep e) t init with
    | error u =>
      refine iff_of_true (fun h => ?_) fun v hv => by cases hv
      cases h
    | ok u =>
      have hlaststep : (Except.ok u >>= fun v => Schemes.run (cutStep e) v [q]) = cutStep e u q := by
        change (cutStep e u q >>= fun v => .ok v) = _
        cases cutStep e u q <;> rfl
      rw [hlaststep, dirs_step hpre hne hnames]
      exact ⟨fun h v hv => Except.ok.inj hv ▸ h, fun h => h u rfl⟩

/-- A call that fails has met a name that is missing and cannot be made. -/
theorem failed_run (hp : p ≠ []) {r : FileTree × UInt32}
    (hr : r = outcome (run (cutStep e) t (cuts (ended p)))) (hfail : r.2 ≠ 1) :
    r.2 = 0 ∧ ∃ q, q <+: p ∧ r.1.access e q ≠ 0 ∧ r.1.mkdir e q = none := by
  cases hrun : run (cutStep e) t (cuts (ended p)) with
  | ok u =>
    rw [hr, hrun] at hfail
    exact absurd rfl hfail
  | error u =>
    obtain ⟨pre, q, post, v, hsplit, -, hq⟩ := run_eq_error hrun
    obtain ⟨rfl, ha, hmk⟩ := cutStep_error hq
    have hmem : q ∈ cuts (ended p) := by
      rw [hsplit]
      exact List.mem_append_right _ List.mem_cons_self
    rw [hr, hrun]
    exact ⟨rfl, q, (mem_cuts hp hmem).1, ha, hmk⟩

end

/-- CORRECT (directories): on every tree and under all rights a call with a path that is not empty
    keeps the law exactly if the last name that it tests leads to no file when it is tested, and every
    further name that it makes is in the directory that it made last. -/
theorem createDir_lawful_iff (e : Rights) (m : ℕ → UInt8) (p : PathName) (t : FileTree) :
    (∃ r, createDir e m p.bytes t = .ok r ∧ Lawful e p.bytes t r) ↔
      Meets (cutStep e) (NameOpen e p.bytes t) t (cuts (ended p.bytes)) := by
  have hqs : ∀ x ∈ cuts (ended p.bytes), x <+: p.bytes ∧ x ≠ [] := fun x hx =>
    prefix_of_mem_cuts p.nonempty hx
  unfold NameOpen
  rw [meets_and, ← dirs_iff p.nonempty, ← made_iff hqs, createDir_eq]
  constructor
  · rintro ⟨r, hr, h⟩
    obtain rfl := Except.ok.inj hr
    exact ⟨h.dirs, h.made⟩
  · rintro ⟨hdirs, hmade⟩
    exact ⟨_, rfl, hdirs, hmade, failed_run p.nonempty rfl⟩

/-- CORRECT (paths that do not step back): without `..` the last name alone decides. -/
theorem createDir_plain_iff (e : Rights) (m : ℕ → UInt8) (p : PathName) (t : FileTree)
    (hback : dotdot ∉ names p.bytes) :
    (∃ r, createDir e m p.bytes t = .ok r ∧ Lawful e p.bytes t r) ↔
      Meets (cutStep e) (LastOpen e p.bytes) t (cuts (ended p.bytes)) := by
  have hstart : Tip e p.bytes t [] t := fun h => absurd rfl h
  have hline := hstart.meets hback (isChain_cuts _) fun x hx => mem_cuts p.nonempty hx
  have hqs : ∀ x ∈ cuts (ended p.bytes), x <+: p.bytes ∧ x ≠ [] := fun x hx =>
    prefix_of_mem_cuts p.nonempty hx
  rw [← dirs_iff p.nonempty, createDir_eq]
  constructor
  · rintro ⟨r, hr, h⟩
    obtain rfl := Except.ok.inj hr
    exact h.dirs
  · exact fun hdirs => ⟨_, rfl, hdirs, (made_iff hqs).mpr hline, failed_run p.nonempty rfl⟩

/-- A tree with the file `f`. -/
def oneFile : FileTree where
  node := fun i => if i = 0 then some (.dir 0) else if i = 1 then some .file else none
  entry := fun d c => if d = 0 ∧ c = ascii "f" then some 1 else none
  root := 0
  cwd := 0
  next := 2
  fresh := fun i hi => by rw [if_neg (by omega), if_neg (by omega)]
  parent := by
    intro d p hp
    split at hp
    · obtain rfl := Node.dir.inj (Option.some.inj hp)
      simp
    · split at hp
      · cases hp
      · cases hp
  entries := by
    intro d c i hi
    split at hi
    · rename_i hd
      obtain rfl := Option.some.inj hi
      exact ⟨⟨0, if_pos hd.1⟩, by simp⟩
    · cases hi
  rootDir := ⟨0, rfl⟩
  cwdDir := ⟨0, rfl⟩

/-- A file in the place of the directory passes for it. -/
theorem createDir_file : ¬ ∀ (e : Rights) (m : ℕ → UInt8) (p : PathName) (t : FileTree)
    (r : FileTree × UInt32), createDir e m p.bytes t = .ok r → Lawful e p.bytes t r := by
  intro h
  have hlaw := h ⟨fun _ _ => true, fun _ _ => true, 40⟩ (fun _ => 0)
    ⟨⟨ascii "f", by decide, by decide⟩, by decide⟩ oneFile _ (createDir_eq _ _ _ _)
  have hlast := ((dirs_iff (by decide)).mp hlaw.dirs).1 rfl (1, 40) (by decide)
  exact absurd hlast (by decide)

/-- Of `a/../b` both directories are made side by side, although the last name leads to no file. -/
example : ¬ Meets (cutStep ⟨fun _ _ => true, fun _ _ => true, 40⟩)
    (InLine ⟨fun _ _ => true, fun _ _ => true, 40⟩ oneFile) oneFile
    (cuts (ended (ascii "a/../b"))) := by
  intro h
  obtain ⟨k, hk⟩ := ((h.2 _ rfl).2 _ rfl).1 (by decide +kernel) (by decide +kernel) (by decide +kernel)
  have hroot : some (0, 40) = some (2, k) := hk
  exact absurd (Prod.mk.inj (Option.some.inj hroot)).1 (by decide)

end AcqBoard.Directories
