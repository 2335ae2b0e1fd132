import AcqBoard.Schemes.Text
import Mathlib.Data.List.Chain
import Mathlib.Logic.Function.Basic

/-! A POSIX file system, as far as `access` and `mkdir` look at it.

    Nodes are numbered; a directory knows its parent, a symbolic link its text. A path is followed
    component by component from the root or the working directory, through symbolic links, of which a
    bounded number may be met. A path that ends in a slash names a directory: for the search it has a
    last component `.`.

    Whether a directory may be searched or written, and whether there is room, is up to `Rights`:
    everything is stated for all of them. Directories are only added, and everything that was found
    before is found afterwards (`walk_mono`). -/

namespace Schemes

/-- A name in a directory. -/
abbrev Component := List UInt8

abbrev slash : UInt8 := 47
abbrev dot : Component := [46]
abbrev dotdot : Component := [46, 46]

inductive Node where
  | dir (parent : ℕ)
  | file
  | link (text : List UInt8)
  deriving DecidableEq

def Node.isDir : Node → Bool
  | .dir _ => true
  | _ => false

/-- The nodes from `next` on are not in use; entries are in directories and name nodes. -/
structure FileTree where
  node : ℕ → Option Node
  entry : ℕ → Component → Option ℕ
  root : ℕ
  cwd : ℕ
  next : ℕ
  fresh : ∀ i, next ≤ i → node i = none
  parent : ∀ d p, node d = some (.dir p) → node p ≠ none
  entries : ∀ d c i, entry d c = some i → (∃ p, node d = some (.dir p)) ∧ node i ≠ none
  rootDir : ∃ p, node root = some (.dir p)
  cwdDir : ∃ p, node cwd = some (.dir p)

/-- What the process may do, and how many links a path may lead through. -/
structure Rights where
  search : ℕ → Component → Bool
  create : ℕ → Component → Bool
  links : ℕ

/-- The names in a path. -/
def names (p : List UInt8) : List Component := (p.splitOn slash).filter (· ≠ [])

/-- The components that a search follows. -/
def components (p : List UInt8) : List Component :=
  if p.getLast? = some slash ∧ names p ≠ [] then names p ++ [dot] else names p

namespace FileTree

def isDir (t : FileTree) (i : ℕ) : Bool := (t.node i).any Node.isDir

/-- Where a path begins that is met in the directory `d`. -/
def origin (t : FileTree) (d : ℕ) (p : List UInt8) : ℕ := if p.head? = some slash then t.root else d

/-- One component. -/
def look (t : FileTree) (e : Rights) (d : ℕ) (c : Component) : Option ℕ :=
  match t.node d with
  | some (.dir p) =>
    if e.search d c then
      if c = dot then some d else if c = dotdot then some p else t.entry d c
    else none
  | _ => none

/-- The components up to a link, with `n` links left. -/
def walkWith (t : FileTree) (e : Rights) (n : ℕ) (follow : ℕ → List Component → Option (ℕ × ℕ)) :
    ℕ → List Component → Option (ℕ × ℕ)
  | d, [] => some (d, n)
  | d, c :: cs => (t.look e d c).bind fun i =>
    match t.node i with
    | some (.link text) => follow (t.origin d text) (components text ++ cs)
    | _ => walkWith t e n follow i cs

/-- The node at the end of the components, and the links that are left. -/
def walk (t : FileTree) (e : Rights) : ℕ → ℕ → List Component → Option (ℕ × ℕ)
  | 0 => t.walkWith e 0 fun _ _ => none
  | n + 1 => t.walkWith e (n + 1) (walk t e n)

/-- The node of a path. -/
def resolve (t : FileTree) (e : Rights) (p : List UInt8) : Option (ℕ × ℕ) :=
  if p = [] then none else t.walk e e.links (t.origin t.cwd p) (components p)

/-- `access(p, F_OK)`. -/
def access (t : FileTree) (e : Rights) (p : List UInt8) : Int32 :=
  if (t.resolve e p).isSome then 0 else -1

theorem isDir_iff {t : FileTree} {i : ℕ} : t.isDir i = true ↔ ∃ p, t.node i = some (.dir p) := by
  rw [isDir]
  cases t.node i with
  | none => simp
  | some n => cases n <;> simp [Node.isDir]

theorem lt_next {t : FileTree} {i : ℕ} (h : t.node i ≠ none) : i < t.next := by
  by_contra hge
  exact h (t.fresh i (Nat.not_lt.mp hge))

/-- A new directory in `d`. -/
def add (t : FileTree) (d : ℕ) (c : Component) (hd : t.isDir d = true) : FileTree where
  node := Function.update t.node t.next (some (.dir d))
  entry := fun x y => if x = d ∧ y = c then some t.next else t.entry x y
  root := t.root
  cwd := t.cwd
  next := t.next + 1
  fresh := fun i hi => (Function.update_of_ne (by omega) _ _).trans (t.fresh i (by omega))
  parent := by
    intro x p hx
    obtain ⟨q, hq⟩ := isDir_iff.mp hd
    rw [Function.update_apply] at hx ⊢
    split
    · simp
    · split at hx
      · obtain rfl := Node.dir.inj (Option.some.inj hx)
        simp [hq]
      · exact t.parent x p hx
  entries := by
    intro x y i hi
    have hkeep : ∀ n, t.node n ≠ none → Function.update t.node t.next (some (.dir d)) n = t.node n :=
      fun n hn => Function.update_of_ne (lt_next hn).ne _ _
    split at hi
    · rename_i hxy
      obtain ⟨q, hq⟩ := isDir_iff.mp hd
      obtain rfl := Option.some.inj hi
      rw [hxy.1, hkeep d (by simp [hq]), Function.update_self]
      exact ⟨⟨q, hq⟩, by simp⟩
    · obtain ⟨⟨q, hq⟩, hne⟩ := t.entries x y i hi
      rw [hkeep x (by simp [hq]), hkeep i hne]
      exact ⟨⟨q, hq⟩, hne⟩
  rootDir := by
    obtain ⟨p, hp⟩ := t.rootDir
    exact ⟨p, (Function.update_of_ne (lt_next (by simp [hp])).ne _ _).trans hp⟩
  cwdDir := by
    obtain ⟨p, hp⟩ := t.cwdDir
    exact ⟨p, (Function.update_of_ne (lt_next (by simp [hp])).ne _ _).trans hp⟩

/-- `mkdir(p)`: none if it fails. -/
def mkdir (t : FileTree) (e : Rights) (p : List UInt8) : Option FileTree :=
  match (names p).getLast?, t.walk e e.links (t.origin t.cwd p) (names p).dropLast with
  | some c, some (d, _) =>
    if h : t.isDir d = true ∧ t.entry d c = none ∧ c ≠ dot ∧ c ≠ dotdot ∧ e.search d c = true ∧
        e.create d c = true then
      some (t.add d c h.1)
    else none
  | _, _ => none

/-! ### Paths -/

section
variable {p q r : List UInt8}

/-- A slash separates the names. -/
theorem names_append (q r : List UInt8) : names (q ++ slash :: r) = names q ++ names r := by
  rw [names, List.splitOn_append_cons_self, List.filter_append]
  rfl

theorem names_of_not_mem (h : slash ∉ r) : names r = if r = [] then [] else [r] := by
  rw [names, List.splitOn_eq_singleton h]
  by_cases hr : r = [] <;> simp [hr]

theorem names_slash (q : List UInt8) : names (q ++ [slash]) = names q := by
  rw [names_append, names_of_not_mem List.not_mem_nil, if_pos rfl, List.append_nil]

theorem components_eq (p : List UInt8) :
    components p = names p ∨ components p = names p ++ [dot] := by
  rw [components]
  split
  · exact Or.inr rfl
  · exact Or.inl rfl

end

/-! ### Searches -/

section
variable {t t' : FileTree} {e : Rights} {n d : ℕ} {c : Component}

@[simp] theorem walk_nil (t : FileTree) (e : Rights) (n d : ℕ) : t.walk e n d [] = some (d, n) := by
  cases n <;> rfl

/-- The rest of a search behind a link. -/
def follow (t : FileTree) (e : Rights) : ℕ → ℕ → List Component → Option (ℕ × ℕ)
  | 0 => fun _ _ => none
  | n + 1 => t.walk e n

theorem walk_cons (t : FileTree) (e : Rights) (n d : ℕ) (c : Component) (cs : List Component) :
    t.walk e n d (c :: cs) = (t.look e d c).bind fun i =>
      match t.node i with
      | some (.link text) => t.follow e n (t.origin d text) (components text ++ cs)
      | _ => t.walk e n i cs := by
  cases n <;> rfl

/-- RULE: an induction on a search. Behind a link there is one link less, otherwise one component
    less. -/
theorem walk_induction {P : ℕ → ℕ → List Component → Prop} (nil : ∀ n d, P n d [])
    (cons : ∀ n d c cs, (∀ m, n = m + 1 → ∀ i as, P m i as) → (∀ i, P n i cs) → P n d (c :: cs))
    (n d : ℕ) (cs : List Component) : P n d cs := by
  induction n using Nat.strong_induction_on generalizing d cs with
  | _ n ihn =>
    induction cs generalizing d with
    | nil => exact nil n d
    | cons c cs ih => exact cons n d c cs (fun m hm => ihn m (by omega)) fun i => ih i

/-- A search goes on from where the first part of its components leads. -/
theorem walk_append (as bs : List Component) : t.walk e n d (as ++ bs) =
    (t.walk e n d as).bind fun r => t.walk e r.2 r.1 bs := by
  induction n, d, as using walk_induction with
  | nil n d =>
    rw [walk_nil]
    rfl
  | cons n d a as ihn ih =>
    rw [List.cons_append, walk_cons, walk_cons, Option.bind_assoc]
    refine congrArg _ (funext fun i => ?_)
    split
    · rw [← List.append_assoc]
      cases n with
      | zero => rfl
      | succ m => exact ihn m rfl _ _
    · exact ih i

theorem look_eq_some {i : ℕ} (h : t.look e d c = some i) : (∃ p, t.node d = some (.dir p) ∧
    (c = dot ∧ i = d ∨ c ≠ dot ∧ c = dotdot ∧ i = p ∨ c ≠ dot ∧ c ≠ dotdot ∧ t.entry d c = some i)) ∧
    e.search d c = true := by
  rw [look] at h
  split at h
  · rename_i p hp
    split at h
    · rename_i hs
      refine ⟨⟨p, hp, ?_⟩, hs⟩
      split at h
      · exact Or.inl ⟨‹_›, (Option.some.inj h).symm⟩
      · split at h
        · exact Or.inr (Or.inl ⟨‹_›, ‹_›, (Option.some.inj h).symm⟩)
        · exact Or.inr (Or.inr ⟨‹_›, ‹_›, h⟩)
    · cases h
  · cases h

theorem isDir_of_look {i : ℕ} (h : t.look e d c = some i) : t.isDir d = true := by
  obtain ⟨⟨p, hp, -⟩, -⟩ := look_eq_some h
  exact isDir_iff.mpr ⟨p, hp⟩

theorem node_of_look {i : ℕ} (h : t.look e d c = some i) : t.node i ≠ none := by
  obtain ⟨⟨p, hp, ⟨-, rfl⟩ | ⟨-, -, rfl⟩ | ⟨-, -, hentry⟩⟩, -⟩ := look_eq_some h
  · simp [hp]
  · exact t.parent d i hp
  · exact (t.entries d c i hentry).2

/-- `t'` has everything that `t` has. -/
structure Grows (t t' : FileTree) : Prop where
  node : ∀ i n, t.node i = some n → t'.node i = some n
  entry : ∀ d c i, t.entry d c = some i → t'.entry d c = some i
  root : t'.root = t.root
  cwd : t'.cwd = t.cwd

theorem Grows.refl (t : FileTree) : Grows t t :=
  ⟨fun _ _ h => h, fun _ _ _ h => h, rfl, rfl⟩

theorem Grows.trans {u : FileTree} (h : Grows t t') (h' : Grows t' u) : Grows t u :=
  ⟨fun i n hn => h'.node i n (h.node i n hn), fun d c i hi => h'.entry d c i (h.entry d c i hi),
    h'.root.trans h.root, h'.cwd.trans h.cwd⟩

theorem Grows.isDir {i : ℕ} (h : Grows t t') (hi : t.isDir i = true) : t'.isDir i = true := by
  obtain ⟨p, hp⟩ := isDir_iff.mp hi
  exact isDir_iff.mpr ⟨p, h.node i _ hp⟩

theorem grows_add (hd : t.isDir d = true) (hc : t.entry d c = none) : Grows t (t.add d c hd) where
  node := fun i n hn => (Function.update_of_ne (lt_next (by simp [hn])).ne _ _).trans hn
  entry := by
    intro x y i hi
    have hne : ¬ (x = d ∧ y = c) := by
      rintro ⟨rfl, rfl⟩
      rw [hc] at hi
      cases hi
    exact (if_neg hne).trans hi
  root := rfl
  cwd := rfl

/-- A new directory is empty. -/
theorem add_empty (hd : t.isDir d = true) (y : Component) : (t.add d c hd).entry t.next y = none := by
  obtain ⟨p, hp⟩ := isDir_iff.mp hd
  have hne : ¬ (t.next = d ∧ y = c) := fun h => absurd h.1 (lt_next (by simp [hp])).ne'
  refine (if_neg hne).trans ?_
  cases hy : t.entry t.next y with
  | none => rfl
  | some i =>
    obtain ⟨⟨q, hq⟩, -⟩ := t.entries _ _ _ hy
    rw [t.fresh _ (Nat.le_refl _)] at hq
    cases hq

theorem Grows.look {i : ℕ} (h : Grows t t') (hi : t.look e d c = some i) :
    t'.look e d c = some i := by
  obtain ⟨⟨p, hp, hcase⟩, hs⟩ := look_eq_some hi
  rw [FileTree.look, h.node d _ hp]
  dsimp only
  rw [if_pos hs]
  rcases hcase with ⟨hc, rfl⟩ | ⟨hc, hc', rfl⟩ | ⟨hc, hc', hentry⟩
  · rw [if_pos hc]
  · rw [if_neg hc, if_pos hc']
  · rw [if_neg hc, if_neg hc', h.entry d c i hentry]

/-- What was found before is found afterwards. -/
theorem Grows.walk {cs : List Component} {r : ℕ × ℕ} (h : Grows t t')
    (hr : t.walk e n d cs = some r) : t'.walk e n d cs = some r := by
  induction n, d, cs using walk_induction with
  | nil n d =>
    rw [walk_nil] at hr ⊢
    exact hr
  | cons n d c cs ihn ih =>
    rw [walk_cons] at hr ⊢
    obtain ⟨i, hi, hr⟩ := Option.bind_eq_some_iff.mp hr
    obtain ⟨node, hnode⟩ := Option.ne_none_iff_exists'.mp (node_of_look hi)
    have horigin : ∀ x p, t'.origin x p = t.origin x p := fun x p => by
      rw [origin, origin, h.root]
    rw [h.look hi, Option.bind_some, h.node i node hnode]
    rw [hnode] at hr
    cases node with
    | link text =>
      cases n with
      | zero => cases hr
      | succ m =>
        dsimp only at hr ⊢
        rw [horigin]
        exact ihn m rfl _ _ hr
    | dir p => exact ih i hr
    | file => exact ih i hr

theorem walk_append_eq_some {as bs : List Component} {r : ℕ × ℕ} :
    t.walk e n d (as ++ bs) = some r ↔
      ∃ s, t.walk e n d as = some s ∧ t.walk e s.2 s.1 bs = some r := by
  rw [walk_append, Option.bind_eq_some_iff]

/-- A last component that is no link. -/
theorem walk_single {i : ℕ} (h : t.look e d c = some i) (hl : ∀ text, t.node i ≠ some (.link text)) :
    t.walk e n d [c] = some (i, n) := by
  rw [walk_cons, h, Option.bind_some]
  split
  · exact absurd ‹_› (hl _)
  · exact walk_nil t e n i

theorem walk_dot {r : ℕ × ℕ} (h : t.walk e n d [dot] = some r) : r = (d, n) ∧ t.isDir d = true := by
  rw [walk_cons] at h
  obtain ⟨i, hi, h⟩ := Option.bind_eq_some_iff.mp h
  have hdir := isDir_of_look hi
  obtain ⟨⟨p, hp, ⟨-, rfl⟩ | ⟨hne, -⟩ | ⟨hne, -⟩⟩, -⟩ := look_eq_some hi
  · rw [hp] at h
    exact ⟨(Option.some.inj ((walk_nil t e n i).symm.trans h)).symm, hdir⟩
  · exact absurd rfl hne
  · exact absurd rfl hne

/-- From a directory without entries no component but `..` leads away. -/
theorem walk_empty {r : ℕ × ℕ} (h : t.walk e n d [c] = some r) (hempty : t.entry d c = none)
    (hc : c ≠ dotdot) : r = (d, n) := by
  by_cases hdot : c = dot
  · rw [hdot] at h
    exact (walk_dot h).1
  · rw [walk_cons] at h
    obtain ⟨i, hi, -⟩ := Option.bind_eq_some_iff.mp h
    obtain ⟨⟨p, -, ⟨h₁, -⟩ | ⟨-, h₂, -⟩ | ⟨-, -, h₃⟩⟩, -⟩ := look_eq_some hi
    · exact absurd h₁ hdot
    · exact absurd h₂ hc
    · rw [hempty] at h₃
      cases h₃

/-- What is searched through is a directory. -/
theorem isDir_of_walk {as bs : List Component} {r s : ℕ × ℕ} (h : t.walk e n d (as ++ bs) = some r)
    (hs : t.walk e n d as = some s) (hb : bs ≠ []) : t.isDir s.1 = true := by
  obtain ⟨s', hs', h⟩ := walk_append_eq_some.mp h
  obtain rfl := Option.some.inj (hs.symm.trans hs')
  obtain ⟨c, cs, rfl⟩ := List.exists_cons_of_ne_nil hb
  rw [walk_cons] at h
  obtain ⟨i, hi, -⟩ := Option.bind_eq_some_iff.mp h
  exact isDir_of_look hi

end

/-! ### Paths in a tree -/

section
variable {t t' : FileTree} {e : Rights} {p : List UInt8} {r : ℕ × ℕ}

/-- The names of the path, from where the path begins. -/
def find (t : FileTree) (e : Rights) (p : List UInt8) (ns : List Component) : Option (ℕ × ℕ) :=
  t.walk e e.links (t.origin t.cwd p) ns

/-- What a path leads to is what its names lead to; a slash at the end asks for a directory. -/
theorem resolve_eq_some (h : t.resolve e p = some r) :
    t.find e p (names p) = some r ∧ (components p ≠ names p → t.isDir r.1 = true) := by
  rw [resolve] at h
  split at h
  · cases h
  · rcases components_eq p with hc | hc
    · rw [hc] at h
      exact ⟨h, fun hne => absurd hc hne⟩
    · rw [hc] at h
      obtain ⟨s, hs, h⟩ := walk_append_eq_some.mp h
      obtain ⟨rfl, hdir⟩ := walk_dot h
      exact ⟨hs, fun _ => hdir⟩

theorem isDir_origin (t : FileTree) (p : List UInt8) : t.isDir (t.origin t.cwd p) = true := by
  rw [origin]
  split
  · exact isDir_iff.mpr t.rootDir
  · exact isDir_iff.mpr t.cwdDir

theorem access_eq_zero : t.access e p = 0 ↔ ∃ r, t.resolve e p = some r := by
  rw [access, ← Option.isSome_iff_exists]
  split
  · exact iff_of_true rfl ‹_›
  · exact iff_of_false (by decide) ‹_›

theorem Grows.find {ns : List Component} (h : Grows t t') (hr : t.find e p ns = some r) :
    t'.find e p ns = some r := by
  rw [FileTree.find, origin, h.root, h.cwd]
  exact h.walk hr

/-- `mkdir` adds one directory, where nothing was, and the path leads to it. -/
theorem mkdir_eq_some (h : t.mkdir e p = some t') : ∃ ps c d k, ∃ hd : t.isDir d = true,
    names p = ps ++ [c] ∧ t.find e p ps = some (d, k) ∧ t.entry d c = none ∧ c ≠ dot ∧ c ≠ dotdot ∧
      t' = t.add d c hd ∧ t'.find e p (names p) = some (t.next, k) := by
  rw [mkdir] at h
  split at h
  · rename_i c d k hlast hwalk
    split at h
    · rename_i hok
      obtain rfl := Option.some.inj h
      obtain ⟨hd, hc, hdot, hdotdot, hs, -⟩ := hok
      obtain ⟨ps, hps⟩ := List.getLast?_eq_some_iff.mp hlast
      rw [hps, List.dropLast_concat] at hwalk
      refine ⟨ps, c, d, k, hd, hps, hwalk, hc, hdot, hdotdot, rfl, ?_⟩
      have hgrows := grows_add hd hc
      obtain ⟨q, hq⟩ := isDir_iff.mp hd
      have hlook : (t.add d c hd).look e d c = some t.next := by
        rw [look, hgrows.node d _ hq]
        dsimp only
        rw [if_pos hs, if_neg hdot, if_neg hdotdot]
        exact if_pos ⟨rfl, rfl⟩
      have hnode : (t.add d c hd).node t.next = some (.dir d) := Function.update_self _ _ _
      rw [hps]
      exact walk_append_eq_some.mpr ⟨(d, k), hgrows.walk hwalk,
        walk_single hlook fun text => by rw [hnode]; simp⟩
    · cases h
  · cases h

end

/-! ### What was added -/

/-- A directory that was added. -/
structure Made where
  parent : ℕ
  name : Component
  id : ℕ
  deriving DecidableEq

/-- `t'` is `t` with the directories `made`, in the order in which they were added: each below one
    that was there or was added before. -/
structure Extended (t t' : FileTree) (made : List Made) : Prop where
  node : ∀ i, (∀ m ∈ made, m.id ≠ i) → t'.node i = t.node i
  entry : ∀ d c, (∀ m ∈ made, ¬ (m.parent = d ∧ m.name = c)) → t'.entry d c = t.entry d c
  root : t'.root = t.root
  cwd : t'.cwd = t.cwd
  fresh : ∀ m ∈ made, t.node m.id = none ∧ t.entry m.parent m.name = none
  dir : ∀ m ∈ made, t'.node m.id = some (.dir m.parent) ∧ t'.entry m.parent m.name = some m.id
  below : ∀ pre m post, made = pre ++ m :: post →
    t.isDir m.parent = true ∨ ∃ k ∈ pre, k.id = m.parent

section
variable {t t' : FileTree} {made : List Made} {d : ℕ} {c : Component}

theorem Extended.refl (t : FileTree) : Extended t t [] where
  node := fun _ _ => rfl
  entry := fun _ _ _ => rfl
  root := rfl
  cwd := rfl
  fresh := by simp
  dir := by simp
  below := by simp

theorem Extended.grows (h : Extended t t' made) : Grows t t' where
  node := by
    intro i n hn
    rw [h.node i, hn]
    rintro m hm rfl
    rw [(h.fresh m hm).1] at hn
    cases hn
  entry := by
    intro d c i hi
    rw [h.entry d c, hi]
    rintro m hm ⟨rfl, rfl⟩
    rw [(h.fresh m hm).2] at hi
    cases hi
  root := h.root
  cwd := h.cwd

/-- One more directory. -/
theorem Extended.add (h : Extended t t' made) (hd : t'.isDir d = true) (hc : t'.entry d c = none) :
    Extended t (t'.add d c hd) (made ++ [⟨d, c, t'.next⟩]) where
  node := by
    intro i hi
    rw [List.forall_mem_append, List.forall_mem_singleton] at hi
    exact (Function.update_of_ne (Ne.symm hi.2) _ _).trans (h.node i hi.1)
  entry := by
    intro x y hxy
    rw [List.forall_mem_append, List.forall_mem_singleton] at hxy
    exact (if_neg fun heq => hxy.2 ⟨heq.1.symm, heq.2.symm⟩).trans (h.entry x y hxy.1)
  root := h.root
  cwd := h.cwd
  fresh := by
    rw [List.forall_mem_append, List.forall_mem_singleton]
    refine ⟨h.fresh, ?_, ?_⟩
    · by_contra hne
      obtain ⟨n, hn⟩ := Option.ne_none_iff_exists'.mp hne
      have hlt := lt_next (t := t') (i := t'.next) (by simp [h.grows.node _ n hn])
      omega
    · by_contra hne
      obtain ⟨i, hi⟩ := Option.ne_none_iff_exists'.mp hne
      rw [h.grows.entry d c i hi] at hc
      cases hc
  dir := by
    have hgrows := grows_add hd hc
    rw [List.forall_mem_append, List.forall_mem_singleton]
    refine ⟨fun m hm => ?_, Function.update_self _ _ _, if_pos ⟨rfl, rfl⟩⟩
    obtain ⟨hnode, hentry⟩ := h.dir m hm
    exact ⟨hgrows.node _ _ hnode, hgrows.entry _ _ _ hentry⟩
  below := by
    intro pre m post heq
    rcases List.eq_nil_or_concat post with rfl | ⟨post, last, rfl⟩
    · obtain ⟨rfl, hlast⟩ := List.append_inj' heq rfl
      obtain rfl := (List.cons.inj hlast).1
      by_cases hnew : ∃ k ∈ made, k.id = d
      · exact Or.inr hnew
      · refine Or.inl ?_
        obtain ⟨q, hq⟩ := isDir_iff.mp hd
        rw [h.node d fun k hk hid => hnew ⟨k, hk, hid⟩] at hq
        exact isDir_iff.mpr ⟨q, hq⟩
    · rw [List.concat_eq_append, ← List.cons_append, ← List.append_assoc] at heq
      exact h.below pre m post (List.append_inj' heq rfl).1

/-- Each directory is in the one before. -/
def Chained (made : List Made) : Prop := made.IsChain fun a b => b.parent = a.id

/-- `t'` is `t` with any number of directories that were added one after the other: they have the
    numbers from `t.next` on, each a greater one than the directory it is in. -/
structure Numbered (t t' : FileTree) : Prop where
  next : t.next ≤ t'.next
  old : ∀ i, i < t.next → t'.node i = t.node i
  new : ∀ i, t.next ≤ i → i < t'.next → ∃ d, d < i ∧ t'.node i = some (.dir d)

theorem Numbered.refl (t : FileTree) : Numbered t t where
  next := Nat.le_refl _
  old := fun _ _ => rfl
  new := fun _ h h' => absurd h' (Nat.not_lt.mpr h)

theorem Numbered.add (h : Numbered t t') (hd : t'.isDir d = true) :
    Numbered t (t'.add d c hd) where
  next := h.next.trans (Nat.le_succ _)
  old := by
    intro i hi
    have hne : i ≠ t'.next := (hi.trans_le h.next).ne
    exact (Function.update_of_ne hne _ _).trans (h.old i hi)
  new := by
    intro i hi hlt
    obtain ⟨q, hq⟩ := isDir_iff.mp hd
    by_cases heq : i = t'.next
    · rw [heq]
      exact ⟨d, lt_next (by simp [hq]), Function.update_self _ _ _⟩
    · obtain ⟨p, hp, hnode⟩ := h.new i hi (by change i < t'.next + 1 at hlt; omega)
      exact ⟨p, hp, (Function.update_of_ne heq _ _).trans hnode⟩

/-- In a chain every number is greater than the one before. -/
theorem sorted_of_chained (hn : Numbered t t') (he : Extended t t' made) (hc : Chained made) :
    made.Pairwise fun a b => a.id < b.id := by
  have hbelow : ∀ m ∈ made, m.parent < m.id := by
    intro m hm
    obtain ⟨hnode, -⟩ := he.dir m hm
    have hnew : t.next ≤ m.id := by
      by_contra hlt
      rw [hn.old _ (Nat.not_le.mp hlt), (he.fresh m hm).1] at hnode
      cases hnode
    obtain ⟨d, hd, hnode'⟩ := hn.new m.id hnew (lt_next (by simp [hnode]))
    obtain rfl := Node.dir.inj (Option.some.inj (hnode.symm.trans hnode'))
    exact hd
  have hchain : made.IsChain fun a b => a.id < b.id := by
    refine List.IsChain.imp_of_mem_imp (R := fun a b : Made => b.parent = a.id) ?_ hc
    intro a b _ hb h
    rw [← h]
    exact hbelow b hb
  exact List.pairwise_map.mp ((List.isChain_map Made.id).mpr hchain).pairwise

/-- Where the added directories form a chain, each of them but the first is in the one with the
    number before its own. -/
theorem parent_of_chained (hn : Numbered t t') (he : Extended t t' made) (hc : Chained made) {i : ℕ}
    (hi : t.next < i) (hd : t'.node i = some (.dir d)) : d + 1 = i := by
  have hmade : ∀ j, t.next ≤ j → t'.node j ≠ none → ∃ m ∈ made, m.id = j := by
    intro j hj hne
    by_contra hnot
    rw [he.node j fun m hm hid => hnot ⟨m, hm, hid⟩, t.fresh j hj] at hne
    exact hne rfl
  have hsorted := sorted_of_chained hn he hc
  obtain ⟨m, hm, rfl⟩ := hmade i hi.le (by simp [hd])
  obtain ⟨b, -, hbefore⟩ := hn.new (m.id - 1) (by omega)
    ((Nat.sub_le _ _).trans_lt (lt_next (by simp [hd])))
  obtain ⟨k, hk, hkid⟩ := hmade (m.id - 1) (by omega) (by simp [hbefore])
  obtain ⟨pre, post, rfl⟩ := List.append_of_mem hm
  obtain ⟨-, hpost, hcross⟩ := List.pairwise_append.mp hsorted
  -- the number before is the one of an element before, and of the last one of these
  have hpre : k ∈ pre := by
    rcases List.mem_append.mp hk with hk | hk
    · exact hk
    · rcases List.mem_cons.mp hk with rfl | hk
      · omega
      · have := (List.pairwise_cons.mp hpost).1 k hk
        omega
  obtain ⟨init, l, rfl⟩ := (List.eq_nil_or_concat pre).resolve_left (List.ne_nil_of_mem hpre)
  rw [List.concat_eq_append] at hpre hcross hc hsorted he
  have hlink : m.parent = l.id :=
    (List.isChain_append.mp hc).2.2 l (by simp) m (by simp)
  have hlast : l.id < m.id := hcross l (by simp) m List.mem_cons_self
  have hle : k.id ≤ l.id := by
    rcases List.mem_append.mp hpre with hin | hin
    · exact ((List.pairwise_append.mp (List.pairwise_append.mp hsorted).1).2.2 k hin l
        (List.mem_singleton_self l)).le
    · rw [List.mem_singleton.mp hin]
  obtain ⟨hnode, -⟩ := he.dir m (by simp)
  obtain rfl := Node.dir.inj (Option.some.inj (hd.symm.trans hnode))
  omega

end

end FileTree

end Schemes
