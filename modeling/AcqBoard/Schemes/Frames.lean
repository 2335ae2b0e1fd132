import Mathlib.Data.List.Sort
import Mathlib.Data.List.Infix

/-! Frames in a stream.

    A start symbol begins a frame in every state, and a stop symbol completes the one that is open.
    `mem_frames` says which parts of the stream are frames. On a lossy line a hole hides the symbols
    behind it for a while; `frames_kept_iff` says when what comes through has exactly the frames
    without a hole. -/

namespace Schemes

variable {α β σ : Type}

/-- Which symbols begin a frame and which complete it. -/
structure Marks (α : Type) where
  start : α → Bool
  stop : α → Bool
  apart : ∀ a, start a = true → stop a = false

/-- One symbol: the open frame, and the frame that it completes. -/
def Marks.step (m : Marks α) (o : Option (List α)) (a : α) : Option (List α) × Option (List α) :=
  if m.start a then (some [a], none)
  else match o with
    | none => (none, none)
    | some f => if m.stop a then (none, some f) else (some (f ++ [a]), none)

def Marks.frames (m : Marks α) : Option (List α) → List α → List (List α)
  | _, [] => []
  | o, a :: s => (m.step o a).2.toList ++ m.frames (m.step o a).1 s

/-- Symbols that neither begin nor complete a frame. -/
def Marks.Plain (m : Marks α) (f : List α) : Prop :=
  ∀ b ∈ f, m.start b = false ∧ m.stop b = false

/-- The stream goes on with `b` and a stop symbol. -/
def Marks.Closes (m : Marks α) (s b : List α) : Prop :=
  m.Plain b ∧ ∃ c v, m.stop c = true ∧ s = b ++ c :: v

/-- A part of the stream from a start symbol to the next stop symbol, with no start symbol between
    them. -/
def Marks.Occurs (m : Marks α) (s f : List α) : Prop :=
  ∃ u a b t, f = a :: b ∧ m.start a = true ∧ s = u ++ a :: t ∧ m.Closes t b

section
variable {m : Marks α} {a : α} {f g s : List α}

theorem step_start (h : m.start a = true) (o : Option (List α)) : m.step o a = (some [a], none) :=
  if_pos h

theorem step_idle (h : m.start a = false) : m.step none a = (none, none) := by
  rw [Marks.step, if_neg (by simp [h])]

theorem step_stop (h : m.stop a = true) (f : List α) : m.step (some f) a = (none, some f) := by
  have hstart : m.start a = false := by
    cases hs : m.start a with
    | false => rfl
    | true => exact absurd h (by simp [m.apart a hs])
  rw [Marks.step, if_neg (by simp [hstart])]
  exact if_pos h

theorem step_plain (hstart : m.start a = false) (hstop : m.stop a = false) (f : List α) :
    m.step (some f) a = (some (f ++ [a]), none) := by
  rw [Marks.step, if_neg (by simp [hstart])]
  exact if_neg (by simp [hstop])

theorem closes_nil : ¬ m.Closes [] f := by
  rintro ⟨-, c, v, -, h⟩
  exact absurd h (by simp)

theorem closes_cons : m.Closes (a :: s) f ↔
    m.stop a = true ∧ f = [] ∨
      m.start a = false ∧ m.stop a = false ∧ ∃ b, f = a :: b ∧ m.Closes s b := by
  constructor
  · rintro ⟨hplain, c, v, hc, h⟩
    rcases f with - | ⟨x, b⟩
    · obtain ⟨rfl, -⟩ := List.cons.inj h
      exact Or.inl ⟨hc, rfl⟩
    · obtain ⟨rfl, rfl⟩ := List.cons.inj h
      obtain ⟨hx, hb⟩ := List.forall_mem_cons.mp hplain
      exact Or.inr ⟨hx.1, hx.2, b, rfl, hb, c, v, hc, rfl⟩
  · rintro (⟨ha, rfl⟩ | ⟨hstart, hstop, b, rfl, hb, c, v, hc, rfl⟩)
    · exact ⟨by simp [Marks.Plain], a, s, ha, rfl⟩
    · exact ⟨List.forall_mem_cons.mpr ⟨⟨hstart, hstop⟩, hb⟩, c, v, hc, rfl⟩

theorem occurs_nil : ¬ m.Occurs [] f := by
  rintro ⟨u, a, b, t, -, -, h, -⟩
  exact absurd h (by simp)

theorem occurs_cons : m.Occurs (a :: s) f ↔
    (m.start a = true ∧ ∃ b, f = a :: b ∧ m.Closes s b) ∨ m.Occurs s f := by
  constructor
  · rintro ⟨u, x, b, t, rfl, hx, h, hb⟩
    rcases u with - | ⟨y, u⟩
    · obtain ⟨rfl, rfl⟩ := List.cons.inj h
      exact Or.inl ⟨hx, b, rfl, hb⟩
    · obtain ⟨rfl, rfl⟩ := List.cons.inj h
      exact Or.inr ⟨u, x, b, t, rfl, hx, rfl, hb⟩
  · rintro (⟨ha, b, rfl, hb⟩ | ⟨u, x, b, t, rfl, hx, rfl, hb⟩)
    · exact ⟨[], a, b, s, rfl, ha, rfl, hb⟩
    · exact ⟨a :: u, x, b, t, rfl, hx, rfl, hb⟩

/-- The frames of a stream are the parts that occur in it, and the open one if it is closed. -/
theorem mem_frames_iff : (f ∈ m.frames none s ↔ m.Occurs s f) ∧
    (f ∈ m.frames (some g) s ↔ (∃ b, f = g ++ b ∧ m.Closes s b) ∨ m.Occurs s f) := by
  induction s generalizing g with
  | nil => simp [Marks.frames, closes_nil, occurs_nil]
  | cons a s ih =>
    rw [occurs_cons]
    cases hstart : m.start a with
    | true =>
      -- a start symbol, whatever is open
      have hstop := m.apart a hstart
      have hnone : ∀ b, ¬ m.Closes (a :: s) b := by
        intro b
        rw [closes_cons]
        simp [hstart, hstop]
      have hframes : ∀ o, m.frames o (a :: s) = m.frames (some [a]) s := by
        intro o
        rw [Marks.frames, step_start hstart]
        rfl
      rw [hframes, hframes, (ih (g := [a])).2]
      simp [hnone]
    | false =>
      constructor
      · rw [Marks.frames, step_idle hstart]
        simpa using (ih (g := g)).1
      cases hstop : m.stop a with
      | true =>
        rw [Marks.frames, step_stop hstop]
        simp only [closes_cons, hstart, hstop]
        simp [(ih (g := g)).1]
      | false =>
        rw [Marks.frames, step_plain hstart hstop]
        simp only [closes_cons, hstart, hstop]
        simp [(ih (g := g ++ [a])).2]

/-- RULE (frames): which lists are frames of a stream. -/
theorem mem_frames : f ∈ m.frames none s ↔ m.Occurs s f := (mem_frames_iff (g := [])).1

/-- The frames lie in the stream one behind the other. -/
theorem flatten_frames_sublist (o : Option (List α)) :
    (m.frames o s).flatten.Sublist (o.getD [] ++ s) := by
  induction s generalizing o with
  | nil => simp [Marks.frames]
  | cons a s ih =>
    rw [Marks.frames, List.flatten_append]
    have htail := ih (m.step o a).1
    cases hstart : m.start a with
    | true =>
      rw [step_start hstart] at htail ⊢
      exact htail.trans (List.sublist_append_right _ _)
    | false =>
      cases o with
      | none =>
        rw [step_idle hstart] at htail ⊢
        exact htail.trans (List.sublist_cons_self _ _)
      | some g =>
        cases hstop : m.stop a with
        | true =>
          rw [step_stop hstop] at htail ⊢
          simpa using (htail.trans (List.sublist_cons_self a s))
        | false =>
          rw [step_plain hstart hstop] at htail ⊢
          simpa using htail

theorem ne_nil_of_mem_frames (h : f ∈ m.frames none s) : f ≠ [] := by
  obtain ⟨u, a, b, t, rfl, -⟩ := mem_frames.mp h
  simp

end

/-! ### Positions tell frames apart -/

section
variable {lt : α → α → Prop} {s : List α} {fs gs : List (List α)}

/-- In a stream whose symbols are ordered, the frames are ordered. -/
theorem frames_pairwise (m : Marks α) (hs : s.Pairwise lt) :
    (m.frames none s).Pairwise fun f g => ∀ x ∈ f, ∀ y ∈ g, lt x y :=
  (List.pairwise_flatten.mp (hs.sublist (flatten_frames_sublist none))).2

/-- RULE (frames): ordered lists of frames are equal if they have the same members. -/
theorem eq_of_mem_iff (hasymm : ∀ {x y}, lt x y → ¬ lt y x)
    (hf : fs.Pairwise fun f g => ∀ x ∈ f, ∀ y ∈ g, lt x y)
    (hg : gs.Pairwise fun f g => ∀ x ∈ f, ∀ y ∈ g, lt x y) (hne : ∀ f ∈ fs, f ≠ [])
    (hmem : ∀ f, f ∈ fs ↔ f ∈ gs) : fs = gs := by
  have hclash : ∀ f g : List α, f ∈ fs → g ∈ fs → (∀ x ∈ f, ∀ y ∈ g, lt x y) →
      (∀ x ∈ g, ∀ y ∈ f, lt x y) → False := by
    intro f g hfs hgs hfg hgf
    obtain ⟨x, hx⟩ := List.exists_mem_of_ne_nil f (hne f hfs)
    obtain ⟨y, hy⟩ := List.exists_mem_of_ne_nil g (hne g hgs)
    exact hasymm (hfg x hx y hy) (hgf y hy x hx)
  have hnodup : ∀ {hs : List (List α)}, (∀ f ∈ hs, f ∈ fs) →
      (hs.Pairwise fun f g => ∀ x ∈ f, ∀ y ∈ g, lt x y) → hs.Nodup := by
    intro hs hsub hpair
    refine hpair.imp_of_mem ?_
    rintro f g hfs - hfg rfl
    exact hclash f f (hsub f hfs) (hsub f hfs) hfg hfg
  have hperm : fs.Perm gs := (List.perm_ext_iff_of_nodup (hnodup (fun _ h => h) hf)
    (hnodup (fun f h => (hmem f).mpr h) hg)).mpr hmem
  refine List.Perm.eq_of_pairwise ?_ hf hg hperm
  intro f g hfs hgs hfg hgf
  exact (hclash f g hfs ((hmem g).mpr hgs) hfg hgf).elim

end

/-! ### A lossy line -/

/-- A line with a state: a hole does not come through, nor does what is behind it while the state
    hides it. Without a hole the state stays clear. -/
structure Lossy (α σ : Type) where
  next : σ → α → σ
  hidden : σ → Bool
  hole : α → Bool
  clear : ∀ c a, hidden c = false → hole a = false → hidden (next c a) = false

def Lossy.kept (l : Lossy α σ) : σ → List α → List α
  | _, [] => []
  | c, a :: s => if l.hidden c || l.hole a then l.kept (l.next c a) s
      else a :: l.kept (l.next c a) s

def Lossy.after (l : Lossy α σ) (c : σ) (s : List α) : σ := s.foldl l.next c

section
variable {l : Lossy α σ} {c : σ} {a : α} {s t : List α}

theorem kept_append : l.kept c (s ++ t) = l.kept c s ++ l.kept (l.after c s) t := by
  induction s generalizing c with
  | nil => rfl
  | cons a s ih =>
    rw [List.cons_append, Lossy.kept, Lossy.kept, ih]
    split <;> rfl

theorem after_append : l.after c (s ++ t) = l.after (l.after c s) t := List.foldl_append

theorem kept_cons_lost (h : l.hidden c = true ∨ l.hole a = true) :
    l.kept c (a :: s) = l.kept (l.next c a) s := by
  rw [Lossy.kept, if_pos (by simpa using h)]

theorem kept_cons (hc : l.hidden c = false) (ha : l.hole a = false) :
    l.kept c (a :: s) = a :: l.kept (l.next c a) s := by
  rw [Lossy.kept, if_neg (by simp [hc, ha])]

theorem kept_sublist : (l.kept c s).Sublist s := by
  induction s generalizing c with
  | nil => exact List.Sublist.slnil
  | cons a s ih =>
    rw [Lossy.kept]
    split
    · exact ih.cons a
    · exact ih.cons_cons a

theorem hole_of_mem_kept (h : a ∈ l.kept c s) : l.hole a = false := by
  induction s generalizing c with
  | nil => exact absurd h (by simp [Lossy.kept])
  | cons b s ih =>
    rw [Lossy.kept] at h
    split at h
    · exact ih h
    · rename_i hb
      rcases List.mem_cons.mp h with rfl | h
      · exact (by simpa using hb : _ ∧ _).2
      · exact ih h

/-- Without a hole everything comes through. -/
theorem kept_clear (hc : l.hidden c = false) (hs : ∀ a ∈ s, l.hole a = false) :
    l.kept c s = s ∧ l.hidden (l.after c s) = false := by
  induction s generalizing c with
  | nil => exact ⟨rfl, hc⟩
  | cons a s ih =>
    obtain ⟨ha, hs⟩ := List.forall_mem_cons.mp hs
    obtain ⟨hkept, hafter⟩ := ih (l.clear c a hc ha) hs
    rw [kept_cons hc ha, hkept]
    exact ⟨rfl, hafter⟩

/-- A symbol that comes through, in the stream. -/
theorem kept_eq_append_cons {k r : List α} (h : l.kept c s = k ++ a :: r) :
    ∃ u v, s = u ++ a :: v ∧ l.kept c u = k ∧ l.hidden (l.after c u) = false ∧
      l.hole a = false ∧ l.kept (l.after c (u ++ [a])) v = r := by
  induction s generalizing c k with
  | nil => exact absurd h (by simp [Lossy.kept])
  | cons b s ih =>
    rw [Lossy.kept] at h
    split at h
    · rename_i hb
      obtain ⟨u, v, rfl, hu, hc, ha, hv⟩ := ih h
      refine ⟨b :: u, v, rfl, ?_, hc, ha, hv⟩
      rw [kept_cons_lost (by simpa using hb)]
      exact hu
    · rename_i hb
      obtain ⟨hc, hhole⟩ := (by simpa using hb : _ ∧ _)
      rcases k with - | ⟨x, k⟩
      · obtain ⟨rfl, rfl⟩ := List.cons.inj h
        exact ⟨[], s, rfl, rfl, hc, hhole, rfl⟩
      · obtain ⟨rfl, hk⟩ := List.cons.inj h
        obtain ⟨u, v, rfl, hu, hc', ha, hv⟩ := ih hk
        refine ⟨b :: u, v, rfl, ?_, hc', ha, hv⟩
        rw [kept_cons hc hhole]
        exact congrArg (b :: ·) hu

end

/-- The condition: a frame without a hole does not begin where the line is hidden, and a frame that
    a hole breaks off is not closed by what comes through behind the hole. -/
structure Undamaged (m : Marks α) (l : Lossy α σ) (c : σ) (s : List α) : Prop where
  heard : ∀ u d v f, s = u ++ d :: v → m.start d = true → m.Closes v f →
    (∀ a ∈ f, l.hole a = false) → l.hidden (l.after c u) = false
  broken : ∀ u z v k d f, s = u ++ z :: v → l.hole z = true → l.hidden (l.after c u) = false →
    l.kept c u = k ++ d :: f → m.start d = true → m.Plain f →
      ∀ g, ¬ m.Closes (l.kept (l.after c (u ++ [z])) v) g

section
variable {m : Marks α} {l : Lossy α σ} {c : σ} {s f g : List α}

theorem split_hole (l : Lossy α σ) (s : List α) : (∀ a ∈ s, l.hole a = false) ∨
    ∃ w z v, s = w ++ z :: v ∧ (∀ a ∈ w, l.hole a = false) ∧ l.hole z = true := by
  induction s with
  | nil => exact Or.inl (by simp)
  | cons a s ih =>
    cases ha : l.hole a with
    | true => exact Or.inr ⟨[], a, s, rfl, by simp, ha⟩
    | false =>
      rcases ih with hs | ⟨w, z, v, rfl, hw, hz⟩
      · exact Or.inl (List.forall_mem_cons.mpr ⟨ha, hs⟩)
      · exact Or.inr ⟨a :: w, z, v, rfl, List.forall_mem_cons.mpr ⟨ha, hw⟩, hz⟩

theorem closes_append (hf : m.Plain f) (h : m.Closes s g) : m.Closes (f ++ s) (f ++ g) := by
  obtain ⟨hg, e, y, he, rfl⟩ := h
  exact ⟨List.forall_mem_append.mpr ⟨hf, hg⟩, e, y, he, (List.append_assoc ..).symm⟩

/-- What comes through has no other frames. -/
theorem occurs_of_kept (h : Undamaged m l c s) (hf : m.Occurs (l.kept c s) f) : m.Occurs s f := by
  obtain ⟨k, d, b, r, rfl, hd, hk, hb⟩ := hf
  obtain ⟨u, v, rfl, hu, hhid, hhole, hv⟩ := kept_eq_append_cons hk
  refine ⟨u, d, b, v, rfl, hd, rfl, ?_⟩
  have hhid' : l.hidden (l.after c (u ++ [d])) = false := by
    rw [after_append]
    exact l.clear _ d hhid hhole
  obtain ⟨hplain, e, y, he, rfl⟩ := hb
  rcases split_hole l v with hclear | ⟨w, z, v, rfl, hw, hz⟩
  · rw [(kept_clear hhid' hclear).1] at hv
    exact ⟨hplain, e, y, he, hv⟩
  -- the first hole behind the start symbol
  obtain ⟨hkw, haw⟩ := kept_clear hhid' hw
  have hlost : l.kept (l.after c (u ++ d :: w ++ [z])) v = l.kept (l.next (l.after
      (l.after c (u ++ [d])) w) z) v := by
    rw [after_append, ← List.singleton_append, ← List.append_assoc, after_append]
    rfl
  rw [kept_append, hkw, kept_cons_lost (Or.inr hz), ← hlost] at hv
  have hbroken : m.Plain w → ∀ g, ¬ m.Closes (l.kept (l.after c (u ++ d :: w ++ [z])) v) g := by
    refine h.broken (u ++ d :: w) z v k d w (by simp) hz ?_ ?_ hd
    · rw [← List.singleton_append, ← List.append_assoc, after_append]
      exact haw
    · rw [← List.singleton_append, ← List.append_assoc, kept_append, kept_append, hu, hkw,
        kept_cons hhid hhole]
      simp [Lossy.kept]
  rcases List.append_eq_append_iff.mp hv with ⟨g, rfl, hg⟩ | ⟨g, rfl, hg⟩
  · obtain ⟨hpw, hpg⟩ := List.forall_mem_append.mp hplain
    exact (hbroken hpw g ⟨hpg, e, y, he, hg⟩).elim
  · rcases g with - | ⟨x, g⟩
    · rw [List.append_nil] at hbroken
      rw [List.nil_append, List.append_nil] at hg
      exact (hbroken hplain [] ⟨by simp [Marks.Plain], e, y, he, hg.symm⟩).elim
    · obtain ⟨rfl, -⟩ := List.cons.inj hg
      exact ⟨hplain, e, g ++ z :: v, he, by simp⟩

section
variable (hmark : ∀ a, l.hole a = true → m.start a = false ∧ m.stop a = false)
include hmark

theorem hole_start {a : α} (h : m.start a = true) : l.hole a = false := by
  cases ha : l.hole a with
  | false => rfl
  | true => exact absurd h (by simp [(hmark a ha).1])

theorem hole_stop {a : α} (h : m.stop a = true) : l.hole a = false := by
  cases ha : l.hole a with
  | false => rfl
  | true => exact absurd h (by simp [(hmark a ha).2])

/-- A frame without a hole comes through if it begins where the line is clear. -/
theorem occurs_kept (h : Undamaged m l c s) (hf : m.Occurs s f)
    (hclear : ∀ a ∈ f, l.hole a = false) : m.Occurs (l.kept c s) f := by
  obtain ⟨u, a, b, t, rfl, ha, rfl, hb⟩ := hf
  obtain ⟨-, hclear⟩ := List.forall_mem_cons.mp hclear
  have hhid := h.heard u a t b rfl ha hb hclear
  obtain ⟨hplain, e, v, he, rfl⟩ := hb
  have hall : ∀ x ∈ a :: (b ++ [e]), l.hole x = false := by
    intro x hx
    rcases List.mem_cons.mp hx with rfl | hx
    · exact hole_start hmark ha
    rcases List.mem_append.mp hx with hx | hx
    · exact hclear x hx
    · rw [List.mem_singleton.mp hx]
      exact hole_stop hmark he
  have hsplit : a :: (b ++ e :: v) = a :: (b ++ [e]) ++ v := by simp
  rw [hsplit, kept_append, kept_append, (kept_clear hhid hall).1]
  exact ⟨l.kept c u, a, b, b ++ e :: l.kept (l.after (l.after c u) (a :: (b ++ [e]))) v, rfl, ha,
    by simp, hplain, e, _, he, rfl⟩

section
variable (hnodup : s.Nodup)
  (hiff : ∀ f, m.Occurs (l.kept c s) f ↔ m.Occurs s f ∧ ∀ a ∈ f, l.hole a = false)
include hnodup hiff

/-- A frame without a hole that comes through begins where the line is clear. -/
theorem heard_of_occurs_iff {u v : List α} {d : α} (hs : s = u ++ d :: v) (hd : m.start d = true)
    (hf : m.Closes v f) (hclear : ∀ a ∈ f, l.hole a = false) :
    l.hidden (l.after c u) = false := by
  subst hs
  by_contra hhid
  have hocc := (hiff (d :: f)).mpr ⟨⟨u, d, f, v, rfl, hd, rfl, hf⟩,
    List.forall_mem_cons.mpr ⟨hole_start hmark hd, hclear⟩⟩
  obtain ⟨k, x, b, t, hdf, -, hk, -⟩ := hocc
  obtain ⟨rfl, rfl⟩ := List.cons.inj hdf
  have hmem : d ∈ l.kept c u ++ l.kept (l.next (l.after c u) d) v := by
    rw [kept_append, kept_cons_lost (Or.inl (by simpa using hhid))] at hk
    rw [hk]
    simp
  obtain ⟨-, hdv, hdisj⟩ := List.nodup_append.mp hnodup
  rcases List.mem_append.mp hmem with hdu | hdv'
  · exact hdisj d (kept_sublist.subset hdu) d (by simp) rfl
  · exact (List.nodup_cons.mp hdv).1 (kept_sublist.subset hdv')

/-- A frame that a hole breaks off is not closed, if what comes through has no other frames. -/
theorem broken_of_occurs_iff {u v k : List α} {z d : α} (hs : s = u ++ z :: v)
    (hz : l.hole z = true) (hu : l.kept c u = k ++ d :: f) (hd : m.start d = true)
    (hf : m.Plain f) : ¬ m.Closes (l.kept (l.after c (u ++ [z])) v) g := by
  subst hs
  intro hg
  have hkept : l.kept c (u ++ z :: v) = k ++ d :: (f ++ l.kept (l.after c (u ++ [z])) v) := by
    rw [kept_append, kept_cons_lost (Or.inr hz), hu, after_append, List.append_assoc]
    rfl
  obtain ⟨⟨u₂, x, b, t, hdf, -, hs₂, hb⟩, hclear⟩ := (hiff (d :: (f ++ g))).mp
    ⟨k, d, f ++ g, _, rfl, hd, hkept, closes_append hf hg⟩
  obtain ⟨rfl, rfl⟩ := List.cons.inj hdf
  obtain ⟨-, hclear⟩ := List.forall_mem_cons.mp hclear
  -- the start symbol stands at one place only
  obtain ⟨u₁, v₁, rfl, -, hhid₁, hhole, hv₁⟩ := kept_eq_append_cons hu
  rw [List.append_assoc, List.cons_append] at hs₂ hnodup
  obtain ⟨-, hdv, hdisj⟩ := List.nodup_append.mp hnodup
  obtain ⟨-, -, rfl⟩ := (List.append_cons_inj_of_notMem (fun hm => hdisj d hm d (by simp) rfl)
    (List.nodup_cons.mp hdv).1).mp hs₂
  obtain ⟨-, e, y, he, hvy⟩ := hb
  have hez : e ≠ z := by
    rintro rfl
    exact absurd hz (by simp [hole_stop hmark he])
  rcases List.append_eq_append_iff.mp hvy with ⟨w, hw, hwz⟩ | ⟨w, hw, hwe⟩
  · rcases w with - | ⟨x, w⟩
    · exact hez (List.cons.inj hwz).1.symm
    · obtain ⟨rfl, -⟩ := List.cons.inj hwz
      exact absurd hz (by simp [hclear z (by rw [hw]; simp)])
  · rcases w with - | ⟨x, w⟩
    · exact hez (List.cons.inj hwe).1
    · obtain ⟨rfl, -⟩ := List.cons.inj hwe
      -- the stop symbol would have come through
      have hhid' : l.hidden (l.after c (u₁ ++ [d])) = false := by
        rw [after_append]
        exact l.clear _ d hhid₁ hhole
      have hall : ∀ a ∈ f ++ g ++ [e], l.hole a = false := by
        refine List.forall_mem_append.mpr ⟨hclear, ?_⟩
        simpa using hole_stop hmark he
      have hsplit : v₁ = f ++ g ++ [e] ++ w := by
        rw [hw]
        simp
      rw [hsplit, kept_append, (kept_clear hhid' hall).1] at hv₁
      have hlen := congrArg List.length hv₁
      simp only [List.length_append, List.length_singleton] at hlen
      omega

end

/-- RULE (frames): in an ordered stream, what comes through a lossy line has exactly the frames
    without a hole, if and only if no frame is damaged. -/
theorem frames_kept_iff {lt : α → α → Prop} (hasymm : ∀ {x y}, lt x y → ¬ lt y x)
    (hs : s.Pairwise lt) : m.frames none (l.kept c s) =
      (m.frames none s).filter (fun f => f.all fun a => !l.hole a) ↔ Undamaged m l c s := by
  have hmem : ∀ f, f ∈ (m.frames none s).filter (fun f => f.all fun a => !l.hole a) ↔
      m.Occurs s f ∧ ∀ a ∈ f, l.hole a = false := by
    intro f
    simp [mem_frames]
  constructor
  · intro heq
    have hnodup : s.Nodup := by
      refine hs.imp ?_
      rintro x y hxy rfl
      exact hasymm hxy hxy
    have hiff : ∀ f, m.Occurs (l.kept c s) f ↔ m.Occurs s f ∧ ∀ a ∈ f, l.hole a = false := by
      intro f
      rw [← mem_frames, heq, hmem]
    exact ⟨fun u d v f hs hd hf hclear => heard_of_occurs_iff hmark hnodup hiff hs hd hf hclear,
      fun u z v k d f hs hz _ hu hd hf g => broken_of_occurs_iff hmark hnodup hiff hs hz hu hd hf⟩
  · intro h
    refine eq_of_mem_iff hasymm (frames_pairwise m (hs.sublist kept_sublist))
      ((frames_pairwise m hs).filter _) (fun f => ne_nil_of_mem_frames) ?_
    intro f
    rw [hmem, mem_frames]
    constructor
    · intro hf
      refine ⟨occurs_of_kept h hf, ?_⟩
      intro a ha
      have hin := (flatten_frames_sublist none).subset
        (List.mem_flatten_of_mem (mem_frames.mpr hf) ha)
      exact hole_of_mem_kept (l := l) (c := c) (s := s) hin
    · rintro ⟨hf, hclear⟩
      exact occurs_kept hmark h hf hclear

/-- The frames are all the same exactly if, besides, no frame has a hole. -/
theorem frames_kept_eq_iff {lt : α → α → Prop} (hasymm : ∀ {x y}, lt x y → ¬ lt y x)
    (hs : s.Pairwise lt) : m.frames none (l.kept c s) = m.frames none s ↔
      Undamaged m l c s ∧ ∀ f, m.Occurs s f → ∀ a ∈ f, l.hole a = false := by
  have hfilter : (∀ f, m.Occurs s f → ∀ a ∈ f, l.hole a = false) →
      (m.frames none s).filter (fun f => f.all fun a => !l.hole a) = m.frames none s := by
    intro hclear
    refine List.filter_eq_self.mpr fun f hf => ?_
    simpa using hclear f (mem_frames.mp hf)
  constructor
  · intro heq
    have hclear : ∀ f, m.Occurs s f → ∀ a ∈ f, l.hole a = false := by
      intro f hf a ha
      rw [← mem_frames, ← heq] at hf
      have hmem := (flatten_frames_sublist none).subset (List.mem_flatten_of_mem hf ha)
      exact hole_of_mem_kept (l := l) (c := c) (s := s) hmem
    exact ⟨(frames_kept_iff hmark hasymm hs).mp (heq.trans (hfilter hclear).symm), hclear⟩
  · rintro ⟨h, hclear⟩
    exact ((frames_kept_iff hmark hasymm hs).mpr h).trans (hfilter hclear)

end

end

/-! ### Labelled symbols -/

def Marks.comap (m : Marks β) (φ : α → β) : Marks α where
  start a := m.start (φ a)
  stop a := m.stop (φ a)
  apart a := m.apart (φ a)

def Lossy.comap (l : Lossy β σ) (φ : α → β) : Lossy α σ where
  next c a := l.next c (φ a)
  hidden := l.hidden
  hole a := l.hole (φ a)
  clear c a := l.clear c (φ a)

theorem frames_map (m : Marks β) (φ : α → β) {o : Option (List α)} {s : List α} :
    m.frames (o.map (List.map φ)) (s.map φ) = ((m.comap φ).frames o s).map (List.map φ) := by
  have hstep : ∀ o a, m.step (Option.map (List.map φ) o) (φ a) =
      (((m.comap φ).step o a).1.map (List.map φ), ((m.comap φ).step o a).2.map (List.map φ)) := by
    intro o a
    cases hstart : m.start (φ a) with
    | true =>
      rw [step_start hstart, step_start (show (m.comap φ).start a = true from hstart)]
      rfl
    | false =>
      have hstart' : (m.comap φ).start a = false := hstart
      cases o with
      | none =>
        rw [step_idle hstart']
        exact step_idle hstart
      | some f =>
        cases hstop : m.stop (φ a) with
        | true =>
          rw [step_stop (show (m.comap φ).stop a = true from hstop)]
          exact step_stop hstop _
        | false =>
          rw [step_plain hstart' (show (m.comap φ).stop a = false from hstop)]
          simpa using step_plain hstart hstop (f.map φ)
  induction s generalizing o with
  | nil => rfl
  | cons a s ih =>
    rw [List.map_cons, Marks.frames, Marks.frames, hstep, ih, List.map_append]
    cases ((m.comap φ).step o a).2 <;> rfl

theorem kept_map (l : Lossy β σ) (φ : α → β) {c : σ} {s : List α} :
    l.kept c (s.map φ) = ((l.comap φ).kept c s).map φ := by
  induction s generalizing c with
  | nil => rfl
  | cons a s ih =>
    rw [List.map_cons, Lossy.kept, Lossy.kept, ih]
    split
    · rename_i h
      rw [if_pos (show (l.comap φ).hidden c || (l.comap φ).hole a from h)]
      rfl
    · rename_i h
      rw [if_neg (show ¬ ((l.comap φ).hidden c || (l.comap φ).hole a) = true from h)]
      rfl

end Schemes
