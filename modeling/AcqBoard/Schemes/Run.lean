import Mathlib.Tactic.Common

/-! Runs of a partial step function.

    A system is a step function `step : σ → ε → Except φ σ`: an event takes a state to the next one,
    or the step is undefined and names the fault. An interleaving of several parties is such a
    system too, with one event for each atomic step of each party. Most laws hold only along runs
    whose steps meet a side condition, so the induction rules carry that condition (`Meets`) next to
    the invariant. -/

namespace Schemes

universe u

variable {σ ε φ : Type*} {α β : Type u}

/-! ### `Except` inversion -/

theorem bind_eq_ok {x : Except φ α} {f : α → Except φ β} {b : β} :
    (x >>= f) = .ok b ↔ ∃ a, x = .ok a ∧ f a = .ok b := by
  cases x <;> simp [bind, Except.bind]

theorem bind_eq_error {x : Except φ α} {f : α → Except φ β} {e : φ} :
    (x >>= f) = .error e ↔ x = .error e ∨ ∃ a, x = .ok a ∧ f a = .error e := by
  cases x <;> simp [bind, Except.bind]

/-- A sequence returns if its first part does and the rest does on whatever it returned. -/
theorem bind_returns {x : Except φ α} {f : α → Except φ β} (hx : ∃ a, x = .ok a)
    (hf : ∀ a, x = .ok a → ∃ b, f a = .ok b) : ∃ b, (x >>= f) = .ok b := by
  obtain ⟨a, ha⟩ := hx
  obtain ⟨b, hb⟩ := hf a ha
  exact ⟨b, bind_eq_ok.mpr ⟨a, ha, hb⟩⟩

/-- Where whether the rest returns does not depend on what it is handed, both parts have to. -/
theorem bind_returns_iff {x : Except φ α} {f : α → Except φ β} {p q : Prop}
    (hx : (∃ a, x = .ok a) ↔ p) (hf : ∀ a, (∃ b, f a = .ok b) ↔ q) :
    (∃ b, (x >>= f) = .ok b) ↔ p ∧ q := by
  rw [← hx]
  constructor
  · rintro ⟨b, hb⟩
    obtain ⟨a, ha, hb⟩ := bind_eq_ok.mp hb
    exact ⟨⟨a, ha⟩, (hf a).mp ⟨b, hb⟩⟩
  · exact fun ⟨ha, hq⟩ => bind_returns ha fun a _ => (hf a).mpr hq

theorem mapError_eq_ok {ψ : Type*} {x : Except φ α} {g : φ → ψ} {a : α} :
    x.mapError g = .ok a ↔ x = .ok a := by
  cases x <;> simp [Except.mapError]

theorem mapError_eq_error {ψ : Type*} {x : Except φ α} {g : φ → ψ} {e : ψ} :
    x.mapError g = .error e ↔ ∃ f, x = .error f ∧ g f = e := by
  cases x <;> simp [Except.mapError]

theorem map_bind {γ : Type u} {x : Except φ α} {f : α → Except φ β} {g : β → γ} :
    (x >>= f).map g = x >>= fun a => (f a).map g := by
  cases x <;> rfl

theorem map_eq_ok {x : Except φ α} {g : α → β} {b : β} :
    x.map g = .ok b ↔ ∃ a, x = .ok a ∧ g a = b := by
  cases x <;> simp [Except.map]

theorem map_eq_error {x : Except φ α} {g : α → β} {f : φ} : x.map g = .error f ↔ x = .error f := by
  cases x <;> simp [Except.map]

theorem pure_eq_ok {a b : α} : (pure a : Except φ α) = .ok b ↔ a = b := by
  simp [pure, Except.pure]

/-! ### Runs -/

/-- Run a list of events: the last state, or the first fault. -/
def run (step : σ → ε → Except φ σ) : σ → List ε → Except φ σ
  | s, [] => .ok s
  | s, e :: es => step s e >>= fun t => run step t es

/-- Every step taken along the run meets the side condition `ok`. -/
def Meets (step : σ → ε → Except φ σ) (ok : σ → ε → Prop) : σ → List ε → Prop
  | _, [] => True
  | s, e :: es => ok s e ∧ ∀ t, step s e = .ok t → Meets step ok t es

variable {step : σ → ε → Except φ σ} {ok : σ → ε → Prop}

instance decidableMeets [∀ s e, Decidable (ok s e)] :
    (s : σ) → (es : List ε) → Decidable (Meets step ok s es)
  | _, [] => isTrue trivial
  | s, e :: es =>
    match h : step s e with
    | .ok t =>
      have := decidableMeets t es
      decidable_of_iff (ok s e ∧ Meets step ok t es) (by simp [Meets, h])
    | .error _ => decidable_of_iff (ok s e) (by simp [Meets, h])

@[simp] theorem run_nil (s : σ) : run step s [] = .ok s := rfl

theorem run_cons (s : σ) (e : ε) (es : List ε) :
    run step s (e :: es) = step s e >>= fun t => run step t es := rfl

theorem run_cons_ok {s u : σ} {e : ε} {es : List ε} :
    run step s (e :: es) = .ok u ↔ ∃ t, step s e = .ok t ∧ run step t es = .ok u := bind_eq_ok

theorem run_append (es fs : List ε) : ∀ s : σ,
    run step s (es ++ fs) = run step s es >>= fun t => run step t fs := by
  induction es with
  | nil => intro s; rfl
  | cons e es ih =>
    intro s
    rw [List.cons_append, run_cons, run_cons]
    cases step s e with
    | error f => rfl
    | ok t => exact ih t

theorem run_append_ok {s u : σ} {es fs : List ε} :
    run step s (es ++ fs) = .ok u ↔ ∃ t, run step s es = .ok t ∧ run step t fs = .ok u := by
  rw [run_append]; exact bind_eq_ok

/-- A run that ends in a fault, taken apart at the step that raises it. -/
theorem run_eq_error {s : σ} {es : List ε} {f : φ} (h : run step s es = .error f) :
    ∃ pre e post t, es = pre ++ e :: post ∧ run step s pre = .ok t ∧ step t e = .error f := by
  induction es generalizing s with
  | nil => exact nomatch h
  | cons e es ih =>
    rcases bind_eq_error.mp h with he | ⟨t, ht, h⟩
    · exact ⟨[], e, es, s, rfl, rfl, he⟩
    · obtain ⟨pre, d, post, u, rfl, hpre, hd⟩ := ih h
      exact ⟨e :: pre, d, post, u, rfl, run_cons_ok.mpr ⟨t, ht, hpre⟩, hd⟩

theorem meets_of_forall : ∀ {es : List ε} (s : σ), (∀ e ∈ es, ∀ s, ok s e) → Meets step ok s es
  | [], _, _ => trivial
  | e :: _, s, h => ⟨h e List.mem_cons_self s, fun t _ =>
      meets_of_forall t fun d hd => h d (List.mem_cons_of_mem _ hd)⟩

theorem meets_true (es : List ε) (s : σ) : Meets step (fun _ _ => True) s es :=
  meets_of_forall s fun _ _ _ => trivial

theorem meets_and {ok' : σ → ε → Prop} {es : List ε} {s : σ} :
    Meets step (fun s e => ok s e ∧ ok' s e) s es ↔ Meets step ok s es ∧ Meets step ok' s es := by
  induction es generalizing s with
  | nil => exact iff_of_true trivial ⟨trivial, trivial⟩
  | cons e es ih =>
    constructor
    · rintro ⟨⟨h, h'⟩, hrest⟩
      exact ⟨⟨h, fun t ht => (ih.mp (hrest t ht)).1⟩, h', fun t ht => (ih.mp (hrest t ht)).2⟩
    · rintro ⟨⟨h, hrest⟩, h', hrest'⟩
      exact ⟨⟨h, h'⟩, fun t ht => ih.mpr ⟨hrest t ht, hrest' t ht⟩⟩

/-- RULE (invariant): what every step under the side condition preserves, every such run
    preserves. -/
theorem run_inv {P : σ → Prop}
    (hstep : ∀ {s e t}, P s → ok s e → step s e = .ok t → P t) {es : List ε} {s t : σ} (hP : P s)
    (hm : Meets step ok s es) (h : run step s es = .ok t) : P t := by
  induction es generalizing s with
  | nil =>
    obtain rfl : s = t := by simpa using h
    exact hP
  | cons e es ih =>
    obtain ⟨u, hu, hrun⟩ := run_cons_ok.mp h
    exact ih (hstep hP hm.1 hu) (hm.2 u hu) hrun

/-- RULE (side conditions): in a run that goes through, under an invariant that one side condition
    keeps, it may imply another. -/
theorem meets_imp {ok' : σ → ε → Prop} {P : σ → Prop}
    (hstep : ∀ {s e t}, P s → ok s e → step s e = .ok t → P t)
    (himp : ∀ {s e t}, P s → ok s e → step s e = .ok t → ok' s e) {es : List ε} {s u : σ} (hP : P s)
    (h : run step s es = .ok u) (hm : Meets step ok s es) : Meets step ok' s es := by
  induction es generalizing s with
  | nil => trivial
  | cons e es ih =>
    obtain ⟨t, ht, hrun⟩ := run_cons_ok.mp h
    refine ⟨himp hP hm.1 ht, fun t' ht' => ?_⟩
    obtain rfl := Except.ok.inj (ht.symm.trans ht')
    exact ih (hstep hP hm.1 ht) hrun (hm.2 t ht)

/-- RULE (invariant of every run): the same without a side condition. -/
theorem run_keeps {P : σ → Prop} (hstep : ∀ {s e t}, P s → step s e = .ok t → P t) {es : List ε}
    {s t : σ} (hP : P s) (h : run step s es = .ok t) : P t :=
  run_inv (fun hs (_ : True) hst => hstep hs hst) hP (meets_true es s) h

/-- The last step of a run. -/
theorem run_concat {es : List ε} {e : ε} {s t : σ} (hm : Meets step ok s (es ++ [e]))
    (h : run step s (es ++ [e]) = .ok t) : ∃ u, ok u e ∧ step u e = .ok t := by
  induction es generalizing s with
  | nil =>
    obtain ⟨u, hu, hrun⟩ := run_cons_ok.mp h
    obtain rfl : u = t := by simpa using hrun
    exact ⟨s, hm.1, hu⟩
  | cons d es ih =>
    obtain ⟨u, hu, hrun⟩ := run_cons_ok.mp h
    exact ih (hm.2 u hu) hrun

/-- Every step of the run is defined, and `P` holds in every state it reaches. -/
def Always (step : σ → ε → Except φ σ) (P : σ → Prop) : σ → List ε → Prop
  | s, [] => P s
  | s, e :: es => P s ∧ ∃ t, step s e = .ok t ∧ Always step P t es

/-- RULE (exact condition): let the run's steps meet `side` and raise no fault but `bad` ones. If
    from a state of the invariant `I` a step is defined and reaches `P` exactly under the condition
    `ok`, and `ok` steps keep `I`, then the run is defined with `P` throughout exactly if all its
    steps meet `ok`. -/
theorem always_iff_meets {P : σ → Prop} (I : σ → Prop) (side : σ → ε → Prop) (bad : φ → Prop)
    (hIP : ∀ {s}, I s → P s)
    (hI : ∀ {s e t}, I s → side s e → ok s e → step s e = .ok t → I t)
    (hstep : ∀ {s e}, I s → side s e → (∀ f, step s e = .error f → bad f) →
      ((∃ t, step s e = .ok t ∧ P t) ↔ ok s e))
    {es : List ε} {s : σ} (hs : I s) (hside : Meets step side s es)
    (hf : ∀ f, run step s es = .error f → bad f) :
    Always step P s es ↔ Meets step ok s es := by
  induction es generalizing s with
  | nil => exact iff_of_true (hIP hs) trivial
  | cons e es ih =>
    have hf₁ : ∀ f, step s e = .error f → bad f :=
      fun f h => hf f (bind_eq_error.mpr (Or.inl h))
    have hf₂ : ∀ {t}, step s e = .ok t → ∀ f, run step t es = .error f → bad f :=
      fun h f hr => hf f (bind_eq_error.mpr (Or.inr ⟨_, h, hr⟩))
    have hrest : ∀ {t}, ok s e → step s e = .ok t → (Always step P t es ↔ Meets step ok t es) :=
      fun hok ht => ih (hI hs hside.1 hok ht) (hside.2 _ ht) (hf₂ ht)
    constructor
    · rintro ⟨-, t, ht, h⟩
      have hPt : P t := by
        cases es with
        | nil => exact h
        | cons => exact h.1
      have hok : ok s e := (hstep hs hside.1 hf₁).mp ⟨t, ht, hPt⟩
      refine ⟨hok, ?_⟩
      intro u hu
      obtain rfl : t = u := by simpa [ht] using hu
      exact (hrest hok ht).mp h
    · rintro ⟨hok, h⟩
      obtain ⟨t, ht, _⟩ := (hstep hs hside.1 hf₁).mpr hok
      exact ⟨hIP hs, t, ht, (hrest hok ht).mpr (h t ht)⟩

/-- The exact-condition rule for a run that goes through. -/
theorem always_iff_meets_of_ok {P : σ → Prop} (I : σ → Prop) (side : σ → ε → Prop)
    (hIP : ∀ {s}, I s → P s)
    (hI : ∀ {s e t}, I s → side s e → ok s e → step s e = .ok t → I t)
    (hstep : ∀ {s e t}, I s → side s e → step s e = .ok t → (P t ↔ ok s e))
    {es : List ε} {s u : σ} (hs : I s) (hside : Meets step side s es)
    (h : run step s es = .ok u) : Always step P s es ↔ Meets step ok s es := by
  refine always_iff_meets I side (fun _ => False) hIP hI ?_ hs hside (fun f hf => by simp [h] at hf)
  intro s e hs hside hf
  cases hst : step s e with
  | error f => exact (hf f hst).elim
  | ok t => simp only [Except.ok.injEq, exists_eq_left', hstep hs hside hst]

/-- The exact-condition rule where the law itself is the invariant. -/
theorem always_iff_meets_self {P : σ → Prop} (bad : φ → Prop)
    (hstep : ∀ {s e}, P s → (∀ f, step s e = .error f → bad f) →
      ((∃ t, step s e = .ok t ∧ P t) ↔ ok s e))
    {es : List ε} {s : σ} (hs : P s) (hf : ∀ f, run step s es = .error f → bad f) :
    Always step P s es ↔ Meets step ok s es := by
  refine always_iff_meets P (fun _ _ => True) bad id ?_ (fun hP _ => hstep hP) hs
    (meets_true es s) hf
  intro s e t hP _ hok ht
  obtain ⟨u, hu, hPu⟩ := (hstep hP (fun f h => by simp [ht] at h)).mpr hok
  obtain rfl : t = u := by simpa [ht] using hu
  exact hPu

/-- The fault `f` is never raised, and `P` holds in every state that is reached. -/
def Stays (step : σ → ε → Except φ σ) (f : φ) (P : σ → Prop) (s : σ) (es : List ε) : Prop :=
  ∀ pre, pre <+: es → run step s pre ≠ .error f ∧ ∀ t, run step s pre = .ok t → P t

theorem stays_cons {P : σ → Prop} {f : φ} {s : σ} {e : ε} {es : List ε} :
    Stays step f P s (e :: es) ↔
      P s ∧ step s e ≠ .error f ∧ ∀ t, step s e = .ok t → Stays step f P t es := by
  constructor
  · intro h
    refine ⟨(h [] (List.nil_prefix)).2 s rfl, ?_, ?_⟩
    · intro he
      exact (h [e] (by simp)).1 (bind_eq_error.mpr (Or.inl he))
    · intro t ht pre hpre
      have hrun : run step s (e :: pre) = run step t pre := by rw [run_cons, ht]; rfl
      rw [← hrun]
      exact h (e :: pre) ((List.prefix_cons_inj e).mpr hpre)
  · rintro ⟨hP, he, h⟩ pre hpre
    cases pre with
    | nil => exact ⟨by simp, fun t ht => Except.ok.inj ht ▸ hP⟩
    | cons d pre =>
      obtain ⟨rfl, htail⟩ := List.cons_prefix_cons.mp hpre
      refine ⟨?_, ?_⟩
      · intro hf
        rcases bind_eq_error.mp hf with hf | ⟨u, hu, hf⟩
        · exact he hf
        · exact (h u hu pre htail).1 hf
      · intro t ht
        obtain ⟨u, hu, ht⟩ := run_cons_ok.mp ht
        exact (h u hu pre htail).2 t ht

/-- The exact-condition rule for a law that is itself the invariant and a single fault, whatever
    other faults the run raises. -/
theorem stays_iff_meets {P : σ → Prop} {f : φ}
    (hstep : ∀ {s e}, P s → ((step s e ≠ .error f ∧ ∀ t, step s e = .ok t → P t) ↔ ok s e))
    {es : List ε} {s : σ} (hs : P s) : Stays step f P s es ↔ Meets step ok s es := by
  induction es generalizing s with
  | nil =>
    refine iff_of_true ?_ trivial
    intro pre hpre
    obtain rfl := List.prefix_nil.mp hpre
    exact ⟨by simp, fun t ht => Except.ok.inj ht ▸ hs⟩
  | cons e es ih =>
    rw [stays_cons]
    constructor
    · rintro ⟨-, he, h⟩
      have hP : ∀ t, step s e = .ok t → P t := fun t ht => (h t ht [] (List.nil_prefix)).2 t rfl
      exact ⟨(hstep hs).mp ⟨he, hP⟩, fun t ht => (ih (hP t ht)).mp (h t ht)⟩
    · rintro ⟨hok, h⟩
      obtain ⟨he, hP⟩ := (hstep hs).mpr hok
      exact ⟨hs, he, fun t ht => (ih (hP t ht)).mpr (h t ht)⟩

/-- RULE (history): a law between the start, the events so far and the state, which can be restarted
    behind every step under the condition, holds all along a run that goes through exactly if its
    steps meet the condition. -/
theorem prefixes_iff_meets {L : σ → List ε → σ → Prop} (hnil : ∀ s, L s [] s)
    (hstep : ∀ {s e t}, step s e = .ok t → (L s [e] t ↔ ok s e))
    (hcons : ∀ {s e t es u}, step s e = .ok t → ok s e → (L s (e :: es) u ↔ L t es u))
    {es : List ε} {s u : σ} (h : run step s es = .ok u) :
    (∀ pre t, pre <+: es → run step s pre = .ok t → L s pre t) ↔ Meets step ok s es := by
  induction es generalizing s with
  | nil =>
    refine iff_of_true ?_ trivial
    intro pre t hpre ht
    obtain rfl := List.prefix_nil.mp hpre
    obtain rfl : s = t := by simpa using ht
    exact hnil s
  | cons e es ih =>
    obtain ⟨t, ht, hrest⟩ := run_cons_ok.mp h
    have hrun : ∀ pre, run step s (e :: pre) = run step t pre := fun pre => by
      rw [run_cons, ht]; rfl
    constructor
    · intro hlaw
      have hok : ok s e := (hstep ht).mp (hlaw [e] t (by simp) (by rw [hrun]; rfl))
      refine ⟨hok, ?_⟩
      intro t' ht'
      obtain rfl : t = t' := by simpa [ht] using ht'
      refine (ih hrest).mp ?_
      intro pre v hpre hv
      exact (hcons ht hok).mp (hlaw (e :: pre) v ((List.prefix_cons_inj e).mpr hpre)
        ((hrun pre).trans hv))
    · rintro ⟨hok, hmeets⟩ pre v hpre hv
      cases pre with
      | nil =>
        obtain rfl : s = v := by simpa using hv
        exact hnil s
      | cons d pre =>
        obtain ⟨rfl, htail⟩ := List.cons_prefix_cons.mp hpre
        exact (hcons ht hok).mpr ((ih hrest).mpr (hmeets t ht) pre v htail ((hrun pre).symm.trans hv))

end Schemes
