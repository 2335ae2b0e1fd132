import AcqBoard.Schemes.Run

/-! Machines with an output at each step.

    A concrete machine may be undefined at a step; the abstract machine it is compared with is total.
    A refinement that fails at some states has an exact condition: the traces agree if and only if
    every step is taken where the two machines agree. -/

namespace Schemes

variable {σ τ ε φ ρ : Type}

/-- Run a list of events and collect the outputs. -/
def trace (step : σ → ε → Except φ (σ × ρ)) : σ → List ε → Except φ (σ × List ρ)
  | s, [] => .ok (s, [])
  | s, e :: es => do
    let x ← step s e
    let y ← trace step x.1 es
    pure (y.1, x.2 :: y.2)

/-- The trace of a total machine. -/
def specTrace (spec : τ → ε → τ × ρ) : τ → List ε → τ × List ρ
  | a, [] => (a, [])
  | a, e :: es =>
    let x := spec a e
    let y := specTrace spec x.1 es
    (y.1, x.2 :: y.2)

/-- The machine without its outputs. -/
def next (step : σ → ε → Except φ (σ × ρ)) (s : σ) (e : ε) : Except φ σ :=
  (step s e).map Prod.fst

variable {step : σ → ε → Except φ (σ × ρ)} {spec : τ → ε → τ × ρ} {ok : σ → ε → Prop}

theorem trace_cons_ok {s u : σ} {e : ε} {es : List ε} {rs : List ρ} :
    trace step s (e :: es) = .ok (u, rs) ↔
      ∃ t r rs', step s e = .ok (t, r) ∧ trace step t es = .ok (u, rs') ∧ rs = r :: rs' := by
  constructor
  · intro h
    obtain ⟨⟨t, r⟩, hstep, h⟩ := bind_eq_ok.mp h
    obtain ⟨⟨v, rs'⟩, htail, h⟩ := bind_eq_ok.mp h
    obtain ⟨rfl, rfl⟩ := Prod.mk.inj (pure_eq_ok.mp h)
    exact ⟨t, r, rs', hstep, htail, rfl⟩
  · rintro ⟨t, r, rs', hstep, htail, rfl⟩
    exact bind_eq_ok.mpr ⟨(t, r), hstep, bind_eq_ok.mpr ⟨(u, rs'), htail, rfl⟩⟩

theorem trace_cons_error {s : σ} {e : ε} {es : List ε} {f : φ} :
    trace step s (e :: es) = .error f ↔
      step s e = .error f ∨ ∃ t r, step s e = .ok (t, r) ∧ trace step t es = .error f := by
  constructor
  · intro h
    rcases bind_eq_error.mp h with h | ⟨⟨t, r⟩, hstep, h⟩
    · exact Or.inl h
    · rcases bind_eq_error.mp h with h | ⟨y, -, h⟩
      · exact Or.inr ⟨t, r, hstep, h⟩
      · cases h
  · rintro (h | ⟨t, r, hstep, h⟩)
    · exact bind_eq_error.mpr (Or.inl h)
    · exact bind_eq_error.mpr (Or.inr ⟨(t, r), hstep, bind_eq_error.mpr (Or.inl h)⟩)

theorem trace_append_ok {s u : σ} {es fs : List ε} {rs : List ρ} :
    trace step s (es ++ fs) = .ok (u, rs) ↔ ∃ t rs₁ rs₂, trace step s es = .ok (t, rs₁) ∧
      trace step t fs = .ok (u, rs₂) ∧ rs = rs₁ ++ rs₂ := by
  induction es generalizing s rs with
  | nil =>
    constructor
    · intro h
      exact ⟨s, [], rs, rfl, h, rfl⟩
    · rintro ⟨t, rs₁, rs₂, hnil, h, rfl⟩
      obtain ⟨rfl, rfl⟩ := Prod.mk.inj (Except.ok.inj hnil)
      exact h
  | cons e es ih =>
    constructor
    · intro h
      obtain ⟨t, r, rs', hstep, htail, rfl⟩ := trace_cons_ok.mp h
      obtain ⟨v, rs₁, rs₂, h₁, h₂, rfl⟩ := ih.mp htail
      exact ⟨v, r :: rs₁, rs₂, trace_cons_ok.mpr ⟨t, r, rs₁, hstep, h₁, rfl⟩, h₂, rfl⟩
    · rintro ⟨v, rs₀, rs₂, h, h₂, rfl⟩
      obtain ⟨t, r, rs₁, hstep, h₁, rfl⟩ := trace_cons_ok.mp h
      exact trace_cons_ok.mpr ⟨t, r, rs₁ ++ rs₂, hstep, ih.mpr ⟨v, rs₁, rs₂, h₁, h₂, rfl⟩, rfl⟩

theorem next_eq_ok {s t : σ} {e : ε} : next step s e = .ok t ↔ ∃ r, step s e = .ok (t, r) := by
  unfold next
  cases step s e with
  | error f => simp [Except.map]
  | ok x => cases x; simp [Except.map]

/-- RULE (exact refinement): if under `ok` a step agrees with the abstract machine, and elsewhere
    its output differs, then a whole run agrees exactly if all its steps meet `ok`. -/
theorem trace_refines_iff (abs : σ → τ)
    (hok : ∀ {s e t r}, ok s e → step s e = .ok (t, r) → spec (abs s) e = (abs t, r))
    (hbad : ∀ {s e t r}, ¬ ok s e → step s e = .ok (t, r) → (spec (abs s) e).2 ≠ r)
    {es : List ε} {s t : σ} {rs : List ρ} (h : trace step s es = .ok (t, rs)) :
    specTrace spec (abs s) es = (abs t, rs) ↔ Meets (next step) ok s es := by
  induction es generalizing s rs with
  | nil =>
    obtain ⟨rfl, rfl⟩ := Prod.mk.inj (Except.ok.inj h)
    exact iff_of_true rfl trivial
  | cons e es ih =>
    obtain ⟨u, r, rs', hu, htail, rfl⟩ := trace_cons_ok.mp h
    constructor
    · intro heq
      obtain ⟨hst, hout⟩ := Prod.mk.inj heq
      obtain ⟨hr, hrs⟩ := List.cons.inj hout
      have hse : ok s e := by
        by_contra hn
        exact hbad hn hu hr
      refine ⟨hse, ?_⟩
      intro v hv
      obtain ⟨q, hv⟩ := next_eq_ok.mp hv
      obtain ⟨rfl, rfl⟩ := Prod.mk.inj (Except.ok.inj (hu.symm.trans hv))
      refine (ih htail).mp ?_
      rw [hok hse hu] at hst hrs
      exact Prod.ext hst hrs
    · rintro ⟨hse, hrest⟩
      have htl := (ih htail).mpr (hrest u (next_eq_ok.mpr ⟨r, hu⟩))
      simp only [specTrace, hok hse hu, htl]

end Schemes
