import AcqBoard.Schemes.Interleave
import AcqBoard.Schemes.Trace

/-! Reduction of an interleaving to a machine with larger steps.

    An operation of a party takes several steps, but it takes effect in one of them. There the atomic
    machine takes its step, and the other steps are silent. Which step is which may depend on the
    state. An operation may put something out before it takes effect: until then the interleaving
    holds more output than the atomic machine. -/

namespace Schemes

variable {σ τ ε δ φ ψ ω : Type}

/-- The atomic steps of an interleaving, in the order in which they take effect. -/
def serial (step : σ → ε → Except (Stuck φ) (σ × List ω)) (effect : σ → ε → Option δ) :
    σ → List ε → List δ
  | _, [] => []
  | s, l :: ls =>
    (effect s l).toList ++ match step s l with
      | .ok x => serial step effect x.1 ls
      | .error _ => []

/-- Every step under the side condition `ok` is silent or matched by the atomic step it is the effect
    of, and a fault is one of the atomic step too. The relation says what is put out ahead. -/
structure Reduces (step : σ → ε → Except (Stuck φ) (σ × List ω))
    (atomic : τ → δ → Except ψ (τ × List ω)) (raised : φ → ψ) (effect : σ → ε → Option δ)
    (R : σ → τ → List ω → Prop) (ok : σ → ε → Prop) : Prop where
  silent : ∀ {s t l a held out}, R s a held → ok s l → effect s l = none →
    step s l = .ok (t, out) → R t a (held ++ out)
  matched : ∀ {s t l a e held out}, R s a held → ok s l → effect s l = some e →
    step s l = .ok (t, out) →
    ∃ b out' held', atomic a e = .ok (b, out') ∧ held ++ out = out' ++ held' ∧ R t b held'
  fault : ∀ {s l a held f}, R s a held → ok s l → step s l = .error (.fault f) →
    ∃ e, effect s l = some e ∧ atomic a e = .error (raised f)

variable {step : σ → ε → Except (Stuck φ) (σ × List ω)} {atomic : τ → δ → Except ψ (τ × List ω)}
  {raised : φ → ψ} {effect : σ → ε → Option δ} {R : σ → τ → List ω → Prop} {ok : σ → ε → Prop}

theorem serial_cons_ok {s t : σ} {l : ε} {ls : List ε} {out : List ω} (h : step s l = .ok (t, out)) :
    serial step effect s (l :: ls) = (effect s l).toList ++ serial step effect t ls := by
  rw [serial, h]

theorem serial_cons_error {s : σ} {l : ε} {ls : List ε} {f : Stuck φ} (h : step s l = .error f) :
    serial step effect s (l :: ls) = (effect s l).toList := by
  rw [serial, h, List.append_nil]

/-- RULE (reduction): an interleaving under the side condition is a run of the atomic machine, with
    the same output but for what is put out ahead. -/
theorem Reduces.trace_ok (h : Reduces step atomic raised effect R ok) {ls : List ε} {s t : σ} {a : τ}
    {held : List ω} {outs : List (List ω)} (hR : R s a held) (hm : Meets (next step) ok s ls)
    (hrun : trace step s ls = .ok (t, outs)) :
    ∃ b outs' held', trace atomic a (serial step effect s ls) = .ok (b, outs') ∧
      held ++ outs.flatten = outs'.flatten ++ held' ∧ R t b held' := by
  induction ls generalizing s a held outs with
  | nil =>
    obtain ⟨rfl, rfl⟩ := Prod.mk.inj (Except.ok.inj hrun)
    exact ⟨a, [], held, rfl, List.append_nil held, hR⟩
  | cons l ls ih =>
    obtain ⟨u, out, rest, hstep, htail, rfl⟩ := trace_cons_ok.mp hrun
    have hnext := hm.2 u (next_eq_ok.mpr ⟨out, hstep⟩)
    rw [serial_cons_ok hstep]
    cases he : effect s l with
    | none =>
      obtain ⟨b, outs', held', hb, hflat, hRt⟩ := ih (h.silent hR hm.1 he hstep) hnext htail
      exact ⟨b, outs', held', hb, by rw [← hflat, List.flatten_cons, List.append_assoc], hRt⟩
    | some e =>
      obtain ⟨a', out', held₁, ha', heq, hR'⟩ := h.matched hR hm.1 he hstep
      obtain ⟨b, outs', held', hb, hflat, hRt⟩ := ih hR' hnext htail
      refine ⟨b, out' :: outs', held', trace_cons_ok.mpr ⟨a', out', outs', ha', hb, rfl⟩, ?_, hRt⟩
      rw [List.flatten_cons, List.flatten_cons, List.append_assoc, ← hflat, ← List.append_assoc, heq,
        List.append_assoc]

/-- RULE (reduction, faults): where it faults, the atomic machine faults in the same way. -/
theorem Reduces.trace_fault (h : Reduces step atomic raised effect R ok) {ls : List ε} {s : σ}
    {a : τ} {held : List ω} {f : φ} (hR : R s a held) (hm : Meets (next step) ok s ls)
    (hrun : trace step s ls = .error (.fault f)) :
    trace atomic a (serial step effect s ls) = .error (raised f) := by
  induction ls generalizing s a held with
  | nil => cases hrun
  | cons l ls ih =>
    rcases trace_cons_error.mp hrun with hstep | ⟨u, out, hstep, htail⟩
    · obtain ⟨e, he, ha⟩ := h.fault hR hm.1 hstep
      rw [serial_cons_error hstep, he]
      exact trace_cons_error.mpr (Or.inl ha)
    · have hnext := hm.2 u (next_eq_ok.mpr ⟨out, hstep⟩)
      rw [serial_cons_ok hstep]
      cases he : effect s l with
      | none => exact ih (h.silent hR hm.1 he hstep) hnext htail
      | some e =>
        obtain ⟨a', out', held', ha', -, hR'⟩ := h.matched hR hm.1 he hstep
        exact trace_cons_error.mpr (Or.inr ⟨a', out', ha', ih hR' hnext htail⟩)

/-- RULE (reduction, side conditions): what holds of every atomic step where it takes effect holds
    all along the run of the atomic machine. -/
theorem Reduces.meets (h : Reduces step atomic raised effect R ok) {cond : τ → δ → Prop}
    (hcond : ∀ {s l a e held}, R s a held → ok s l → effect s l = some e → cond a e)
    {ls : List ε} {s : σ} {a : τ} {held : List ω} (hR : R s a held)
    (hm : Meets (next step) ok s ls) :
    Meets (next atomic) cond a (serial step effect s ls) := by
  induction ls generalizing s a held with
  | nil => trivial
  | cons l ls ih =>
    cases hstep : step s l with
    | error f =>
      rw [serial_cons_error hstep]
      cases he : effect s l with
      | none => trivial
      | some e => exact ⟨hcond hR hm.1 he, fun _ _ => trivial⟩
    | ok x =>
      obtain ⟨t, out⟩ := x
      have hnext := hm.2 t (next_eq_ok.mpr ⟨out, hstep⟩)
      rw [serial_cons_ok hstep]
      cases he : effect s l with
      | none => exact ih (h.silent hR hm.1 he hstep) hnext
      | some e =>
        obtain ⟨b, out', held', hb, -, hR'⟩ := h.matched hR hm.1 he hstep
        refine ⟨hcond hR hm.1 he, fun b' hb' => ?_⟩
        obtain ⟨out'', hb'⟩ := next_eq_ok.mp hb'
        obtain ⟨rfl, -⟩ := Prod.mk.inj (Except.ok.inj (hb.symm.trans hb'))
        exact ih hR' hnext

end Schemes
