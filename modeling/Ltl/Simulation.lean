-- Simulation: when each step of one system is answered by the steps of another
-- one, each run is answered by a run.
import Ltl.Runs

namespace runs

variable {σ τ ε η : Type} {step : σ → ε → Option σ} {ok : σ → ε → Prop}
  {step' : τ → η → Option τ} {ok' : τ → η → Prop} {R : σ → τ → Prop}

instance (s : σ) (e : ε) : Decidable (anyEvent s e) := isTrue trivial

theorem runOk_anyEvent (es : List ε) (s : σ) : runOk step anyEvent s es = run step s es := by
  induction es generalizing s with
  | nil => rfl
  | cons e es ih => simp only [runOk, run, anyEvent, if_true, ih]

theorem run_append (es es' : List ε) (s : σ) :
    run step s (es ++ es') = (run step s es).bind (fun t => run step t es') := by
  induction es generalizing s with
  | nil => rfl
  | cons e es ih =>
    simp only [List.cons_append, run, Option.bind_assoc]
    exact congrArg _ (funext ih)

/-- A run is the run of some list of events. -/
theorem run_of_reach {s s' : σ} (h : Reach step ok s s') : ∃ es, run step s es = some s' := by
  induction h with
  | refl => exact ⟨[], rfl⟩
  | tail _ hl ih =>
    obtain ⟨es, hes⟩ := ih
    obtain ⟨e, -, he⟩ := hl
    exact ⟨es ++ [e], by simp [run_append, hes, run, he]⟩

/-- Each allowed step from related states is answered by a run, to related states. -/
def Simulates (step : σ → ε → Option σ) (ok : σ → ε → Prop) (step' : τ → η → Option τ)
    (ok' : τ → η → Prop) (R : σ → τ → Prop) : Prop :=
  ∀ s t e s', R s t → ok s e → step s e = some s' → ∃ t', Reach step' ok' t t' ∧ R s' t'

/-- The rule of simulations: what answers one step answers a run. -/
theorem Simulates.reach (h : Simulates step ok step' ok' R) {s s' : σ} {t : τ} (h0 : R s t)
    (hr : Reach step ok s s') : ∃ t', Reach step' ok' t t' ∧ R s' t' := by
  induction hr with
  | refl => exact ⟨t, Reach.start t, h0⟩
  | tail _ hl ih =>
    obtain ⟨u, hu, hR⟩ := ih
    obtain ⟨e, hok, hs⟩ := hl
    obtain ⟨t', ht', hR'⟩ := h _ u e _ hR hok hs
    exact ⟨t', hu.trans ht', hR'⟩

/-- Each allowed step from related states is answered by one step, whose event is known. -/
def Lockstep (step : σ → ε → Option σ) (ok : σ → ε → Prop) (step' : τ → η → Option τ)
    (ok' : τ → η → Prop) (f : ε → η) (R : σ → τ → Prop) : Prop :=
  ∀ s t e s', R s t → ok s e → step s e = some s' →
    ok' t (f e) ∧ ∃ t', step' t (f e) = some t' ∧ R s' t'

theorem Lockstep.runOk [∀ s e, Decidable (ok s e)] [∀ t e, Decidable (ok' t e)] {f : ε → η}
    (h : Lockstep step ok step' ok' f R) (es : List ε) {s s' : σ} {t : τ} (h0 : R s t)
    (hr : runOk step ok s es = some s') :
    ∃ t', runs.runOk step' ok' t (es.map f) = some t' ∧ R s' t' := by
  induction es generalizing s t with
  | nil =>
    cases hr
    exact ⟨t, rfl, h0⟩
  | cons e es ih =>
    unfold runs.runOk at hr
    split at hr
    · rename_i hok
      obtain ⟨u, hu, hrest⟩ := Option.bind_eq_some_iff.mp hr
      obtain ⟨hok', v, hv, hR⟩ := h s t e u h0 hok hu
      obtain ⟨t', ht', hR'⟩ := ih hR hrest
      refine ⟨t', ?_, hR'⟩
      rw [List.map_cons, runs.runOk, if_pos hok', hv]
      exact ht'
    · cases hr

end runs
