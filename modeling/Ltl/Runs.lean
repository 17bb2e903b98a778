-- Runs of a step function: what holds at the start and after each allowed
-- step holds in every state that a run reaches.
import Mathlib.Logic.Relation

namespace runs

variable {σ ε : Type}

/-- One step, by an event that `ok` allows in the state before it. -/
def Step (step : σ → ε → Option σ) (ok : σ → ε → Prop) (s s' : σ) : Prop :=
  ∃ e, ok s e ∧ step s e = some s'

/-- `s'` is reached from `s` by a run of allowed steps. -/
def Reach (step : σ → ε → Option σ) (ok : σ → ε → Prop) : σ → σ → Prop :=
  Relation.ReflTransGen (Step step ok)

/-- Every event is allowed. -/
def anyEvent : σ → ε → Prop := fun _ _ => True

/-- The state after a list of events, when each of them is enabled. -/
def run (step : σ → ε → Option σ) (s : σ) : List ε → Option σ
  | [] => some s
  | e :: es => (step s e).bind (fun s' => run step s' es)

variable {step : σ → ε → Option σ} {ok : σ → ε → Prop}

theorem Reach.start (s : σ) : Reach step ok s s := Relation.ReflTransGen.refl

theorem Reach.next {s s' s'' : σ} {e : ε} (h : Reach step ok s s') (hok : ok s' e)
    (hs : step s' e = some s'') : Reach step ok s s'' :=
  Relation.ReflTransGen.tail h ⟨e, hok, hs⟩

/-- Fewer runs are allowed when fewer events are. -/
theorem Reach.mono {ok' : σ → ε → Prop} (himp : ∀ s e, ok s e → ok' s e) {s s' : σ}
    (h : Reach step ok s s') : Reach step ok' s s' := by
  induction h with
  | refl => exact Reach.start s
  | tail _ hl ih =>
    obtain ⟨e, hok, hs⟩ := hl
    exact ih.next (himp _ e hok) hs

/-- The rule of invariants: what one step preserves, a run preserves. -/
theorem Reach.invariant {P : σ → Prop} {s s' : σ} (h : Reach step ok s s') (h0 : P s)
    (hstep : ∀ t e t', P t → ok t e → step t e = some t' → P t') : P s' := by
  induction h with
  | refl => exact h0
  | tail _ hl ih =>
    obtain ⟨e, hok, hs⟩ := hl
    exact hstep _ e _ ih hok hs

/-- An invariant whose step may use what is known of every reached state. -/
theorem Reach.invariant_on {P Q : σ → Prop} {s s' : σ} (h : Reach step ok s s')
    (hQ : ∀ t, Reach step ok s t → Q t) (h0 : P s)
    (hstep : ∀ t e t', Q t → P t → ok t e → step t e = some t' → P t') : P s' := by
  induction h with
  | refl => exact h0
  | tail hr hl ih =>
    obtain ⟨e, hok, hs⟩ := hl
    exact hstep _ e _ (hQ _ hr) ih hok hs

/-- A list of events, each of them allowed where it happens, is a run. -/
theorem reach_of_run (es : List ε) (s s' : σ) (hok : ∀ t e, e ∈ es → ok t e)
    (h : run step s es = some s') : Reach step ok s s' := by
  induction es generalizing s with
  | nil =>
    cases h
    exact Reach.start _
  | cons e es ih =>
    obtain ⟨t, ht, hrest⟩ := Option.bind_eq_some_iff.mp h
    exact Relation.ReflTransGen.head ⟨e, hok s e (by simp), ht⟩
      (ih t (fun t e he => hok t e (List.mem_cons_of_mem _ he)) hrest)

/-- A run of any events. -/
theorem reach_anyEvent {es : List ε} {s s' : σ} (h : run step s es = some s') :
    Reach step anyEvent s s' := reach_of_run es s s' (fun _ _ _ => trivial) h

/-- The state after a list of events, when each of them is enabled and allowed. -/
def runOk (step : σ → ε → Option σ) (ok : σ → ε → Prop) [∀ s e, Decidable (ok s e)] (s : σ) :
    List ε → Option σ
  | [] => some s
  | e :: es => if ok s e then (step s e).bind (fun s' => runOk step ok s' es) else none

theorem reach_of_runOk [∀ s e, Decidable (ok s e)] (es : List ε) (s s' : σ)
    (h : runOk step ok s es = some s') : Reach step ok s s' := by
  induction es generalizing s with
  | nil =>
    cases h
    exact Reach.start _
  | cons e es ih =>
    unfold runOk at h
    split at h
    · rename_i hok
      obtain ⟨t, ht, hrest⟩ := Option.bind_eq_some_iff.mp h
      exact Relation.ReflTransGen.head ⟨e, hok, ht⟩ (ih t hrest)
    · cases h

/-! ## Runs with a record -/

/-- The step with a record beside the state. The record reads the run and never changes it. -/
def recorded {η : Type} (step : σ → ε → Option σ) (record : σ → ε → σ → η → η) (s : σ × η) (e : ε) :
    Option (σ × η) :=
  (step s.1 e).map (fun s' => (s', record s.1 e s' s.2))

section
variable {η : Type} {record : σ → ε → σ → η → η}

theorem recorded_eq {s s' : σ × η} {e : ε} (h : recorded step record s e = some s') :
    step s.1 e = some s'.1 ∧ s'.2 = record s.1 e s'.1 s.2 := by
  unfold recorded at h
  obtain ⟨t, ht, rfl⟩ := Option.map_eq_some_iff.mp h
  exact ⟨ht, rfl⟩

/-- Every run has a record. -/
theorem Reach.with_record {s s' : σ} (h : Reach step ok s s') (f : σ → ε → σ → η → η) (r : η) :
    ∃ r', Reach (recorded step f) (fun x e => ok x.1 e) (s, r) (s', r') := by
  induction h with
  | refl => exact ⟨r, Reach.start _⟩
  | tail _ hl ih =>
    obtain ⟨r', hr'⟩ := ih
    obtain ⟨e, hok, hs⟩ := hl
    exact ⟨_, hr'.next (e := e) hok (by simp only [recorded, hs, Option.map_some]; rfl)⟩

end

/-! ## Runs that end -/

/-- A measure that each allowed step lowers, as long as `I` holds, bounds every run. -/
theorem length_le_of_decreases [∀ s e, Decidable (ok s e)] {I : σ → Prop} {m : σ → Nat}
    (hstep : ∀ s e s', I s → ok s e → step s e = some s' → I s' ∧ m s' < m s) (es : List ε)
    {s s' : σ} (hs : I s) (h : runOk step ok s es = some s') : es.length + m s' ≤ m s := by
  induction es generalizing s with
  | nil =>
    cases h
    simp
  | cons e es ih =>
    unfold runOk at h
    split at h
    · rename_i hok
      obtain ⟨t, ht, hrest⟩ := Option.bind_eq_some_iff.mp h
      obtain ⟨hI, hm⟩ := hstep s e t hs hok ht
      have hle := ih hI hrest
      simp only [List.length_cons]
      omega
    · cases h

/-- And some run goes on until no step is allowed. -/
theorem reach_end_of_decreases {I : σ → Prop} {m : σ → Nat}
    (hstep : ∀ s e s', I s → ok s e → step s e = some s' → I s' ∧ m s' < m s) (s : σ) (hs : I s) :
    ∃ s', Reach step ok s s' ∧ ∀ e, ok s' e → step s' e = none := by
  induction hm : m s using Nat.strongRecOn generalizing s with
  | _ k ih =>
    by_cases hend : ∀ e, ok s e → step s e = none
    · exact ⟨s, Reach.start s, hend⟩
    · obtain ⟨e, he⟩ := Classical.not_forall.mp hend
      obtain ⟨hok, hne⟩ := Classical.not_imp.mp he
      obtain ⟨t, ht⟩ := Option.ne_none_iff_exists'.mp hne
      obtain ⟨hI, hlt⟩ := hstep s e t hs hok ht
      obtain ⟨s', hr, hno⟩ := ih (m t) (by omega) t hI rfl
      exact ⟨s', Relation.ReflTransGen.head ⟨e, hok, ht⟩ hr, hno⟩

end runs
