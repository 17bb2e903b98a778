-- One call of a setter (future_state.hpp), up to its return: the loop over the
-- continuations with all that they call, setters of further states included.
import Ltl.Futures

open ltl.future_state
open ltl.futures (Exception)

namespace ltl.setters

variable {ν ε : Type}

/-! ## Continuations -/

/-- What a setter finds in `continuations_`, each with all that it meets when it is called. Of
`wait`: the signal. Of `continue_with`: what its function throws, if anything. Of `then`: what
its function returns or throws, what the constructor of the stored value throws, and the
continuations that the state of the result has by then. -/
inductive Continuation (ν ε : Type) where
  | signal
  | call (throws : Option (Exception ε))
  | then_ (func : Except (Exception ε) ν) (built : Option (Exception ε))
      (dependents : List (Continuation ν ε))

def Continuation.isSignal : Continuation ν ε → Bool
  | .signal => true
  | _ => false

mutual

/-- A call of a continuation: the exception that leaves it. The one of `then` sets its state with
the dependents; `invoke_then` derives this from the code of `invoke_and_set_value`. -/
def invoke : Continuation ν ε → Option (Exception ε)
  | .signal => none
  | .call throws => throws
  | .then_ (.ok _) none dependents =>
    match (drain dependents).2 with
    | none => none
    -- caught, and the setter of the handler finds the state ready
    | some _ => some .promise_already_satisfied
  -- the loop of the setter in the handler has no `try` around it
  | .then_ (.ok _) (some _) dependents => (drain dependents).2
  | .then_ (.error _) _ dependents => (drain dependents).2

/-- `for (auto&& f : cs) f();`: the continuations that are called, and the exception that ends
the loop. -/
def drain : List (Continuation ν ε) → List (Continuation ν ε) × Option (Exception ε)
  | [] => ([], none)
  | c :: cs =>
    match invoke c with
    | some x => ([c], some x)
    | none => (c :: (drain cs).1, (drain cs).2)

end

/-! ## Setters -/

abbrev State (ν ε : Type) := FutureState (Continuation ν ε) ν (Exception ε) Nat

/-- What a setter leaves: the state, the continuations that it has called, in order, and the
exception that it throws. -/
structure Result (ν ε : Type) where
  state : State ν ε
  ran : List (Continuation ν ε)
  thrown : Option (Exception ε)

/-- The rest of a setter after its locked part. -/
def finish : Locked (Continuation ν ε) (Exception ε) × State ν ε → Result ν ε
  | (.already, s) => ⟨s, [], some .promise_already_satisfied⟩
  | (.ignored, s) => ⟨s, [], none⟩
  | (.built x, s) => ⟨s, [], some x⟩
  | (.stored cs, s) =>
    ⟨if (drain cs).1.any Continuation.isSignal then signal s else s, (drain cs).1, (drain cs).2⟩

/-- What the constructor of the stored value gives, when it throws what `built` says. -/
def storedAs (v : ν) (built : Option (Exception ε)) : Except (Exception ε) ν :=
  match built with
  | some x => .error x
  | none => .ok v

/-- The calls of a setter with a value or a non-null exception. -/
inductive Setter (ν ε : Type) where
  | value (v : ν) (built : Option (Exception ε)) (allow_exception : Bool)
  | exception (x : Exception ε)

def Setter.locked (s : State ν ε) :
    Setter ν ε → Locked (Continuation ν ε) (Exception ε) × State ν ε
  | .value v built allow => set_value_impl s (storedAs v built) allow
  | .exception x => future_state.set_exception s (some x)

def run (s : State ν ε) (m : Setter ν ε) : Result ν ε := finish (m.locked s)

/-- `try { rs.set_value(func()); } catch (...) { rs.set_exception(std::current_exception()); }`,
when `func` ends with `r`. -/
def invoke_and_set_value (rs : State ν ε) (r : Except (Exception ε) ν)
    (built : Option (Exception ε)) : Result ν ε :=
  match r with
  | .error x => run rs (.exception x)
  | .ok v =>
    let set := run rs (.value v built true)
    match set.thrown with
    | none => set
    | some x =>
      let handled := run set.state (.exception x)
      { handled with ran := set.ran ++ handled.ran }

/-- The call of a continuation of `then` throws what `invoke_and_set_value` does on its state. -/
theorem invoke_then (r : Except (Exception ε) ν) (built : Option (Exception ε))
    (dependents : List (Continuation ν ε)) :
    invoke (.then_ r built dependents) =
      (invoke_and_set_value { continuations_ := dependents } r built).thrown := by
  cases r with
  | error x => simp only [invoke]; rfl
  | ok v =>
    cases built with
    | some x => simp only [invoke]; rfl
    | none =>
      have hset : run { continuations_ := dependents } (.value v none true) =
          finish (.stored dependents, { value_ := some v }) := rfl
      simp only [invoke, invoke_and_set_value, hset, finish]
      cases (drain dependents).2 with
      | none => rfl
      | some x =>
        simp only
        split <;> rfl

/-! ## Continuations that throw -/

mutual

/-- A continuation of `continue_with` throws as its function does, one of `then` when one of its
dependents throws, one of `wait` never. -/
def Continuation.throws : Continuation ν ε → Bool
  | .signal => false
  | .call x => x.isSome
  | .then_ _ _ dependents => anyThrows dependents

def anyThrows : List (Continuation ν ε) → Bool
  | [] => false
  | c :: cs => c.throws || anyThrows cs

end

mutual

theorem invoke_isSome : (c : Continuation ν ε) → (invoke c).isSome = c.throws
  | .signal => rfl
  | .call _ => rfl
  | .then_ (.ok _) none dependents => by
    have ih := drain_isSome dependents
    simp only [invoke, Continuation.throws]
    rw [← ih]
    cases (drain dependents).2 <;> rfl
  | .then_ (.ok _) (some _) dependents => by
    simpa only [invoke, Continuation.throws] using drain_isSome dependents
  | .then_ (.error _) _ dependents => by
    simpa only [invoke, Continuation.throws] using drain_isSome dependents

theorem drain_isSome : (cs : List (Continuation ν ε)) → (drain cs).2.isSome = anyThrows cs
  | [] => rfl
  | c :: cs => by
    have hc := invoke_isSome c
    have ih := drain_isSome cs
    simp only [drain, anyThrows]
    rw [← hc, ← ih]
    cases invoke c <;> rfl

end

theorem invoke_none {c : Continuation ν ε} : invoke c = none ↔ c.throws = false := by
  rw [← invoke_isSome, Option.isSome_eq_false_iff, Option.isNone_iff_eq_none]

/-- The loop calls the continuations in their order, up to the first that throws. -/
theorem drain_in_order (cs : List (Continuation ν ε)) : (drain cs).1 <+: cs := by
  induction cs with
  | nil => exact List.prefix_refl []
  | cons c cs ih =>
    simp only [drain]
    cases invoke c with
    | some x => exact ⟨cs, rfl⟩
    | none => exact List.prefix_cons_inj c |>.mpr ih

/-- The loop reaches its end when none but the last continuation throws. -/
theorem drain_all (cs : List (Continuation ν ε)) :
    (drain cs).1 = cs ↔ ∀ c ∈ cs.dropLast, c.throws = false := by
  induction cs with
  | nil => exact iff_of_true rfl nofun
  | cons c cs ih =>
    cases hc : invoke c with
    | none =>
      have hthrows : c.throws = false := invoke_none.mp hc
      cases cs with
      | nil => simp only [drain, hc, List.dropLast_singleton, List.not_mem_nil, false_implies,
          implies_true]
      | cons d ds =>
        rw [drain, hc]
        simp only [List.dropLast_cons_cons, List.forall_mem_cons, hthrows, true_and, List.cons.injEq]
        exact ih
    | some x =>
      have hthrows : c.throws = true := by
        rw [← invoke_isSome, hc]
        rfl
      cases cs with
      | nil => simp only [drain, hc, List.dropLast_singleton, List.not_mem_nil, false_implies,
          implies_true]
      | cons d ds =>
        rw [drain, hc]
        simp only [List.dropLast_cons_cons, List.forall_mem_cons, hthrows, List.cons.injEq,
          List.nil_eq, reduceCtorEq, and_false, false_and]

/-! ## What a setter does -/

/-- A state that is ready has no continuations left. -/
def Emptied (s : State ν ε) : Prop := ready s = true → s.continuations_ = []

theorem init_emptied : Emptied ({} : State ν ε) := fun _ => rfl

theorem add_continuation_emptied {s s' : State ν ε} {c : Continuation ν ε}
    (h : add_continuation s c = some s') : Emptied s' := by
  rcases add_continuation.spec s c with ⟨_, hnone⟩ | ⟨hr, hsome⟩
  · exact absurd (hnone.symm.trans h) nofun
  · cases hsome.symm.trans h
    exact fun hready => absurd (hr.symm.trans hready) nofun

theorem wait_emptied {s s' : State ν ε} {c : Continuation ν ε} (h : wait s c = some s') :
    Emptied s' := by
  rcases wait.spec s c with ⟨_, hnone⟩ | ⟨hr, _, hsome⟩ | ⟨hr, _, hsome⟩
  · exact absurd (hnone.symm.trans h) nofun
  · cases hsome.symm.trans h
    exact fun hready => absurd (hr.symm.trans hready) nofun
  · cases hsome.symm.trans h
    exact fun hready => absurd (hr.symm.trans hready) nofun

/-- The construction of the value that the call stores throws. -/
def Setter.fails : Setter ν ε → Bool
  | .value _ built _ => built.isSome
  | .exception _ => false

/-- The ends of the locked part: it leaves a ready state as it is, the construction throws, or
the state is ready and its continuations are in the hands of the setter. -/
theorem locked.spec (s : State ν ε) (m : Setter ν ε) :
    (ready s = true ∧ (m.locked s = (.already, s) ∨ m.locked s = (.ignored, s))) ∨
    (ready s = false ∧ m.fails = true ∧ ∃ x, m.locked s = (.built x, s)) ∨
    (ready s = false ∧ m.fails = false ∧ ∃ s', m.locked s = (.stored s.continuations_, s') ∧
      ready s' = true ∧ s'.continuations_ = []) := by
  cases hr : ready s with
  | true =>
    refine Or.inl ⟨rfl, ?_⟩
    cases m with
    | value v built allow =>
      have h : Setter.locked s (.value v built allow) =
          if allow then (.already, s) else (.ignored, s) := by
        simp only [Setter.locked, set_value_impl, hr, if_true]
      cases allow
      · exact Or.inr h
      · exact Or.inl h
    | exception x =>
      left
      simp only [Setter.locked, future_state.set_exception, hr, if_true]
  | false =>
    refine Or.inr ?_
    cases m with
    | value v built allow =>
      cases built with
      | some x =>
        refine Or.inl ⟨rfl, rfl, x, ?_⟩
        simp only [Setter.locked, set_value_impl, hr, Bool.false_eq_true, if_false, storedAs]
      | none =>
        refine Or.inr ⟨rfl, rfl, { s with value_ := some v, continuations_ := [] }, ?_, rfl, rfl⟩
        simp only [Setter.locked, set_value_impl, hr, Bool.false_eq_true, if_false, storedAs]
    | exception x =>
      refine Or.inr ⟨rfl, rfl, { s with exception_ := some x, continuations_ := [] }, ?_,
        Bool.or_true _, rfl⟩
      simp only [Setter.locked, future_state.set_exception, hr, Bool.false_eq_true, if_false]

/-- The signal leaves all but the block as it is. -/
theorem finish_stored (cs : List (Continuation ν ε)) (s : State ν ε) :
    ready (finish (.stored cs, s)).state = ready s ∧
      (finish (.stored cs, s)).state.continuations_ = s.continuations_ := by
  simp only [finish]
  split
  · exact ⟨rfl, rfl⟩
  · exact ⟨rfl, rfl⟩

/-- The ends of a setter. -/
theorem run.spec (s : State ν ε) (m : Setter ν ε) :
    (ready s = true ∧ (run s m).state = s ∧ (run s m).ran = []) ∨
    (ready s = false ∧ m.fails = true ∧ (run s m).state = s ∧ (run s m).ran = [] ∧
      (run s m).thrown ≠ none) ∨
    (ready s = false ∧ m.fails = false ∧ ready (run s m).state = true ∧
      (run s m).state.continuations_ = [] ∧ (run s m).ran = (drain s.continuations_).1) := by
  unfold run
  rcases locked.spec s m with ⟨hr, h | h⟩ | ⟨hr, hf, x, h⟩ | ⟨hr, hf, s', h, hready, hcs⟩
  · rw [h]
    exact Or.inl ⟨hr, rfl, rfl⟩
  · rw [h]
    exact Or.inl ⟨hr, rfl, rfl⟩
  · rw [h]
    exact Or.inr (Or.inl ⟨hr, hf, rfl, rfl, Option.some_ne_none x⟩)
  · obtain ⟨hr', hcs'⟩ := finish_stored s.continuations_ s'
    rw [h]
    exact Or.inr (Or.inr ⟨hr, hf, hr'.trans hready, hcs'.trans hcs, rfl⟩)

theorem run_emptied {s : State ν ε} (h : Emptied s) (m : Setter ν ε) : Emptied (run s m).state := by
  rcases run.spec s m with ⟨_, hs, _⟩ | ⟨_, _, hs, _⟩ | ⟨_, _, _, hcs, _⟩
  · rw [hs]
    exact h
  · rw [hs]
    exact h
  · exact fun _ => hcs

/-! ## All or nothing -/

/-- The setter throws, all is as before and no continuation has run, or the state is ready and
every pending continuation has been called once. -/
def AllOrNothing (s : State ν ε) (r : Result ν ε) : Prop :=
  (r.thrown ≠ none ∧ r.state = s ∧ r.ran = []) ∨
  (ready r.state = true ∧ r.ran.Perm s.continuations_)

/-- The state is ready, the construction of the stored value throws, or no continuation before
the last throws. -/
def Undisturbed (s : State ν ε) (m : Setter ν ε) : Prop :=
  ready s = true ∨ m.fails = true ∨ ∀ c ∈ s.continuations_.dropLast, c.throws = false

theorem drain_perm (cs : List (Continuation ν ε)) :
    (drain cs).1.Perm cs ↔ ∀ c ∈ cs.dropLast, c.throws = false := by
  rw [← drain_all]
  constructor
  · intro h
    exact (drain_in_order cs).eq_of_length h.length_eq
  · intro h
    rw [h]

/-- A setter does all or nothing exactly when no continuation before the last one throws, unless
the state is ready or the construction of the stored value throws. -/
theorem a_setter_does_all_or_nothing (s : State ν ε) (h : Emptied s) (m : Setter ν ε) :
    AllOrNothing s (run s m) ↔ Undisturbed s m := by
  rcases run.spec s m with ⟨hr, hs, hran⟩ | ⟨_, hf, hs, hran, hx⟩ | ⟨hr, hf, hready, _, hran⟩
  · refine iff_of_true (Or.inr ⟨?_, ?_⟩) (Or.inl hr)
    · rw [hs, hr]
    · rw [hran, h hr]
  · exact iff_of_true (Or.inl ⟨hx, hs, hran⟩) (Or.inr (Or.inl hf))
  · have hall : AllOrNothing s (run s m) ↔ (drain s.continuations_).1.Perm s.continuations_ := by
      constructor
      · rintro (⟨_, hs, _⟩ | ⟨_, hp⟩)
        · -- the state was not ready, and now it is
          rw [hs, hr] at hready
          exact absurd hready nofun
        · exact hran ▸ hp
      · intro hp
        exact Or.inr ⟨hready, hran ▸ hp⟩
    rw [hall, drain_perm]
    constructor
    · exact fun hc => Or.inr (Or.inr hc)
    · rintro (hr' | hf' | hc)
      · exact absurd (hr.symm.trans hr') nofun
      · exact absurd (hf.symm.trans hf') nofun
      · exact hc

/-- A function of `continue_with` that throws, registered before a waiter. -/
def throwsFirst : State Unit Unit :=
  { continuations_ := [.call (some (.user ())), .signal], block_ := some false }

theorem a_setter_does_all_or_nothing_here :
    AllOrNothing ({ continuations_ := [.signal, .call (some (.user ()))] } : State Unit Unit)
      (run { continuations_ := [.signal, .call (some (.user ()))] } (.value () none true)) := by
  refine (a_setter_does_all_or_nothing _ ?_ _).mpr (Or.inr (Or.inr ?_))
  · intro hr
    cases hr
  intro c hc
  cases List.mem_singleton.mp hc
  rfl

/-- The state becomes ready, and the waiter is not woken. -/
theorem a_setter_may_do_a_part :
    Emptied throwsFirst ∧ ¬ AllOrNothing throwsFirst (run throwsFirst (.value () none true)) ∧
      ready (run throwsFirst (.value () none true)).state = true ∧
      (run throwsFirst (.value () none true)).state.block_ = some false := by
  refine ⟨?_, ?_, rfl, rfl⟩
  · intro hr
    cases hr
  · rintro (⟨_, _, hran⟩ | ⟨_, hp⟩)
    · cases hran
    · cases hp.length_eq

/-- The same below a `then`: what leaves it is the error of the second setter. -/
example : (run ({ continuations_ := [.then_ (.ok ()) none [.call (some (.user ()))], .signal] } :
    State Unit Unit) (.value () none true)).thrown = some .promise_already_satisfied := rfl

end ltl.setters
