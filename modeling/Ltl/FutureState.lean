-- One shared state of a future (future_state.hpp): what each function does
-- while it holds the mutex of the state. The code after the lock, such as the
-- loop over the continuations, is in the threads of `Ltl.Futures`.

namespace ltl.future_state

/-- `future_state<T>`. `κ` is the type of its continuations, `ν` of its value, `χ` of an
exception and `θ` of a task queue. A null `unique_ptr`, `exception_ptr` or `shared_ptr` is
`none`; `future_state<void>` has the value `true`, which is `some` of a unit. `block_` holds
`signalled_` of the block. -/
structure FutureState (κ ν χ θ : Type) where
  value_ : Option ν := none
  continuations_ : List κ := []
  await_queue_ : Option θ := none
  block_ : Option Bool := none
  exception_ : Option χ := none
  deriving DecidableEq, Repr

/-- How the locked part of a setter ends: it throws `promise_already_satisfied`, it returns with
nothing done, the constructor of the stored value throws, or it has stored and holds the
continuations it swapped out. -/
inductive Locked (κ χ : Type) where
  | already
  | ignored
  | built (x : χ)
  | stored (cs : List κ)
  deriving DecidableEq, Repr

variable {κ ν χ θ : Type}

def ready (s : FutureState κ ν χ θ) : Bool := s.value_.isSome || s.exception_.isSome

/-- `get`: rethrows the exception, else reads the value. `none` is the read of an absent value. -/
def get (s : FutureState κ ν χ θ) : Option (Except χ ν) :=
  match s.exception_ with
  | some x => some (.error x)
  | none => s.value_.map .ok

/-- `set_value_impl`. `v` is what the constructor of the stored value gives. -/
def set_value_impl (s : FutureState κ ν χ θ) (v : Except χ ν) (allow_exception : Bool) :
    Locked κ χ × FutureState κ ν χ θ :=
  if ready s then
    if allow_exception then (.already, s) else (.ignored, s)
  else
    match v with
    | .error x => (.built x, s)
    | .ok v => (.stored s.continuations_, { s with value_ := some v, continuations_ := [] })

def set_value (s : FutureState κ ν χ θ) (v : Except χ ν) : Locked κ χ × FutureState κ ν χ θ :=
  set_value_impl s v true

/-- `set_exception`. The code does not look at `p`, which may be null. -/
def set_exception (s : FutureState κ ν χ θ) (p : Option χ) : Locked κ χ × FutureState κ ν χ θ :=
  if ready s then (.already, s)
  else (.stored s.continuations_, { s with exception_ := p, continuations_ := [] })

/-- The locked part of `then` and `continue_with`: `none` when the state is ready, and the caller
then runs the function itself. -/
def add_continuation (s : FutureState κ ν χ θ) (k : κ) : Option (FutureState κ ν χ θ) :=
  if ready s then none else some { s with continuations_ := s.continuations_ ++ [k] }

/-- The locked part of `wait`: `none` when there is nothing to wait for. `signal` is the
continuation that signals the block. -/
def wait (s : FutureState κ ν χ θ) (signal : κ) : Option (FutureState κ ν χ θ) :=
  if ready s then none
  else match s.block_ with
    | none => some { s with block_ := some false, continuations_ := s.continuations_ ++ [signal] }
    | some _ => some s

/-- `block::signal` on the block of the state. -/
def signal (s : FutureState κ ν χ θ) : FutureState κ ν χ θ := { s with block_ := some true }

/-! ## What a locked part changes -/

theorem get_isSome (s : FutureState κ ν χ θ) : (get s).isSome = ready s := by
  unfold get ready
  cases s.exception_ <;> cases s.value_ <;> rfl

/-- The four ends of `set_value_impl`. -/
theorem set_value_impl.spec (s s' : FutureState κ ν χ θ) (v : Except χ ν) (allow : Bool)
    (r : Locked κ χ) (h : set_value_impl s v allow = (r, s')) :
    (ready s = true ∧ allow = true ∧ r = .already) ∨
    (ready s = true ∧ allow = false ∧ r = .ignored) ∨
    (ready s = false ∧ ∃ x, v = .error x ∧ r = .built x) ∨
    (ready s = false ∧ ∃ w, v = .ok w ∧ r = .stored s.continuations_ ∧
      s' = { s with value_ := some w, continuations_ := [] }) := by
  unfold set_value_impl at h
  cases hr : ready s
  · simp only [hr, Bool.false_eq_true, if_false] at h
    cases v with
    | error x =>
      cases h
      exact Or.inr (Or.inr (Or.inl ⟨rfl, x, rfl, rfl⟩))
    | ok w =>
      cases h
      exact Or.inr (Or.inr (Or.inr ⟨rfl, w, rfl, rfl, rfl⟩))
  · simp only [hr, if_true] at h
    cases allow
    · cases h
      exact Or.inr (Or.inl ⟨rfl, rfl, rfl⟩)
    · cases h
      exact Or.inl ⟨rfl, rfl, rfl⟩

/-- The two ends of `set_exception`. -/
theorem set_exception.spec (s s' : FutureState κ ν χ θ) (p : Option χ) (r : Locked κ χ)
    (h : set_exception s p = (r, s')) :
    (ready s = true ∧ r = .already) ∨
    (ready s = false ∧ r = .stored s.continuations_ ∧
      s' = { s with exception_ := p, continuations_ := [] }) := by
  unfold set_exception at h
  cases hr : ready s
  · simp only [hr, Bool.false_eq_true, if_false] at h
    cases h
    exact Or.inr ⟨rfl, rfl, rfl⟩
  · simp only [hr, if_true] at h
    cases h
    exact Or.inl ⟨rfl, rfl⟩

theorem add_continuation.spec (s : FutureState κ ν χ θ) (k : κ) :
    (ready s = true ∧ add_continuation s k = none) ∨
    (ready s = false ∧
      add_continuation s k = some { s with continuations_ := s.continuations_ ++ [k] }) := by
  unfold add_continuation
  cases ready s
  · exact Or.inr ⟨rfl, rfl⟩
  · exact Or.inl ⟨rfl, rfl⟩

theorem wait.spec (s : FutureState κ ν χ θ) (k : κ) :
    (ready s = true ∧ wait s k = none) ∨
    (ready s = false ∧ s.block_ = none ∧
      wait s k = some { s with block_ := some false, continuations_ := s.continuations_ ++ [k] }) ∨
    (ready s = false ∧ (∃ b, s.block_ = some b) ∧ wait s k = some s) := by
  unfold wait
  cases ready s
  · cases hb : s.block_ with
    | none => exact Or.inr (Or.inl ⟨rfl, rfl, rfl⟩)
    | some b => exact Or.inr (Or.inr ⟨rfl, ⟨b, rfl⟩, rfl⟩)
  · exact Or.inl ⟨rfl, rfl⟩

end ltl.future_state
