-- What one step of a thread can do, said once: each step is one of the moves
-- below, so a law of all runs is a case analysis over them.
import Ltl.Futures
import Ltl.Runs

open ltl.future_state

namespace ltl.futures

variable {α ε : Type}

/-- The value or the exception of a state, once it has one. -/
def outcome (c : Config α ε) (st : StateId) : Option (Except (Exception ε) (Value α)) :=
  c.states[st]?.bind get

/-- The state has a value or an exception. -/
def Ready (c : Config α ε) (st : StateId) : Prop := ∃ s, c.states[st]? = some s ∧ ready s = true

/-- `next` calls its function for a value only. -/
def NextHasValue (c : Config α ε) (src : StateId) (func : Func) : Prop :=
  ∀ k, func = .next_ k → ∃ v, outcome c src = some (.ok v)

/-- A step that changes the stack of its thread and nothing else. -/
inductive Local (c : Config α ε) : List (Frame α ε) → List (Frame α ε) → Prop where
  | stay {k} : Local c k k
  | ended {src rs func k} (r) :
      Local c (.user (.callback src rs func) :: k) (.try_set rs r :: k)
  | fn_ended {f k} : Local c (.user (.fn f) :: k) k
  | get_called {b k} (st) : Local c (.user b :: k) (.future_get st :: .user b :: k)
  | failed {rs x k} : Local c (.try_set rs (.error x) :: k) (.handler rs x :: k)
  | tried {rs k} : Local c (.catch_ rs :: k) k
  | drained {st k} : Local c (.drain st [] :: k) k
  | returned {i k} : Local c (.invoking i :: k) k
  | called {src rs func k} (hf : func.client = true) (hv : NextHasValue c src func) :
      Local c (.exec (.invoke_and_set_value src rs func) :: k)
        (.user (.callback src rs func) :: k)
  | passed {src rs func x k} (ho : outcome c src = some (.error x)) :
      Local c (.exec (.invoke_and_set_value src rs func) :: k) (.try_set rs (.error x) :: k)
  | ignored {src rs k} :
      Local c (.exec (.invoke_and_set_value src rs .ignore) :: k) (.try_set rs (.ok .unit) :: k)
  | collecting {src rs fs k} :
      Local c (.exec (.invoke_and_set_value src rs (.get_all fs)) :: k) (.get_all rs fs [] :: k)
  | fn_called {f k} : Local c (.exec (.call f) :: k) (.user (.fn f) :: k)
  | inner {s f k} :
      Local c (.exec (.get_and_set_value s f) :: k) (.future_get f :: .set_got s :: k)
  | registered {n k} : Local c (.register n [] :: k) k
  | counted {n fs k} :
      Local c (.register n (none :: fs) :: k) (.exec (.dec n) :: .register n fs :: k)
  | collected {rs vs k} : Local c (.get_all rs [] vs :: k) (.try_set rs (.ok (.vec vs)) :: k)
  | missing {rs fs vs k} :
      Local c (.get_all rs (none :: fs) vs :: k) (.try_set rs (.error .no_state) :: k)
  | collect {rs st fs vs k} :
      Local c (.get_all rs (some st :: fs) vs :: k) (.future_get st :: .get_all rs fs vs :: k)
  | unwrap_ended {rs s k} : Local c (.unwrap_try rs s :: k) (.try_set rs (.ok .unit) :: k)
  | woken {st g k} (s) (hs : c.states[st]? = some s) (hb : s.block_ = some true) :
      Local c (.waiting st g :: k) (waited st g k)
  | read {st r k} (ho : outcome c st = some r) : Local c (.reading st :: k) (deliver r k)

/-- The registrations: `Adds c a k c' st kont k'` when the call on top of `k`, with the states of
`c'` made, registers `kont` on `st` and goes on with `k'`. -/
inductive Adds (c : Config α ε) :
    Action α ε → List (Frame α ε) → Config α ε → StateId → Cont → List (Frame α ε) → Prop where
  | then_ {st func b k} (hf : func.client = true) :
      Adds c (.then_ (some st) func) (.user b :: k) (c.alloc {}) st
        (.invoke_and_set_value st c.states.length func) (.user b :: k)
  | continue_with {st f b k} :
      Adds c (.continue_with st f) (.user b :: k) c st (.call f) (.user b :: k)
  | unwrap {st o b k} (ho : c.states[st]? = some o) :
      Adds c (.unwrap (some st)) (.user b :: k)
        (((c.alloc { await_queue_ := o.await_queue_ }).alloc {}).note
          [.unwrapped st c.states.length]) st
        (.invoke_and_set_value st (c.states.length + 1) (.unwrap c.states.length))
        (.user b :: k)
  | unwrap_outer {a src rs s f k} (ho : outcome c src = some (.ok (.future (some f)))) :
      Adds c a (.exec (.invoke_and_set_value src rs (.unwrap s)) :: k) c f
        (.get_and_set_value s f) (.unwrap_try rs s :: k)
  | register {a n st fs k} :
      Adds c a (.register n (some st :: fs) :: k) c st (.dec n) (.register n fs :: k)
  | when_all {a prm fs k} :
      Adds c a (.when_all_then prm fs :: k) (c.alloc {}) prm
        (.invoke_and_set_value prm c.states.length (.get_all fs)) k

/-- The locked parts of the setters. -/
abbrev Setter (α ε : Type) := State α ε → Locked (Id × Cont) (Exception ε) × State α ε

/-- The calls of the setters: `Sets c a k st allow f k'` when the call on top of `k` runs the
setter `f` of `st` and goes on with `k'`. -/
inductive Sets (c : Config α ε) : Action α ε → List (Frame α ε) → StateId → Bool →
    Setter α ε → List (Frame α ε) → Prop where
  | set_value {p v built allow b k} (hp : p ∈ c.promises) :
      Sets c (.set_value p v built allow) (.user b :: k) p allow
        (set_value_impl · (storedAs v built) allow) (.user b :: k)
  | set_exception {p x b k} (hp : p ∈ c.promises) :
      Sets c (.set_exception p x) (.user b :: k) p true (set_exception · x) (.user b :: k)
  | try_set {a rs v k} (built) :
      Sets c a (.try_set rs (.ok v) :: k) rs true (set_value · (storedAs v built))
        (.catch_ rs :: k)
  | handler {a rs x k} :
      Sets c a (.handler rs x :: k) rs true (set_exception · (some x)) k
  | set_prm {a prm k} :
      Sets c a (.set_prm prm :: k) prm true (set_value · (.ok .unit)) k

/-- The reads of an absent value and of a null state, and the values of a wrong type. -/
inductive Faults (c : Config α ε) : List (Frame α ε) → Fault → Prop where
  | absent {src rs func k} (ho : outcome c src = none) (hs : ∃ s, c.states[src]? = some s) :
      Faults c (.exec (.invoke_and_set_value src rs func) :: k) .absent_value
  | absent_read {st k} (ho : outcome c st = none) (hs : ∃ s, c.states[st]? = some s) :
      Faults c (.reading st :: k) .absent_value
  | null {src rs s k} (ho : outcome c src = some (.ok (.future none))) :
      Faults c (.exec (.invoke_and_set_value src rs (.unwrap s)) :: k) .null_state
  | type {src rs s v k} (ho : outcome c src = some (.ok v)) (hv : ∀ f, v ≠ .future f) :
      Faults c (.exec (.invoke_and_set_value src rs (.unwrap s)) :: k) .ill_typed

/-- What a step of thread `t`, with the stack `k`, leads to. -/
inductive Moves (c : Config α ε) (t : Nat) :
    Action α ε → List (Frame α ε) → Config α ε → Prop where
  | local_ {a k k'} (h : Local c k k') : Moves c t a k (c.put t k')
  | promise {q b k} : Moves c t (.promise q) (.user b :: k)
      { c.alloc { await_queue_ := q } with promises := c.promises ++ [c.states.length] }
  | made_ready {a b k k'}
      (hk : k' = .user b :: k ∨ k' = .when_all_then c.states.length [] :: .user b :: k) :
      Moves c t a (.user b :: k) ((c.alloc { value_ := some .unit }).put t k')
  | when_all_ready {a b fs q k k'} (hfs : fs ≠ [])
      (hk : k' = .user b :: k ∨ k' = .when_all_then c.states.length fs :: .user b :: k) :
      Moves c t a (.user b :: k) (startWhenAllReady c t fs q k')
  | add {a k c₁ st kont k' c'} (h : Adds c a k c₁ st kont k')
      (hs : lockedAdd c₁ t st kont k' = some c') : Moves c t a k c'
  | set {a k st allow f k' c'} (h : Sets c a k st allow f k')
      (hs : lockedSet c t st allow f k' = some c') : Moves c t a k c'
  | wait {st b k c'} (hs : lockedWait c t st false (.user b :: k) = some c') :
      Moves c t (.wait (some st)) (.user b :: k) c'
  | get {a st k c'} (hs : lockedWait c t st true k = some c') :
      Moves c t a (.future_get st :: k) c'
  | dec {a n k c'} (hs : execDec c t n k = some c') : Moves c t a (.exec (.dec n) :: k) c'
  | signal {a st s k} (hs : c.states[st]? = some s) :
      Moves c t a (.exec (.signal st) :: k) ((c.update st (signal s)).put t k)
  | run {a st i kont cs k} : Moves c t a (.drain st ((i, kont) :: cs) :: k)
      ((c.note [.invoked i]).put t (.exec kont :: .invoking i :: .drain st cs :: k))
  | throw_ {x f k} : Moves c t (.throw_ x) (.user (.fn f) :: k) (throwTo c t x k)
  | fault {a k f} (h : Faults c k f) : Moves c t a k (c.fail f)

theorem put_self {c : Config α ε} {t : Nat} {k : List (Frame α ε)} (h : c.threads[t]? = some k) :
    c.put t k = c := by
  have : c.threads.set t k = c.threads := by
    apply List.ext_getElem?
    intro i
    rw [List.getElem?_set]
    split
    · rename_i hi
      subst hi
      split
      · exact h.symm
      · rw [List.getElem?_eq_none (by omega)]
    · rfl
  unfold Config.put
  rw [this]

theorem outcome_eq {c : Config α ε} {st : StateId} {s : State α ε}
    (hs : c.states[st]? = some s) : outcome c st = get s := by
  simp [outcome, hs]

theorem readState_some {c c' : Config α ε} {st : StateId}
    {k : Except (Exception ε) (Value α) → Option (Config α ε)} (h : readState c st k = some c') :
    (outcome c st = none ∧ (∃ s, c.states[st]? = some s) ∧ c' = c.fail .absent_value) ∨
      ∃ r, outcome c st = some r ∧ k r = some c' := by
  unfold readState at h
  cases hs : c.states[st]? with
  | none => simp [hs] at h
  | some s =>
    simp only [hs] at h
    cases hg : get s with
    | none =>
      simp only [hg, Option.some.injEq] at h
      exact Or.inl ⟨by rw [outcome_eq hs, hg], ⟨s, rfl⟩, h.symm⟩
    | some r =>
      simp only [hg] at h
      exact Or.inr ⟨r, by rw [outcome_eq hs, hg], h⟩

theorem execFunc_moves {c c' : Config α ε} {t : Nat} {a : Action α ε} {src rs : StateId}
    {func : Func} {k : List (Frame α ε)} (h : execFunc c t src rs func k = some c') :
    Moves c t a (.exec (.invoke_and_set_value src rs func) :: k) c' := by
  cases func with
  | then_ f =>
    cases h
    exact .local_ (.called rfl (fun k hk => by cases hk))
  | next_ f =>
    rcases readState_some h with ⟨ho, hs, rfl⟩ | ⟨r, ho, hr⟩
    · exact .fault (.absent ho hs)
    · cases r with
      | ok v =>
        cases hr
        exact .local_ (.called rfl (fun k hk => ⟨v, ho⟩))
      | error x =>
        cases hr
        exact .local_ (.passed ho)
  | ignore =>
    cases h
    exact .local_ .ignored
  | get_all fs =>
    cases h
    exact .local_ .collecting
  | unwrap s =>
    rcases readState_some h with ⟨ho, hs, rfl⟩ | ⟨r, ho, hr⟩
    · exact .fault (.absent ho hs)
    · cases r with
      | error x =>
        cases hr
        exact .local_ (.passed ho)
      | ok v =>
        cases v with
        | future f =>
          cases f with
          | none =>
            cases hr
            exact .fault (.null ho)
          | some f => exact .add (.unwrap_outer ho) hr
        | unit =>
          cases hr
          exact .fault (.type ho (by simp))
        | val a =>
          cases hr
          exact .fault (.type ho (by simp))
        | vec vs =>
          cases hr
          exact .fault (.type ho (by simp))

theorem exec_moves {c c' : Config α ε} {t : Nat} {a : Action α ε} {kont : Cont}
    {k : List (Frame α ε)} (h : exec c t kont k = some c') :
    Moves c t a (.exec kont :: k) c' := by
  cases kont with
  | invoke_and_set_value src rs func => exact execFunc_moves h
  | call f =>
    cases h
    exact .local_ .fn_called
  | dec n => exact .dec h
  | get_and_set_value s f =>
    cases h
    exact .local_ .inner
  | signal st =>
    simp only [exec] at h
    split at h
    · cases h
    · rename_i s hs
      cases h
      exact .signal hs

theorem tick_moves {c c' : Config α ε} {t : Nat} {a : Action α ε} {f : Frame α ε}
    {k : List (Frame α ε)} {built : Option (Exception ε)} (h : tick c t f k built = some c') :
    Moves c t a (f :: k) c' := by
  cases f with
  | user b => cases h
  | try_set rs r =>
    cases r with
    | ok v => exact .set (.try_set built) h
    | error x =>
      cases h
      exact .local_ .failed
  | catch_ rs =>
    cases h
    exact .local_ .tried
  | handler rs x => exact .set .handler h
  | drain st cs =>
    cases cs with
    | nil =>
      cases h
      exact .local_ .drained
    | cons p cs =>
      cases h
      exact .run
  | exec kont => exact exec_moves h
  | invoking i =>
    cases h
    exact .local_ .returned
  | set_prm prm => exact .set .set_prm h
  | register n fs =>
    cases fs with
    | nil =>
      cases h
      exact .local_ .registered
    | cons f fs =>
      cases f with
      | none =>
        cases h
        exact .local_ .counted
      | some st => exact .add .register h
  | when_all_then prm fs => exact .add .when_all h
  | get_all rs fs vs =>
    cases fs with
    | nil =>
      cases h
      exact .local_ .collected
    | cons f fs =>
      cases f with
      | none =>
        cases h
        exact .local_ .missing
      | some st =>
        cases h
        exact .local_ .collect
  | set_got rs => cases h
  | unwrap_try rs s =>
    cases h
    exact .local_ .unwrap_ended
  | future_get st => exact .get h
  | waiting st g =>
    simp only [tick] at h
    split at h
    · cases h
    · rename_i s hs
      split at h
      · rename_i hb
        cases h
        exact .local_ (.woken s hs hb)
      · cases h
  | reading st =>
    rcases readState_some h with ⟨ho, hs, rfl⟩ | ⟨r, ho, hr⟩
    · exact .fault (.absent_read ho hs)
    · cases hr
      exact .local_ (.read ho)

theorem call_moves {c c' : Config α ε} {t : Nat} {b : Body} {k : List (Frame α ε)}
    {a : Action α ε} (hk : c.threads[t]? = some (.user b :: k)) (h : call c t b k a = some c') :
    Moves c t a (.user b :: k) c' := by
  have stay : Moves c t a (.user b :: k) c := by
    have := Moves.local_ (t := t) (a := a) (Local.stay (c := c) (k := .user b :: k))
    rwa [put_self hk] at this
  cases a with
  | tick built => cases h
  | promise q =>
    cases h
    exact .promise
  | set_value p v built allow =>
    simp only [call] at h
    split at h
    · exact .set (.set_value ‹_›) h
    · cases h
  | set_exception p x =>
    simp only [call] at h
    split at h
    · exact .set (.set_exception ‹_›) h
    · cases h
  | then_ f func =>
    cases f with
    | none =>
      cases h
      exact stay
    | some st =>
      simp only [call] at h
      split at h
      · exact .add (.then_ ‹_›) h
      · cases h
  | continue_with st f => exact .add .continue_with h
  | wait f =>
    cases f with
    | none =>
      cases h
      exact stay
    | some st => exact .wait h
  | get f =>
    cases f with
    | none =>
      cases h
      exact stay
    | some st =>
      cases h
      exact .local_ (.get_called st)
  | when_all_ready fs q =>
    cases fs with
    | nil =>
      cases h
      have := Moves.made_ready (c := c) (t := t) (a := .when_all_ready [] q) (b := b) (k := k)
        (Or.inl rfl)
      rwa [put_self (c := c.alloc _) hk] at this
    | cons f fs =>
      cases h
      exact .when_all_ready (by simp) (Or.inl rfl)
  | when_all fs q =>
    cases fs with
    | nil =>
      cases h
      exact .made_ready (Or.inr rfl)
    | cons f fs =>
      cases h
      exact .when_all_ready (by simp) (Or.inr rfl)
  | unwrap f =>
    cases f with
    | none =>
      cases h
      exact stay
    | some st =>
      simp only [call] at h
      split at h
      · cases h
      · exact .add (.unwrap ‹_›) h
  | ret v =>
    cases b with
    | main => cases h
    | callback src rs func =>
      cases h
      exact .local_ (.ended (.ok v))
    | fn f =>
      cases h
      exact .local_ .fn_ended
  | throw_ x =>
    cases b with
    | main => cases h
    | callback src rs func =>
      cases h
      exact .local_ (.ended (.error x))
    | fn f =>
      cases h
      exact .throw_

/-- Every step is a move of its thread, and nothing moves after a fault. -/
theorem step_moves {c c' : Config α ε} {e : Nat × Action α ε} (h : step c e = some c') :
    c.fault = none ∧ ∃ k, c.threads[e.1]? = some k ∧ Moves c e.1 e.2 k c' := by
  obtain ⟨t, a⟩ := e
  unfold step at h
  split at h
  · cases h
  · rename_i hf
    refine ⟨by simpa using hf, ?_⟩
    split at h
    · rename_i b k hk
      exact ⟨_, hk, call_moves hk h⟩
    · rename_i f k _ hk
      split at h
      · exact ⟨_, hk, tick_moves h⟩
      · cases h
    · cases h

/-! ## One step of client code or of library code -/

theorem step_user {c : Config α ε} {t : Nat} {b : Body} {k : List (Frame α ε)} {act : Action α ε}
    (hf : c.fault = none) (hk : c.threads[t]? = some (.user b :: k)) :
    step c (t, act) = call c t b k act := by
  simp [step, hf, hk]

theorem step_library {c : Config α ε} {t : Nat} {f : Frame α ε} {k : List (Frame α ε)}
    {built : Option (Exception ε)} (hf : c.fault = none) (hk : c.threads[t]? = some (f :: k))
    (hlib : ∀ b, f ≠ .user b) : step c (t, .tick built) = tick c t f k built := by
  cases f with
  | user b => exact absurd rfl (hlib b)
  | _ => simp [step, hf, hk]

end ltl.futures
