-- One call of await beside the queues (await.hpp): the overload for a value ends
-- with `f.get()` on each of its paths, and the one for void ends without it. The
-- outcome of the call is compared with the one of `get`.
import Ltl.Await

open ltl.future_state slots counts runs

namespace ltl.task_queue

/-! ## The call -/

/-- What `get` throws: the exception of the future, or `no_state`. -/
inductive Raised (χ : Type) where
  | rethrown (x : χ)
  | no_state
  deriving DecidableEq, Repr

/-- Where `await` is called: in the task of context `ctx` on queue `q`, or where
`current_task_context::get()` is null. -/
inductive Place where
  | task (q : QueueId) (ctx : ContextId)
  | outside
  deriving DecidableEq, Repr

/-- A call of `await` on a `future<void>` or on another future, whose `state_` may be null. -/
structure AwaitCall where
  void : Bool
  state_ : Option FutureId
  place : Place
  deriving DecidableEq, Repr

/-- How far the call is: it blocks outside of every task, its task is on the way from
`continue_with` to the end of `yield`, it has ended, or it has read a null `state_`. -/
inductive Point (α χ : Type) where
  | waiting
  | suspended
  | returned (r : Except (Raised χ) (Option α))
  | null_state
  deriving Repr

def Point.ended {α χ : Type} : Point α χ → Bool
  | .waiting => false
  | .suspended => false
  | _ => true

section
variable {α χ : Type}

/-- `f.ready()` -/
def future_ready (c : Config α χ) (state_ : Option FutureId) : Bool :=
  match state_.bind (c.futures[·]?) with
  | none => false
  | some s => ready s

/-- What `future_state::get` gives its caller. A `future<void>` has no value. -/
def delivered (void : Bool) : Except χ α → Except (Raised χ) (Option α)
  | .ok v => .ok (if void then none else some v)
  | .error x => .error (.rethrown x)

/-- `f.get()`. It has no result while it blocks. -/
def future_get (void : Bool) (c : Config α χ) :
    Option FutureId → Option (Except (Raised χ) (Option α))
  | none => some (.error .no_state)
  | some f => (c.futures[f]?.bind get).map (delivered void)

/-- The end of `apply`: `return f.get();`, or the end of the overload for void. -/
def AwaitCall.leaves (call : AwaitCall) (c : Config α χ) : Option (Except (Raised χ) (Option α)) :=
  if call.void then some (.ok none) else future_get false c call.state_

/-- `await_value::apply`, up to where it ends or waits. -/
def apply (call : AwaitCall) (c : Config α χ) : Option (Config α χ × Point α χ) :=
  if future_ready c call.state_ then (call.leaves c).map fun r => (c, .returned r)
  else
    match call.place with
    | .outside => some (c, .waiting)
    | .task q _ =>
      match call.state_ with
      | none => some (c, .null_state)
      | some f => (step c (.await q f)).map fun c' => (c', .suspended)

/-- `await_value::operator()` -/
def operator_call (call : AwaitCall) (c : Config α χ) : Option (Config α χ × Point α χ) := apply call c

/-- `operator|=` -/
def operator_or_assign (call : AwaitCall) (c : Config α χ) : Option (Config α χ × Point α χ) :=
  apply call c

/-- Outside of every task: `return f.get();`, or `f.wait();` which returns at once without a
state. -/
def AwaitCall.waits (call : AwaitCall) (c : Config α χ) : Option (Except (Raised χ) (Option α)) :=
  if call.void then
    if call.state_.isNone || future_ready c call.state_ then some (.ok none) else none
  else future_get false c call.state_

/-- Context `i`, when the worker of `q` is on its stack and has just come out of the `yield` of an
await. -/
def resumed_in (c : Config α χ) (q : QueueId) (i : ContextId) : Option (TaskContext α) :=
  match c.queues[q]?, c.contexts[i]? with
  | some tq, some ctx =>
    match tq.worker, ctx.pc with
    | .fiber j, .get _ => if j = i then some ctx else none
    | _, _ => none
  | _, _ => none

/-- What happens beside a call: the call goes on, or something else does. -/
inductive JointEvent (α χ : Type) where
  | call
  | other (e : Event α χ)

/-- The worker would leave the await of the call, which is for the call to do. -/
def AwaitCall.is_left_by (call : AwaitCall) (c : Config α χ) : Event α χ → Bool
  | .worker q _ =>
    match call.place with
    | .task _ i => (resumed_in c q i).isSome
    | .outside => false
  | _ => false

def joint (call : AwaitCall) (s : Config α χ × Point α χ) :
    JointEvent α χ → Option (Config α χ × Point α χ)
  | .call =>
    if s.1.fault.isSome then none
    else
      match s.2, call.place with
      | .waiting, _ => (call.waits s.1).map fun r => (s.1, .returned r)
      | .suspended, .task q i =>
        (resumed_in s.1 q i).bind fun ctx => (call.leaves s.1).map fun r =>
          (s.1.setContext i { ctx with pc := .wrapped .task_ }, .returned r)
      | _, _ => none
  | .other e =>
    match s.2 with
    | .suspended => if call.is_left_by s.1 e then none else (step s.1 e).map fun c => (c, s.2)
    | _ => (step s.1 e).map fun c => (c, s.2)

/-- The others keep to the contract. -/
def JointProper (s : Config α χ × Point α χ) : JointEvent α χ → Prop
  | .call => True
  | .other e => Proper s.1 e

/-- The call is made where `place` says, in a task on the queue that the future asks for. -/
structure AwaitCall.Placed (call : AwaitCall) (c : Config α χ) : Prop where
  runs : ∀ q i, call.place = .task q i → ∃ tq ctx, c.queues[q]? = some tq ∧
    tq.worker = .fiber i ∧ c.contexts[i]? = some ctx ∧ ctx.pc = .wrapped .task_
  own_queue : ∀ q i f, call.place = .task q i → call.state_ = some f → Proper c (.await q f)

/-! ## What is asked of it -/

/-- The call ends with the outcome of `get`, and does not go wrong. -/
def AwaitCall.Agrees (call : AwaitCall) (c : Config α χ) : Point α χ → Prop
  | .returned r => future_get call.void c call.state_ = some r
  | .null_state => False
  | _ => True

/-- A future with a value is valid, or is awaited outside of every task. A `future<void>` is valid
and has no exception. -/
def AwaitCall.Holds (call : AwaitCall) (c : Config α χ) : Prop :=
  if call.void then
    ∃ f s, call.state_ = some f ∧ c.futures[f]? = some s ∧ s.exception_ = none
  else call.state_ ≠ none ∨ call.place = .outside

/-! ## Where the call is -/

/-- The future that the stack awaits, from `continue_with` to the `get` after `yield`. -/
def Pc.in_await : Pc α → Option FutureId
  | .continue_with f => some f
  | .push_front f _ => some f
  | .yield f _ => some f
  | .suspended f _ => some f
  | .get f => some f
  | _ => none

/-- The result with which a call has ended. The overload for void has none to look at. -/
def AwaitCall.Ended (call : AwaitCall) (c : Config α χ) (r : Except (Raised χ) (Option α)) : Prop :=
  if call.void then r = .ok none ∧ ∀ f, call.state_ = some f → Ready c f
  else future_get false c call.state_ = some r

/-- The call at each of its points. -/
inductive Follows (call : AwaitCall) (c : Config α χ) : Point α χ → Prop where
  | waiting (hp : call.place = .outside) : Follows call c .waiting
  | suspended {q i f ctx} (hp : call.place = .task q i) (hf : call.state_ = some f)
      (hi : c.contexts[i]? = some ctx) (hown : ctx.task_queue_ = q)
      (ha : ctx.pc.in_await = some f) : Follows call c .suspended
  | returned {r} (hr : call.Ended c r) (hout : call.state_ = none → call.place = .outside) :
      Follows call c (.returned r)
  | null_state (hs : call.state_ = none) (hp : call.place ≠ .outside) :
      Follows call c .null_state

theorem future_ready_iff {c : Config α χ} {state_ : Option FutureId} :
    future_ready c state_ = true ↔ ∃ f, state_ = some f ∧ Ready c f := by
  unfold future_ready Ready
  cases state_ with
  | none => simp
  | some f =>
    cases hf : c.futures[f]? with
    | none => simp [hf]
    | some s => simp [hf]

theorem ended_iff {call : AwaitCall} {c : Config α χ} {r : Except (Raised χ) (Option α)} :
    call.Ended c r ↔ (call.void = true ∧ r = .ok none ∧ ∀ f, call.state_ = some f → Ready c f) ∨
      (call.void = false ∧ future_get false c call.state_ = some r) := by
  unfold AwaitCall.Ended
  cases call.void <;> simp

theorem leaves_ended {call : AwaitCall} {c : Config α χ} {f : FutureId}
    {r : Except (Raised χ) (Option α)} (hf : call.state_ = some f) (hr : Ready c f)
    (h : call.leaves c = some r) : call.Ended c r := by
  unfold AwaitCall.leaves at h
  rw [ended_iff]
  cases hv : call.void with
  | true =>
    simp only [hv, if_true, Option.some.injEq] at h
    refine Or.inl ⟨rfl, h.symm, fun g hg => ?_⟩
    rw [hf] at hg
    cases hg
    exact hr
  | false =>
    simp only [hv, Bool.false_eq_true, if_false] at h
    exact Or.inr ⟨rfl, h⟩

theorem waits_ended {call : AwaitCall} {c : Config α χ} {r : Except (Raised χ) (Option α)}
    (h : call.waits c = some r) : call.Ended c r := by
  unfold AwaitCall.waits at h
  rw [ended_iff]
  cases hv : call.void with
  | true =>
    simp only [hv, if_true] at h
    split at h
    · rename_i hc
      refine Or.inl ⟨rfl, (Option.some.inj h).symm, fun f hf => ?_⟩
      rw [hf] at hc
      obtain ⟨g, hg, hready⟩ := future_ready_iff.mp (by simpa using hc)
      cases hg
      exact hready
    · cases h
  | false =>
    simp only [hv, Bool.false_eq_true, if_false] at h
    exact Or.inr ⟨rfl, h⟩

/-- What `get` gives once, it gives for ever. -/
theorem future_get_next {c : Config α χ} {e : Event α χ} {ch : Change α χ} (h : Move c e ch)
    {void : Bool} {state_ : Option FutureId} {r : Except (Raised χ) (Option α)}
    (hr : future_get void c state_ = some r) : future_get void (ch.apply c) state_ = some r := by
  cases state_ with
  | none => exact hr
  | some f =>
    simp only [future_get] at hr ⊢
    obtain ⟨x, hx, hr⟩ := Option.map_eq_some_iff.mp hr
    obtain ⟨s, hs, hg⟩ := Option.bind_eq_some_iff.mp hx
    have hready : ready s = true := by
      rw [← get_isSome, hg]
      rfl
    obtain ⟨s', hs', -, hsame⟩ := h.future hs
    rw [hsame hready] at hs'
    rw [hs', Option.bind_some, hg, Option.map_some, hr]

theorem AwaitCall.Ended.next {call : AwaitCall} {c : Config α χ} {e : Event α χ} {ch : Change α χ}
    {r : Except (Raised χ) (Option α)} (h : Move c e ch) (hr : call.Ended c r) :
    call.Ended (ch.apply c) r := by
  rw [ended_iff] at hr ⊢
  rcases hr with ⟨hv, hr, hready⟩ | ⟨hv, hr⟩
  · exact Or.inl ⟨hv, hr, fun f hf => (hready f hf).next h⟩
  · exact Or.inr ⟨hv, future_get_next h hr⟩

/-- A stack in an await stays in it, until its worker leaves the `get`. -/
theorem in_await_next {c : Config α χ} {e : Event α χ} {ch : Change α χ} (h : Move c e ch)
    {i : ContextId} {ctx : TaskContext α} {f : FutureId} (hi : c.contexts[i]? = some ctx)
    (ha : ctx.pc.in_await = some f) :
    (∃ ctx', (ch.apply c).contexts[i]? = some ctx' ∧ ctx'.task_queue_ = ctx.task_queue_ ∧
      ctx'.pc.in_await = some f) ∨
    ∃ q b, e = .worker q b ∧ (resumed_in c q i).isSome = true := by
  rcases Slot.apply_getElem? h.fits.contexts hi with hi' | ⟨new, hs, hi'⟩
  · exact Or.inl ⟨ctx, hi', rfl, ha⟩
  · have out : ∀ {pc : Pc α}, ctx.pc = pc → pc.in_await = none → False := by
      intro pc hp hn
      rw [hp, hn] at ha
      cases ha
    have stays : ∀ {pc pc' : Pc α}, ctx.pc = pc → pc.in_await = pc'.in_await →
        pc'.in_await = some f := by
      intro pc pc' hp hpc
      rw [← hpc, ← hp]
      exact ha
    cases h with
    | start_free hq hw hc hf hj hown hp =>
      cases hs
      exact (out hp rfl).elim
    | resume hq hw hc hj hown hp =>
      cases hs
      exact Or.inl ⟨_, hi', rfl, stays hp rfl⟩
    | began hq hw hj hp =>
      cases hs
      exact (out hp rfl).elim
    | fiber_ended hq hw hj hp he =>
      cases hs
      exact (out hp rfl).elim
    | fiber_stored hq hw hj hp hfunc hf hr =>
      cases hs
      exact (out hp rfl).elim
    | registered hq hw hj hp hf hr =>
      cases hs
      exact Or.inl ⟨_, hi', rfl, stays hp rfl⟩
    | found_ready hq hw hj hp hf hr =>
      cases hs
      exact Or.inl ⟨_, hi', rfl, stays hp rfl⟩
    | pushed hq hw hj hp hf haq hq' =>
      cases hs
      exact Or.inl ⟨_, hi', rfl, stays hp rfl⟩
    | yielded hq hw hj hp =>
      cases hs
      exact Or.inl ⟨_, hi', rfl, stays hp rfl⟩
    | got hq hw hj hp hf hr =>
      cases hs
      exact Or.inr ⟨_, _, rfl, by simp [resumed_in, hq, hi, hw, hp]⟩
    | completed hq hw hj hp =>
      cases hs
      exact (out hp rfl).elim
    | parked hq hw hj hp =>
      cases hs
      exact (out hp rfl).elim
    | await hq hw hj hp hf hr =>
      cases hs
      exact (out hp rfl).elim
    | ret_fiber hq hw hj hp =>
      cases hs
      exact (out hp rfl).elim
    | _ => cases hs

/-! ## The steps of the call -/

/-- A task that awaits a future that is not ready goes on to `continue_with`. -/
theorem await_step {c c' : Config α χ} {q : QueueId} {i : ContextId} {tq : TaskQueue α}
    {ctx : TaskContext α} {f : FutureId} (hq : c.queues[q]? = some tq) (hw : tq.worker = .fiber i)
    (hi : c.contexts[i]? = some ctx) (hp : ctx.pc = .wrapped .task_)
    (hr : future_ready c (some f) = false) (h : step c (.await q f) = some c') :
    c' = c.setContext i { ctx with pc := .continue_with f } := by
  simp only [step] at h
  split at h
  · cases h
  · simp only [hq, running, hw, hi, hp, Option.bind_some, await] at h
    split at h
    · cases h
    · rename_i s hs
      have hr' : ready s = false := by simpa [future_ready, hs] using hr
      simp only [hr', Bool.false_eq_true, if_false, Option.some.injEq] at h
      exact h.symm

/-- `apply` starts the call. -/
theorem apply_follows {call : AwaitCall} {c c₁ : Config α χ} {p : Point α χ} (hg : Good c)
    (hpl : call.Placed c)
    (h : apply call c = some (c₁, p)) :
    (c₁ = c ∨ ∃ q i f, call.place = .task q i ∧ call.state_ = some f ∧
      step c (.await q f) = some c₁) ∧ Follows call c₁ p := by
  unfold apply at h
  cases hready : future_ready c call.state_ with
  | true =>
    simp only [hready, if_true] at h
    obtain ⟨r, hr, heq⟩ := Option.map_eq_some_iff.mp h
    cases heq
    obtain ⟨f, hf, hr'⟩ := future_ready_iff.mp hready
    exact ⟨Or.inl rfl, .returned (leaves_ended hf hr' hr) (fun hn => by rw [hf] at hn; cases hn)⟩
  | false =>
    simp only [hready, Bool.false_eq_true, if_false] at h
    cases hp : call.place with
    | outside =>
      simp only [hp, Option.some.injEq, Prod.mk.injEq] at h
      obtain ⟨rfl, rfl⟩ := h
      exact ⟨Or.inl rfl, .waiting hp⟩
    | task q i =>
      cases hf : call.state_ with
      | none =>
        simp only [hp, hf, Option.some.injEq, Prod.mk.injEq] at h
        obtain ⟨rfl, rfl⟩ := h
        exact ⟨Or.inl rfl, .null_state hf (by rw [hp]; simp)⟩
      | some f =>
        simp only [hp, hf] at h
        obtain ⟨c', hs, heq⟩ := Option.map_eq_some_iff.mp h
        cases heq
        refine ⟨Or.inr ⟨q, i, f, rfl, rfl, hs⟩, ?_⟩
        obtain ⟨tq, ctx, hq, hw, hi, hpc⟩ := hpl.runs q i hp
        obtain ⟨ctx', hi', hown, -⟩ := (hg.sound.queue q tq hq).on_stack i (by rw [hw]; rfl)
        rw [hi] at hi'
        cases hi'
        rw [await_step hq hw hi hpc (by rw [← hf]; exact hready) hs]
        exact .suspended hp hf (List.getElem?_set_self (List.getElem?_eq_some_iff.mp hi).1) hown rfl

theorem resumed_in_iff {c : Config α χ} {q : QueueId} {i : ContextId} {ctx : TaskContext α} :
    resumed_in c q i = some ctx ↔ c.contexts[i]? = some ctx ∧
      ∃ tq f, c.queues[q]? = some tq ∧ tq.worker = .fiber i ∧ ctx.pc = .get f := by
  constructor
  · intro h
    unfold resumed_in at h
    split at h
    · rename_i tq ctx' hq hi
      split at h
      · rename_i j f hw hp
        split at h
        · rename_i hj
          cases h
          subst hj
          exact ⟨hi, tq, f, hq, hw, hp⟩
        · cases h
      · cases h
    · cases h
  · rintro ⟨hi, tq, f, hq, hw, hp⟩
    simp [resumed_in, hq, hi, hw, hp]

/-- The worker leaves an await of a ready future. -/
theorem resumed_step {c : Config α χ} {q : QueueId} {i : ContextId} {ctx : TaskContext α}
    {f : FutureId} (hx : c.fault = none) (hres : resumed_in c q i = some ctx)
    (ha : ctx.pc = .get f) (hr : Ready c f) :
    step c (.worker q none) = some (c.setContext i { ctx with pc := .wrapped .task_ }) := by
  obtain ⟨hi, tq, g, hq, hw, -⟩ := resumed_in_iff.mp hres
  obtain ⟨s, hs, hready⟩ := hr
  simp [step, hx, hq, workerStep, hw, hi, fiberStep, ha, hs, hready]

/-- A call beside a run of the queues. -/
structure Beside (n : Nat) (call : AwaitCall) (s : Config α χ × Point α χ) : Prop where
  reach : Reach step Proper (init α χ n) s.1
  follows : Follows call s.1 s.2

theorem Follows.next {call : AwaitCall} {c : Config α χ} {p : Point α χ} {e : Event α χ}
    {ch : Change α χ} (h : Follows call c p) (hm : Move c e ch)
    (hl : p = .suspended → call.is_left_by c e = false) : Follows call (ch.apply c) p := by
  cases h with
  | waiting hp => exact .waiting hp
  | null_state hs hp => exact .null_state hs hp
  | returned hr hout => exact .returned (hr.next hm) hout
  | @suspended q i f ctx hp hf hi hown ha =>
    rcases in_await_next hm hi ha with ⟨ctx', hi', hown', ha'⟩ | ⟨q', b, rfl, hres⟩
    · exact .suspended hp hf hi' (hown'.trans hown) ha'
    · have hleft := hl rfl
      simp only [AwaitCall.is_left_by, hp, hres] at hleft
      cases hleft

/-- The call goes on. -/
theorem call_beside {n : Nat} {call : AwaitCall} {s s' : Config α χ × Point α χ}
    (h : Beside n call s) (hs : joint call s .call = some s') : Beside n call s' := by
  obtain ⟨hreach, hfol⟩ := h
  obtain ⟨c, p⟩ := s
  simp only at hreach hfol
  simp only [joint] at hs
  split at hs
  · cases hs
  · rename_i hx
    have hx : c.fault = none := by simpa using hx
    cases hfol with
    | returned hr hout => cases hs
    | null_state hn hp => cases hs
    | waiting hp =>
      obtain ⟨r, hr, rfl⟩ := Option.map_eq_some_iff.mp hs
      exact ⟨hreach, .returned (waits_ended hr) (fun _ => hp)⟩
    | @suspended q i f ctx hp hf hi hown ha =>
      simp only [hp] at hs
      obtain ⟨ctx', hres, hs⟩ := Option.bind_eq_some_iff.mp hs
      obtain ⟨r, hr, rfl⟩ := Option.map_eq_some_iff.mp hs
      obtain ⟨hi', tq, g, hq, hw, hpc⟩ := resumed_in_iff.mp hres
      rw [hi] at hi'
      cases hi'
      have hg : g = f := by
        rw [hpc] at ha
        exact Option.some.inj ha
      subst hg
      have hready := (reach_prompt hreach).got i ctx g hi hpc
      refine ⟨hreach.next (e := .worker q none) ⟨trivial, trivial⟩
        (resumed_step hx hres hpc hready), .returned ?_ (fun hn => ?_)⟩
      · exact leaves_ended (c := c.setContext i _) hf hready hr
      · rw [hf] at hn
        cases hn

/-- Something else happens. -/
theorem other_beside {n : Nat} {call : AwaitCall} {s s' : Config α χ × Point α χ} {e : Event α χ}
    (h : Beside n call s) (hok : Proper s.1 e) (hs : joint call s (.other e) = some s') :
    Beside n call s' := by
  obtain ⟨hreach, hfol⟩ := h
  obtain ⟨c, p⟩ := s
  simp only at hreach hfol hok
  have hstep : ∃ c', step c e = some c' ∧ s' = (c', p) ∧
      (p = .suspended → call.is_left_by c e = false) := by
    simp only [joint] at hs
    split at hs
    · split at hs
      · cases hs
      · rename_i hl
        obtain ⟨c', hc', rfl⟩ := Option.map_eq_some_iff.mp hs
        exact ⟨c', hc', rfl, fun _ => by simpa using hl⟩
    · rename_i hne
      obtain ⟨c', hc', rfl⟩ := Option.map_eq_some_iff.mp hs
      exact ⟨c', hc', rfl, fun hp => absurd hp hne⟩
  obtain ⟨c', hc', rfl, hl⟩ := hstep
  obtain ⟨ch, hm, rfl⟩ := step_move (reach_good (reach_own hreach)) hc'
  exact ⟨hreach.next hok hc', hfol.next hm hl⟩

/-- A run of the queues in which the call is made in `c₀`, and that has come to `s`. -/
structure AwaitRun (n : Nat) (call : AwaitCall) (s : Config α χ × Point α χ) : Prop where
  started : ∃ c₀ s₀, Reach step Proper (init α χ n) c₀ ∧ call.Placed c₀ ∧
    (operator_call call c₀ = some s₀ ∨ operator_or_assign call c₀ = some s₀) ∧
    Reach (joint call) JointProper s₀ s

theorem AwaitRun.beside {n : Nat} {call : AwaitCall} {s : Config α χ × Point α χ}
    (h : AwaitRun n call s) : Beside n call s := by
  obtain ⟨c₀, ⟨c₁, p₁⟩, h₀, hpl, hstart, hrun⟩ := h.started
  have happly : apply call c₀ = some (c₁, p₁) := hstart.elim id id
  obtain ⟨hc₁, hfol⟩ := apply_follows (reach_good (reach_own h₀)) hpl happly
  have h₁ : Reach step Proper (init α χ n) c₁ := by
    rcases hc₁ with rfl | ⟨q, i, f, hp, hf, hs⟩
    · exact h₀
    · exact h₀.next (hpl.own_queue q i f hp hf) hs
  refine hrun.invariant (P := Beside n call) ⟨h₁, hfol⟩ (fun t e t' hb hok hs => ?_)
  cases e with
  | call => exact call_beside hb hs
  | other e => exact other_beside hb hok hs

/-! ## The law -/

/-- A call that has ended agrees with `get` exactly where its kind, its future and its place
allow it. -/
theorem agrees_iff {call : AwaitCall} {c : Config α χ} {p : Point α χ} (h : Follows call c p)
    (hend : p.ended = true) : call.Agrees c p ↔ call.Holds c := by
  cases h with
  | waiting hp => cases hend
  | suspended hp hf hi hown ha => cases hend
  | null_state hs hp =>
    simp only [AwaitCall.Agrees, AwaitCall.Holds, hs, false_iff]
    cases call.void <;> simp [hp]
  | @returned r hr hout =>
    rw [ended_iff] at hr
    unfold AwaitCall.Holds
    rcases hr with ⟨hv, rfl, hready⟩ | ⟨hv, hr⟩
    · simp only [AwaitCall.Agrees, hv, if_true]
      cases hf : call.state_ with
      | none => simp [future_get]
      | some f =>
        obtain ⟨s, hs, hready⟩ := hready f hf
        have hholds : (∃ g t, some f = some g ∧ c.futures[g]? = some t ∧ t.exception_ = none) ↔
            s.exception_ = none := by
          constructor
          · rintro ⟨g, t, hg, ht, hx⟩
            cases hg
            rw [hs] at ht
            cases ht
            exact hx
          · exact fun hx => ⟨f, s, rfl, hs, hx⟩
        rw [hholds]
        simp only [future_get, hs, Option.bind_some]
        cases hx : s.exception_ with
        | some x => simp [future_state.get, hx, delivered]
        | none =>
          have hv : s.value_.isSome = true := by simpa [ready, hx] using hready
          obtain ⟨v, hv⟩ := Option.isSome_iff_exists.mp hv
          simp [future_state.get, hx, hv, delivered]
    · simp only [AwaitCall.Agrees, hv, hr, Bool.false_eq_true, if_false, true_iff]
      by_cases hn : call.state_ = none
      · exact Or.inr (hout hn)
      · exact Or.inl hn

/-- A call that waits outside of every task returns when `get` would. -/
theorem waits_of_get {call : AwaitCall} {c : Config α χ} {r : Except (Raised χ) (Option α)}
    (hh : call.Holds c) (hr : future_get call.void c call.state_ = some r) :
    call.waits c = some r := by
  unfold AwaitCall.Holds at hh
  unfold AwaitCall.waits
  cases hv : call.void with
  | false => simpa [hv] using hr
  | true =>
    simp only [hv, if_true] at hh
    obtain ⟨f, s, hf, hs, hx⟩ := hh
    simp only [hv, hf, future_get, hs, Option.bind_some] at hr
    have hready : future_ready c (some f) = true := by
      simp only [future_ready, Option.bind_some, hs, ← get_isSome]
      obtain ⟨x, hx, -⟩ := Option.map_eq_some_iff.mp hr
      rw [hx]
      rfl
    simp only [hf, hready, Bool.or_true, if_true]
    cases hval : s.value_ with
    | none => simp [future_state.get, hx, hval] at hr
    | some v => simpa [future_state.get, hx, hval, delivered] using hr

theorem worker_of_onStack {w : Worker α} {i : ContextId} (h : w.onStack = some i) :
    w = .fiber i := by
  unfold Worker.onStack at h
  cases w <;> simp_all

/-- Where a call is that has not ended. -/
structure OnItsWay (call : AwaitCall) (c : Config α χ) (p : Point α χ) : Prop where
  waiting : p = .waiting → ∀ r, future_get call.void c call.state_ = some r → call.Holds c →
    joint call (c, p) .call = some (c, .returned r)
  suspended : p = .suspended → ∃ q i f ctx, call.place = .task q i ∧ call.state_ = some f ∧
    c.contexts[i]? = some ctx ∧ ctx.pc.in_await = some f ∧
      (ctx.pc = .get f → ∃ c' r, joint call (c, p) .call = some (c', .returned r))

theorem on_its_way {n : Nat} {call : AwaitCall} {c : Config α χ} {p : Point α χ}
    (h : Beside n call (c, p)) (hx : c.fault = none) : OnItsWay call c p := by
  refine ⟨fun hp r hr hh => ?_, fun hp => ?_⟩
  · subst hp
    simp [joint, hx, waits_of_get hh hr]
  · subst hp
    have hfol := h.follows
    have hreach := h.reach
    simp only at hfol hreach
    cases hfol with
    | @suspended q i f ctx hp hf hi hown ha =>
      refine ⟨q, i, f, ctx, hp, hf, hi, ha, fun hpc => ?_⟩
      have hg := reach_good (reach_own hreach)
      obtain ⟨tq, hq, hstack⟩ := hg.sound.context i ctx hi (by rw [hpc]; rfl)
      have hw := worker_of_onStack hstack
      rw [hown] at hq
      have hres : resumed_in c q i = some ctx := resumed_in_iff.mpr ⟨hi, tq, f, hq, hw, hpc⟩
      obtain ⟨s, hs, hready⟩ := (reach_prompt hreach).got i ctx f hi hpc
      obtain ⟨x, hget⟩ : ∃ x, future_state.get s = some x := by
        rw [← get_isSome] at hready
        exact Option.isSome_iff_exists.mp hready
      have hleaves : ∃ r, call.leaves c = some r := by
        unfold AwaitCall.leaves
        cases call.void with
        | true => exact ⟨_, rfl⟩
        | false => exact ⟨delivered false x, by simp [hf, future_get, hs, hget]⟩
      obtain ⟨r, hr⟩ := hleaves
      exact ⟨_, r, by simp [joint, hx, hp, hres, hr]; rfl⟩

/-- A call of await that has ended agrees with `get` where its overload ends with it, or where that
makes no difference. Until then it is where `get` would bring it to its end. -/
theorem await_agrees_where_it_ends_with_get (n : Nat) (call : AwaitCall) (c : Config α χ)
    (p : Point α χ) (h : AwaitRun n call (c, p)) :
    (p.ended = true → (call.Agrees c p ↔ call.Holds c)) ∧
    (c.fault = none → OnItsWay call c p) :=
  ⟨agrees_iff h.beside.follows, on_its_way h.beside⟩

instance (s : Config α χ × Point α χ) (e : JointEvent α χ) : Decidable (JointProper s e) :=
  match e with
  | .call => isTrue trivial
  | .other e => inferInstanceAs (Decidable (Proper s.1 e))

/-- Outside of every task, await of a `future<void>` that has failed. -/
def failedVoid : AwaitCall := ⟨true, some 0, .outside⟩

theorem await_hides_the_exception_of_a_void :
    ¬ ∀ (n : Nat) (call : AwaitCall) (c : Config Unit Unit) p, AwaitRun n call (c, p) →
      p.ended = true → call.Agrees c p := by
  intro hall
  have hrun : ∃ c, runOk step Proper (init Unit Unit 0)
      [.promise none, .fulfil 0 (.error (some ()))] = some c ∧
      operator_call failedVoid c = some (c, .returned (.ok none)) ∧
      future_get true c (some 0) = some (.error (.rethrown ())) := ⟨_, rfl, rfl, rfl⟩
  obtain ⟨c, hrun, hcall, hget⟩ := hrun
  have hpl : failedVoid.Placed c := ⟨fun q i hp => (by cases hp), fun q i f hp => (by cases hp)⟩
  have h := hall 0 failedVoid c _ ⟨c, _, reach_of_runOk _ _ _ hrun, hpl, Or.inl hcall, Reach.start _⟩
    rfl
  have hagree : future_get true c (some 0) = some (.ok none) := h
  rw [hget] at hagree
  cases hagree

/-- A task awaits a promise of its own, which is fulfilled while the task is suspended. -/
def ownPromise : AwaitCall := ⟨false, some 1, .task 0 0⟩

theorem await_agrees_where_it_ends_with_get_here : ∃ (c : Config Nat Unit),
    AwaitRun 1 ownPromise (c, .returned (.ok (some 7))) ∧
    future_get false c (some 1) = some (.ok (some 7)) ∧
    ownPromise.Agrees c (.returned (.ok (some 7))) := by
  have hrun : ∃ c₀ : Config Nat Unit, ∃ tq ctx s₀ c, runOk step Proper (init Nat Unit 1)
      [.push_back none 0 .resumable, .worker 0 none, .worker 0 none, .worker 0 none,
        .promise (some 0)] = some c₀ ∧
      c₀.queues[0]? = some tq ∧ tq.worker = .fiber 0 ∧ c₀.contexts[0]? = some ctx ∧
      ctx.pc = .wrapped .task_ ∧ (c₀.futures[1]?.bind (·.await_queue_)) = some 0 ∧
      operator_or_assign ownPromise c₀ = some s₀ ∧
      runOk (joint ownPromise) JointProper s₀ [.other (.worker 0 none), .other (.worker 0 none),
        .other (.fulfil 1 (.ok 7)), .other (.run_next 0), .other (.worker 0 none),
        .other (.worker 0 none), .call] = some (c, .returned (.ok (some 7))) ∧
      future_get false c (some 1) = some (.ok (some 7)) :=
    ⟨_, _, _, _, _, rfl, rfl, rfl, rfl, rfl, rfl, rfl, rfl, rfl⟩
  obtain ⟨c₀, tq, ctx, s₀, c, h₀, hq, hw, hi, hp, haq, hcall, hrest, hget⟩ := hrun
  have hpl : ownPromise.Placed c₀ := by
    refine ⟨fun q i hplace => ?_, fun q i f hplace hf => ⟨fun s hs _ => ?_, trivial⟩⟩
    · cases hplace
      exact ⟨tq, ctx, hq, hw, hi, hp⟩
    · cases hplace
      cases hf
      rw [hs] at haq
      exact haq
  have h : AwaitRun 1 ownPromise (c, .returned (.ok (some 7))) :=
    ⟨c₀, s₀, reach_of_runOk _ _ _ h₀, hpl, Or.inr hcall, reach_of_runOk _ _ _ hrest⟩
  refine ⟨c, h, hget, ((await_agrees_where_it_ends_with_get 1 ownPromise c _ h).1 rfl).mpr ?_⟩
  exact Or.inl (by simp [ownPromise])

end

end ltl.task_queue
