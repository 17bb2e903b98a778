-- Promises that are made in a task (promise.hpp, future.cpp, task_queue.hpp): the
-- constructor asks the queue of the current context for a `shared_ptr` to itself,
-- and which object owns the queue was decided when the queue was made.
import Ltl.StartOrder

open ltl.future_state slots runs

namespace ltl.task_queue

variable {α χ : Type}

/-! ## Owners -/

/-- What a queue was made in: the `shared_ptr` of a `task_queue`, or the `unique_ptr` of
`get_async_task_queue`. -/
inductive Holder where
  | shared_ptr
  | unique_ptr
  deriving DecidableEq, Repr

/-- A configuration with the owners of its queues: what each queue was made in, and the queues
whose last `shared_ptr` is gone, so that they are being destroyed. -/
structure Owners (α χ : Type) where
  config : Config α χ
  holders : List Holder
  released : List QueueId := []
  deriving DecidableEq, Repr

/-- `std::bad_weak_ptr`. -/
inductive BadWeakPtr where
  | bad_weak_ptr
  deriving DecidableEq, Repr

/-- A `shared_ptr` owns queue `q`. -/
def Owners.shared (s : Owners α χ) (q : QueueId) : Bool :=
  s.holders[q]? == some .shared_ptr && !s.released.contains q

def shared_from_this (s : Owners α χ) (q : QueueId) : Except BadWeakPtr QueueId :=
  if s.shared q then .ok q else .error .bad_weak_ptr

/-- What the constructor of a promise on this thread passes to its state. -/
def await_queue_of_promise (s : Owners α χ) (thread : Option QueueId) :
    Except BadWeakPtr (Option QueueId) :=
  match get_await_queue s.config thread with
  | some q => (shared_from_this s q).map some
  | none => .ok none

/-- The calls that construct a promise: its own constructor, also in `when_all_ready`, and that of a
`wrapped_function` for `push_back` and `push_back_resumable` of a queue. `async` is the latter on
the queue of `get_async_task_queue`. -/
inductive Call where
  | promise
  | push_back (q : QueueId) (policy : SchedulingPolicy)
  deriving DecidableEq, Repr

def Call.event (k : Call) (thread : Option QueueId) : Event α χ :=
  match k with
  | .promise => .promise thread
  | .push_back q policy => .push_back thread q policy

/-- The queue that the call is made on is there. -/
def Call.Exists (k : Call) (s : Owners α χ) : Prop :=
  match k with
  | .promise => True
  | .push_back q _ => ∃ tq, s.config.queues[q]? = some tq

/-- A call that constructs a promise, on a thread. The promise comes first: when its constructor
throws, nothing has changed. -/
def construct (s : Owners α χ) (thread : Option QueueId) (k : Call) :
    Except BadWeakPtr (Option (Config α χ)) :=
  match await_queue_of_promise s thread with
  | .error x => .error x
  | .ok _ => .ok (step s.config (k.event thread))

/-- A step that constructs no promise of a task, a call that does, or the end of the last
`shared_ptr` to a queue. -/
inductive OwnerEvent (α χ : Type) where
  | other (e : Event α χ)
  | construct (thread : Option QueueId) (k : Call)
  | release (q : QueueId)

def constructs : Event α χ → Bool
  | .promise _ => true
  | .push_back _ _ _ => true
  | _ => false

def ownerStep (s : Owners α χ) (e : OwnerEvent α χ) : Option (Owners α χ) :=
  match e with
  | .other e =>
    if constructs e then none else (step s.config e).map (fun c => { s with config := c })
  | .construct thread k =>
    match construct s thread k with
    -- the exception goes to the caller
    | .error _ => some s
    | .ok c => c.map (fun c => { s with config := c })
  | .release q =>
    if s.shared q then some { s with released := q :: s.released } else none

def ownerInit (α χ : Type) (holders : List Holder) : Owners α χ :=
  { config := init α χ holders.length, holders := holders }

/-! ## The queue of a task -/

/-- The worker of `q` runs the code of a resumable task. -/
def InTask (c : Config α χ) (q : QueueId) : Prop :=
  c.fault = none ∧ ∃ tq i ctx, c.queues[q]? = some tq ∧ tq.worker = .fiber i ∧
    c.contexts[i]? = some ctx ∧ ctx.pc = .wrapped .task_

/-- On the thread of a task the current context is that of the task, with the queue that runs
it, also after an await. -/
theorem get_await_queue_of_task {c : Config α χ} {q : QueueId} (ho : Open c) (h : InTask c q) :
    get_await_queue c (some q) = some q := by
  obtain ⟨hx, tq, i, ctx, hq, hw, hi, -⟩ := h
  have hok := (ho.kept hx).1.queue q tq hq
  have hon : tq.worker.onStack = some i := by rw [hw]; rfl
  have hcur : tq.current = some i := hok.current_eq.trans hon
  obtain ⟨x, hx, hown, -⟩ := hok.on_stack i hon
  rw [hi] at hx
  cases hx
  unfold get_await_queue
  simp [hq, hcur, hi, hown]

/-- A call that goes through makes one future, with the queue that it was given. -/
theorem made_by_call {s : Owners α χ} (k : Call) (thread : Option QueueId)
    (hx : s.config.fault = none) (hk : k.Exists s) :
    ∃ c f, step s.config (k.event thread) = some c ∧
      c.futures[s.config.futures.length]? = some f ∧
      f.await_queue_ = get_await_queue s.config thread := by
  cases k with
  | promise =>
    refine ⟨s.config.alloc (get_await_queue s.config thread),
      { await_queue_ := get_await_queue s.config thread }, ?_, ?_, rfl⟩
    · unfold step Call.event
      simp [hx]
    · exact List.getElem?_concat_length
  | push_back q policy =>
    obtain ⟨tq, hq⟩ := hk
    have hstep : step s.config ((Call.push_back q policy).event thread) =
        some ({ s.config.alloc (get_await_queue s.config thread) with
          wrapped := s.config.wrapped ++ [s.config.futures.length] }.setQueue q
            (tq.push_back (.task (some s.config.futures.length) policy))) := by
      unfold step Call.event
      simp only [hx, hq, Option.isSome_none, Bool.false_eq_true, if_false]
    exact ⟨_, { await_queue_ := get_await_queue s.config thread }, hstep,
      List.getElem?_concat_length, rfl⟩

/-! ## Runs -/

theorem ownerStep_open {s s' : Owners α χ} {e : OwnerEvent α χ} (ho : Open s.config)
    (h : ownerStep s e = some s') : Open s'.config := by
  unfold ownerStep at h
  split at h
  · split at h
    · cases h
    · obtain ⟨c, hc, rfl⟩ := Option.map_eq_some_iff.mp h
      exact step_open ho hc
  · split at h
    · cases h
      exact ho
    · rename_i heq
      obtain ⟨c, rfl, rfl⟩ := Option.map_eq_some_iff.mp h
      unfold construct at heq
      split at heq
      · cases heq
      · injection heq with heq
        exact step_open ho heq
  · split at h
    · cases h
      exact ho
    · cases h

theorem ownerReach_open {holders : List Holder} {s : Owners α χ}
    (h : Reach ownerStep anyEvent (ownerInit α χ holders) s) : Open s.config :=
  h.invariant (P := fun s => Open s.config) (init_open holders.length)
    (fun _ _ _ ho _ hs => ownerStep_open ho hs)

/-- The tasks of a queue can make promises, by every kind of call and at every point, with the queue
as the await queue of the new future, exactly while a `shared_ptr` owns the queue: it is that of a
`task_queue` that is not being destroyed, and not the one of `async`. -/
theorem promises_are_made_where_the_queue_is_shared (holders : List Holder) (s : Owners α χ)
    (h : Reach ownerStep anyEvent (ownerInit α χ holders) s) (q : QueueId)
    (ht : InTask s.config q) (k : Call) (hk : k.Exists s) :
    (∃ c f, construct s (some q) k = .ok (some c) ∧
      c.futures[s.config.futures.length]? = some f ∧ f.await_queue_ = some q) ↔
      s.shared q = true := by
  have hq := get_await_queue_of_task (ownerReach_open h) ht
  obtain ⟨c, f, hc, hf, ha⟩ := made_by_call k (some q) ht.1 hk
  unfold construct await_queue_of_promise
  rw [hq]
  cases hs : s.shared q with
  | true =>
    have hthis : shared_from_this s q = .ok q := if_pos hs
    refine ⟨fun _ => rfl, fun _ => ⟨c, f, ?_, hf, ha.trans hq⟩⟩
    simp [hthis, Except.map, hc]
  | false =>
    have hthis : shared_from_this s q = .error .bad_weak_ptr := by
      unfold shared_from_this
      simp [hs]
    refine ⟨?_, fun h => Bool.noConfusion h⟩
    rintro ⟨c', f', hc', -, -⟩
    simp [hthis, Except.map] at hc'

/-- The queue of `async` is in a `unique_ptr`, so no task of it makes a promise. -/
theorem an_async_task_makes_no_promise :
    ∃ s, Reach ownerStep anyEvent (ownerInit Nat Nat [.unique_ptr]) s ∧ InTask s.config 0 ∧
      Call.promise.Exists s ∧ construct s (some 0) .promise = .error .bad_weak_ptr := by
  have hrun : ∃ s, run ownerStep (ownerInit Nat Nat [.unique_ptr])
      [.construct none (.push_back 0 .resumable), .other (.worker 0 none),
        .other (.worker 0 none), .other (.worker 0 none)] = some s ∧
      InTask s.config 0 ∧ construct s (some 0) .promise = .error .bad_weak_ptr :=
    ⟨_, rfl, ⟨rfl, _, _, _, rfl, rfl, rfl, rfl⟩, rfl⟩
  obtain ⟨s, hs, ht, hc⟩ := hrun
  exact ⟨s, reach_anyEvent hs, ht, trivial, hc⟩

/-- A task of a `task_queue` makes a promise after it was suspended and resumed. -/
theorem promises_are_made_where_the_queue_is_shared_here :
    ∃ s : Owners Nat Nat, ∃ c f, construct s (some 0) .promise = .ok (some c) ∧
      c.futures[s.config.futures.length]? = some f ∧ f.await_queue_ = some 0 := by
  have hrun : ∃ s, run ownerStep (ownerInit Nat Nat [.shared_ptr])
      [.construct none (.push_back 0 .resumable), .other (.worker 0 none),
        .other (.worker 0 none), .other (.worker 0 none), .construct (some 0) .promise,
        .other (.await 0 1), .other (.worker 0 none), .other (.worker 0 none),
        .other (.fulfil 1 (.ok 5)), .other (.run_next 0), .other (.worker 0 none),
        .other (.worker 0 none), .other (.worker 0 none)] = some s ∧
      InTask s.config 0 ∧ s.shared 0 = true :=
    ⟨_, rfl, ⟨rfl, _, _, _, rfl, rfl, rfl, rfl⟩, rfl⟩
  obtain ⟨s, hs, ht, hshared⟩ := hrun
  have hr := reach_anyEvent hs
  obtain ⟨c, f, h⟩ := (promises_are_made_where_the_queue_is_shared [.shared_ptr] s hr 0 ht .promise
    trivial).mpr hshared
  exact ⟨s, c, f, h⟩

end ltl.task_queue
