-- Task queues (task_queue_impl.cpp, task_context.cpp, await.hpp,
-- wrapped_function.hpp, task_queue.hpp): the loop of each worker, the tasks on
-- their own stacks, and the threads that fulfil what a task awaits. Client
-- code is open: it may make any call at any time.
import Ltl.FutureState

open ltl.future_state

namespace ltl.task_queue

/-! ## Tasks and queues -/

abbrev QueueId := Nat
abbrev ContextId := Nat
abbrev FutureId := Nat

/-- The number of an `await` that goes on to `continue_with`. -/
abbrev AwaitId := Nat

inductive SchedulingPolicy where
  | resumable
  | non_resumable
  deriving DecidableEq, Repr

/-- `work_item`: an empty function, a function with the promise of its `wrapped_function`, which
`push_back_and_forget` leaves out, or the `resume_task` of an await. -/
inductive WorkItem where
  | empty
  | task (promise_ : Option FutureId) (policy : SchedulingPolicy)
  | resume_task (ctx : ContextId) (n : AwaitId)
  deriving DecidableEq, Repr

/-- The elements of `continuations_`: that of an await, which pushes a `resume_task`, and every
other one. -/
inductive Cont where
  | push_front (ctx : ContextId) (n : AwaitId)
  | other
  deriving DecidableEq, Repr

/-- Where `wrapped_function::operator()` is: in `task_()`, before `promise_->set_value` or in the
loop of that setter. -/
inductive Stage (α : Type) where
  | task_
  | set_value (v : α)
  | drain (d : Nat)
  deriving DecidableEq, Repr

/-- Where the stack of a context stands. -/
inductive Pc (α : Type) where
  /-- Not started yet, or in the `yield` of `run`. -/
  | parked
  /-- In `run`: `self->func_()` is next. -/
  | func_
  | wrapped (s : Stage α)
  /-- In an await of `f`, which was not ready: `continue_with` is next. -/
  | continue_with (f : FutureId)
  /-- `continue_with` found `f` ready and runs the continuation. -/
  | push_front (f : FutureId) (n : AwaitId)
  /-- `ctx->yield()` is next. -/
  | yield (f : FutureId) (n : AwaitId)
  | suspended (f : FutureId) (n : AwaitId)
  /-- Resumed: `f.get()` is next. -/
  | get (f : FutureId)
  /-- In `run`: `self->finished_(self->keep_alive_)` is next. -/
  | finished_
  /-- In `run`: `self->yield()` is next. -/
  | last_yield
  deriving DecidableEq, Repr

structure TaskContext (α : Type) where
  task_queue_ : QueueId
  func_ : Option FutureId
  pc : Pc α
  deriving DecidableEq, Repr

/-- Where the worker is in its loop: blocked in `cv_.wait`, before the lock, with an item, in a
plain function, on the stack of a context, or out of the loop. -/
inductive Worker (α : Type) where
  | asleep
  | top
  | picked (wi : WorkItem)
  | plain (promise_ : Option FutureId) (s : Stage α)
  | fiber (i : ContextId)
  | left
  deriving DecidableEq, Repr

/-- `task_queue_impl::impl`, with `current_task_context` of its thread. -/
structure TaskQueue (α : Type) where
  queue_ : List WorkItem := []
  join_ : Bool := false
  free_task_contexts_ : List ContextId := []
  in_progress_count_ : Int := 0
  current : Option ContextId := none
  worker : Worker α := .top
  deriving DecidableEq, Repr

namespace TaskQueue

variable {α : Type}

def join_possible (tq : TaskQueue α) : Bool := tq.join_ && tq.in_progress_count_ == 0

/-- `cv_.notify_one()`. Only the worker waits on `cv_`. -/
def notify_one (tq : TaskQueue α) : TaskQueue α :=
  match tq.worker with
  | .asleep => { tq with worker := .top }
  | _ => tq

def push_back (tq : TaskQueue α) (wi : WorkItem) : TaskQueue α :=
  let tq' := { tq with queue_ := tq.queue_ ++ [wi] }
  if tq'.queue_.length = 1 then tq'.notify_one else tq'

def push_front (tq : TaskQueue α) (wi : WorkItem) : TaskQueue α :=
  let tq' := { tq with queue_ := wi :: tq.queue_ }
  if tq'.queue_.length = 1 then tq'.notify_one else tq'

/-- The locked part of `join`. -/
def join (tq : TaskQueue α) : TaskQueue α := { tq with queue_ := [], join_ := true }.notify_one

def task_complete (tq : TaskQueue α) (ctx : ContextId) : TaskQueue α :=
  let tq' := { tq with
    in_progress_count_ := tq.in_progress_count_ - 1
    free_task_contexts_ := tq.free_task_contexts_ ++ [ctx] }
  if tq'.in_progress_count_ = 0 ∧ tq'.join_ = true then tq'.notify_one else tq'

/-- The locked part of the loop of the worker, up to the item, the wait or the `break`. -/
def next_item (tq : TaskQueue α) : TaskQueue α :=
  if tq.join_possible then { tq with free_task_contexts_ := [], worker := .left }
  else
    match tq.queue_ with
    | [] => { tq with worker := .asleep }
    | wi :: rest => { tq with queue_ := rest, worker := .picked wi }

end TaskQueue

/-! ## Configurations -/

/-- An assertion that fails, a null `await_queue()`, a context resumed on the thread of another
queue or where it is not suspended in this await, and an exception that leaves a thread function
or a context. -/
inductive Fault where
  | assertion
  | null_queue
  | other_thread
  | stale_resume
  | terminated
  deriving DecidableEq, Repr

/-- What has happened so far. No step reads it. -/
inductive Entry (α χ : Type) where
  | reset (i : ContextId) (func_ : Option FutureId)
  | began (i : ContextId) (func_ : Option FutureId)
  | finished (i : ContextId)
  | awaited (n : AwaitId) (i : ContextId) (f : FutureId)
  | yielded (n : AwaitId)
  /-- A resume item for await `n` was pushed on queue `q`. -/
  | pushed (n : AwaitId) (q : QueueId)
  /-- Queue `q` ran the resume item for await `n`. -/
  | resumed (n : AwaitId) (q : QueueId)
  /-- The function with the promise `p` returned. -/
  | returned (p : Option FutureId) (v : α)
  /-- An exception left the function with the promise `p`, or its `wrapped_function`. -/
  | threw (p : Option FutureId) (x : χ)
  deriving DecidableEq, Repr

abbrev Future (α χ : Type) := FutureState Cont α χ QueueId

/-- `wrapped` are the futures of submitted functions, and `setters` the loops over the
continuations of a future, with what they have still to run. -/
structure Config (α χ : Type) where
  queues : List (TaskQueue α)
  contexts : List (TaskContext α) := []
  futures : List (Future α χ) := []
  wrapped : List FutureId := []
  setters : List (FutureId × List Cont) := []
  awaits : Nat := 0
  log : List (Entry α χ) := []
  fault : Option Fault := none
  deriving DecidableEq, Repr

/-- `n` queues, each with its worker at the start of its loop. -/
def init (α χ : Type) (n : Nat) : Config α χ := { queues := List.replicate n {} }

namespace Config

variable {α χ : Type}

def setQueue (c : Config α χ) (q : QueueId) (tq : TaskQueue α) : Config α χ :=
  { c with queues := c.queues.set q tq }

def setContext (c : Config α χ) (i : ContextId) (ctx : TaskContext α) : Config α χ :=
  { c with contexts := c.contexts.set i ctx }

def setFuture (c : Config α χ) (f : FutureId) (s : Future α χ) : Config α χ :=
  { c with futures := c.futures.set f s }

def note (c : Config α χ) (es : List (Entry α χ)) : Config α χ := { c with log := c.log ++ es }

def fail (c : Config α χ) (f : Fault) : Config α χ := { c with fault := some f }

/-- A new future. Its number is the number of futures before it. -/
def alloc (c : Config α χ) (await_queue : Option QueueId) : Config α χ :=
  { c with futures := c.futures ++ [{ await_queue_ := await_queue }] }

/-- The loop of a setter of `f` over `cs`. -/
def startLoop (c : Config α χ) (f : FutureId) (cs : List Cont) : Config α χ :=
  { c with setters := c.setters ++ [(f, cs)] }

end Config

section
variable {α χ : Type}

/-! ## Contexts -/

/-- What the stack of a context goes on with when it is resumed for await `n`, or by
`run_in_new_context`. -/
def Pc.resumed (pc : Pc α) (n : Option AwaitId) : Option (Pc α) :=
  match pc, n with
  | .parked, none => some .func_
  | .suspended f m, some n => if m = n then some (.get f) else none
  | _, _ => none

/-- `task_context::resume` on the worker of `q`: the assertion, `current_task_context::set` and the
jump, which comes back to the main context of the queue that made the context. -/
def resume (c : Config α χ) (q : QueueId) (tq : TaskQueue α) (i : ContextId)
    (n : Option AwaitId) : Config α χ :=
  if tq.current.isSome then c.fail .assertion
  else
    match c.contexts[i]? with
    | none => c.fail .stale_resume
    | some ctx =>
      if ctx.task_queue_ ≠ q then c.fail .other_thread
      else
        match ctx.pc.resumed n with
        | none => c.fail .stale_resume
        | some pc =>
          (c.setContext i { ctx with pc := pc }).setQueue q
            { tq with
              current := some i
              worker := .fiber i }

/-- `task_context::yield` of context `i`, which goes on with `pc` later. -/
def yield (c : Config α χ) (q : QueueId) (tq : TaskQueue α) (i : ContextId)
    (ctx : TaskContext α) (pc : Pc α) : Config α χ :=
  if tq.current.isSome then
    (c.setContext i { ctx with pc := pc }).setQueue q
      { tq with
        current := none
        worker := .top }
  else c.fail .assertion

/-- `run_in_new_context`: a free context or a new one, `reset`, the count and `resume`. -/
def run_in_new_context (c : Config α χ) (q : QueueId) (tq : TaskQueue α)
    (func : Option FutureId) : Option (Config α χ) :=
  if tq.current.isSome then some (c.fail .assertion)
  else
    match tq.free_task_contexts_.getLast? with
    | none =>
      let i := c.contexts.length
      let ctx : TaskContext α := ⟨q, func, .parked⟩
      let c' := { c with contexts := c.contexts ++ [ctx] }.note [.reset i func]
      some (resume c' q { tq with in_progress_count_ := tq.in_progress_count_ + 1 } i none)
    | some i =>
      match c.contexts[i]? with
      | none => none
      | some ctx =>
        let c' := (c.setContext i { ctx with func_ := func }).note [.reset i func]
        some (resume c' q
          { tq with
            free_task_contexts_ := tq.free_task_contexts_.dropLast
            in_progress_count_ := tq.in_progress_count_ + 1 } i none)

/-- `push_front` of the resume item for await `n` of context `i`, on the await queue of `f`. -/
def pushResume (c : Config α χ) (f : FutureId) (i : ContextId) (n : AwaitId) :
    Option (Config α χ) :=
  match c.futures[f]? with
  | none => none
  | some s =>
    match s.await_queue_ with
    | none => some (c.fail .null_queue)
    | some q =>
      match c.queues[q]? with
      | none => none
      | some tq => some ((c.setQueue q (tq.push_front (.resume_task i n))).note [.pushed n q])

/-! ## wrapped_function -/

/-- What the constructor of the stored value gives, when it throws what `built` says. -/
def storedAs (v : α) (built : Option χ) : Except χ α :=
  match built with
  | some x => .error x
  | none => .ok v

/-- What a step of `operator()` leads to: a stage, its end, or the end of the program, since
nothing catches what the setter throws. -/
inductive Next (α : Type) where
  | stage (s : Stage α)
  | ended
  | terminated
  deriving DecidableEq, Repr

/-- A step of `operator()` after `task_()`. -/
def wrapped_function (c : Config α χ) (p : Option FutureId) (s : Stage α) (built : Option χ) :
    Option (Config α χ × Next α) :=
  match s, p with
  | .task_, _ => none
  | .set_value _, none => some (c, .ended)
  | .set_value v, some f =>
    match c.futures[f]? with
    | none => none
    | some s =>
      match set_value s (storedAs v built) with
      | (.stored cs, s') =>
        some ((c.setFuture f s').startLoop f cs, .stage (.drain c.setters.length))
      | (.built x, _) => some ((c.note [.threw p x]).fail .terminated, .terminated)
      | _ => some (c.fail .terminated, .terminated)
  | .drain d, _ =>
    match c.setters[d]? with
    | some (_, []) => some (c, .ended)
    | _ => none

/-! ## The worker -/

/-- A step on the stack of context `i`, outside of the code of the client. -/
def fiberStep (c : Config α χ) (q : QueueId) (tq : TaskQueue α) (i : ContextId)
    (ctx : TaskContext α) (built : Option χ) : Option (Config α χ) :=
  match ctx.pc with
  | .parked => none
  | .func_ =>
    some ((c.setContext i { ctx with pc := .wrapped .task_ }).note [.began i ctx.func_])
  | .wrapped s =>
    match wrapped_function c ctx.func_ s built with
    | none => none
    | some (c', .stage s') => some (c'.setContext i { ctx with pc := .wrapped s' })
    | some (c', .ended) => some (c'.setContext i { ctx with pc := .finished_ })
    | some (c', .terminated) => some c'
  | .continue_with f =>
    match c.futures[f]? with
    | none => none
    | some s =>
      let n := c.awaits
      let c' := { c with awaits := n + 1 }.note [.awaited n i f]
      match add_continuation s (.push_front i n) with
      | some s' => some ((c'.setFuture f s').setContext i { ctx with pc := .yield f n })
      | none => some (c'.setContext i { ctx with pc := .push_front f n })
  | .push_front f n =>
    (pushResume c f i n).map (fun c' => c'.setContext i { ctx with pc := .yield f n })
  | .yield f n => some (yield (c.note [.yielded n]) q tq i ctx (.suspended f n))
  | .suspended _ _ => none
  | .get f =>
    match c.futures[f]? with
    | none => none
    -- the worker blocks in `get` until the future is ready
    | some s => if ready s then some (c.setContext i { ctx with pc := .wrapped .task_ }) else none
  | .finished_ =>
    some (((c.setContext i { ctx with pc := .last_yield }).setQueue q (tq.task_complete i)).note
      [.finished i])
  | .last_yield => some (yield c q tq i ctx .parked)

/-- A step of the thread of queue `q`, outside of the code of the client. -/
def workerStep (c : Config α χ) (q : QueueId) (tq : TaskQueue α) (built : Option χ) :
    Option (Config α χ) :=
  match tq.worker with
  | .asleep => none
  | .top => some (c.setQueue q tq.next_item)
  | .picked .empty => some (c.setQueue q { tq with worker := .top })
  | .picked (.task p .non_resumable) =>
    some (c.setQueue q { tq with worker := .plain p .task_ })
  | .picked (.task p .resumable) => run_in_new_context c q tq p
  | .picked (.resume_task i n) => some (resume (c.note [.resumed n q]) q tq i (some n))
  | .plain p s =>
    match wrapped_function c p s built with
    | none => none
    | some (c', .stage s') => some (c'.setQueue q { tq with worker := .plain p s' })
    | some (c', .ended) => some (c'.setQueue q { tq with worker := .top })
    | some (c', .terminated) => some c'
  | .fiber i =>
    match c.contexts[i]? with
    | none => none
    | some ctx => fiberStep c q tq i ctx built
  | .left => none

/-! ## Client code and other threads -/

/-- What happens next: the worker of a queue goes on, the function that it runs awaits, returns or
throws, or some thread makes a call. A thread is given by the queue that it is the worker of. -/
inductive Event (α χ : Type) where
  | worker (q : QueueId) (built : Option χ)
  /-- `cv_.wait` may wake up by itself. -/
  | wake (q : QueueId)
  | await (q : QueueId) (f : FutureId)
  | ret (q : QueueId) (v : α)
  | throw_ (q : QueueId) (x : χ)
  | push_back (thread : Option QueueId) (q : QueueId) (policy : SchedulingPolicy)
  | push_back_and_forget (q : QueueId) (empty : Bool)
  | join (q : QueueId)
  | promise (thread : Option QueueId)
  /-- `then`, `next` and `when_all` make the future that they return. -/
  | then_
  /-- `unwrap` of `f` makes the promise whose future it returns. -/
  | unwrap (f : FutureId)
  /-- Some continuation that is no await is added to `f`. -/
  | add_continuation (f : FutureId)
  | fulfil (f : FutureId) (r : Except (Option χ) α)
  /-- The loop of a setter calls the next continuation. -/
  | run_next (d : Nat)

/-- `get_await_queue` of `promise`: the queue of the current context of the thread. -/
def get_await_queue (c : Config α χ) (thread : Option QueueId) : Option QueueId :=
  match thread.bind (c.queues[·]?) with
  | none => none
  | some tq =>
    match tq.current.bind (c.contexts[·]?) with
    | none => none
    | some ctx => some ctx.task_queue_

/-- The function that runs on the worker, when it is in the code of the client: its promise and
its context. -/
def running (c : Config α χ) (tq : TaskQueue α) :
    Option (Option FutureId × Option (ContextId × TaskContext α)) :=
  match tq.worker with
  | .plain p .task_ => some (p, none)
  | .fiber i =>
    match c.contexts[i]? with
    | some ctx =>
      match ctx.pc with
      | .wrapped .task_ => some (ctx.func_, some (i, ctx))
      | _ => none
    | none => none
  | _ => none

/-- `await_value::apply`. With no current context it is a `get`, which blocks. -/
def await (c : Config α χ) (f : FutureId) (ctx : Option (ContextId × TaskContext α)) :
    Option (Config α χ) :=
  match c.futures[f]? with
  | none => none
  | some s =>
    if ready s then some c
    else
      match ctx with
      | none => none
      | some (i, ctx) => some (c.setContext i { ctx with pc := .continue_with f })

/-- `wrapped_function` after `task_()` has returned `v`. -/
def returned (c : Config α χ) (q : QueueId) (tq : TaskQueue α) (p : Option FutureId) (v : α)
    (ctx : Option (ContextId × TaskContext α)) : Config α χ :=
  let c' := c.note [.returned p v]
  match ctx with
  | none => c'.setQueue q { tq with worker := .plain p (.set_value v) }
  | some (i, ctx) => c'.setContext i { ctx with pc := .wrapped (.set_value v) }

/-- A setter of the promise `f` of the client. A null `exception_ptr` is `none`. One that throws
leaves everything as it is. -/
def fulfil (c : Config α χ) (f : FutureId) (r : Except (Option χ) α) : Option (Config α χ) :=
  match c.futures[f]? with
  | none => none
  | some s =>
    match (match r with
      | .ok v => set_value s (.ok v)
      | .error x => set_exception s x) with
    | (.stored cs, s') => some ((c.setFuture f s').startLoop f cs)
    | _ => none

/-- The next call of a loop over continuations. -/
def run_next (c : Config α χ) (d : Nat) : Option (Config α χ) :=
  match c.setters[d]? with
  | some (f, .other :: cs) => some { c with setters := c.setters.set d (f, cs) }
  | some (f, .push_front i n :: cs) =>
    pushResume { c with setters := c.setters.set d (f, cs) } f i n
  | _ => none

def step (c : Config α χ) (e : Event α χ) : Option (Config α χ) :=
  if c.fault.isSome then none
  else
    match e with
    | .worker q built =>
      match c.queues[q]? with
      | none => none
      | some tq => workerStep c q tq built
    | .wake q =>
      match c.queues[q]? with
      | none => none
      | some tq => some (c.setQueue q tq.notify_one)
    | .await q f =>
      match c.queues[q]? with
      | none => none
      | some tq => (running c tq).bind (fun r => await c f r.2)
    | .ret q v =>
      match c.queues[q]? with
      | none => none
      | some tq => (running c tq).map (fun r => returned c q tq r.1 v r.2)
    | .throw_ q x =>
      match c.queues[q]? with
      | none => none
      | some tq => (running c tq).map (fun r => (c.note [.threw r.1 x]).fail .terminated)
    | .push_back thread q policy =>
      match c.queues[q]? with
      | none => none
      | some tq =>
        let f := c.futures.length
        some ({ c.alloc (get_await_queue c thread) with wrapped := c.wrapped ++ [f] }.setQueue q
          (tq.push_back (.task (some f) policy)))
    | .push_back_and_forget q empty =>
      match c.queues[q]? with
      | none => none
      | some tq =>
        some (c.setQueue q (tq.push_back (if empty then .empty else .task none .non_resumable)))
    | .join q =>
      match c.queues[q]? with
      | none => none
      | some tq => some (c.setQueue q tq.join)
    | .promise thread => some (c.alloc (get_await_queue c thread))
    | .then_ => some (c.alloc none)
    | .unwrap f =>
      match c.futures[f]? with
      | none => none
      | some s => some (c.alloc s.await_queue_)
    | .add_continuation f =>
      match c.futures[f]? with
      | none => none
      | some s => (add_continuation s .other).map (c.setFuture f)
    | .fulfil f r => if f ∈ c.wrapped then none else fulfil c f r
    | .run_next d => run_next c d

end

end ltl.task_queue
