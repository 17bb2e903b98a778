-- The servers of a manager (server.cpp): objects that are moved, closed and
-- destroyed, and the implementations that they and the posted tasks own.
import Ltl.Counts
import Ltl.FutureState
import Ltl.TaskLoop

open runs counts ltl.future_state lio.task_loop

namespace lio.server.impl

/-! ## The implementation -/

/-- `server::impl`. `uv_closes` counts the calls of `uv_close` on `server_`, and `called_back` says
that libuv has called `close_cb`. The functions that wait for the promise are in `Ltl.Futures`. -/
structure Impl where
  closing_ : Bool := false
  closing_promise_ : FutureState Unit Unit Unit Unit := {}
  uv_closes : Nat := 0
  called_back : Bool := false
  deriving DecidableEq, Repr

/-- The future that `impl::close` returns: one of `make_ready_future`, or that of the promise. -/
inductive Returned where
  | ready
  | promise
  deriving DecidableEq, Repr

def close (m : Impl) : Impl × Returned :=
  if m.closing_ then (m, .ready)
  else ({ m with closing_ := true, uv_closes := m.uv_closes + 1 }, .promise)

def on_close (m : Impl) : Impl :=
  { m with
    closing_promise_ := (set_value m.closing_promise_ (.ok ())).2
    called_back := true }

/-! ## The objects and the loop -/

/-- A `server`. `impl_` is the null pointer after a move, and the destructor has posted a task
before `impl_` is destroyed. -/
inductive Object where
  | alive (impl_ : Option Nat)
  | destroying (impl_ : Nat)
  | gone
  deriving DecidableEq, Repr

def Object.impl? : Object → Option Nat
  | .alive impl_ => impl_
  | .destroying impl_ => some impl_
  | .gone => none

@[simp] theorem impl?_alive (impl_ : Option Nat) : (Object.alive impl_).impl? = impl_ := rfl

@[simp] theorem impl?_destroying (i : Nat) : (Object.destroying i).impl? = some i := rfl

@[simp] theorem impl?_gone : Object.gone.impl? = none := rfl

/-- A function in the queue of the manager. That of `close` has the number of its call. -/
inductive Task where
  | close (call : Nat) (impl_ : Nat)
  | other
  deriving DecidableEq, Repr

def Task.impl? : Task → Option Nat
  | .close _ impl_ => some impl_
  | .other => none

/-- A call of `server::close`. `returned` is none until its task was called. -/
structure Call where
  impl_ : Nat
  returned : Option Returned := none
  deriving DecidableEq, Repr

/-- Why the program has stopped: `server::close` with the null pointer, or the close callback of an
implementation that is destroyed. -/
inductive Fault where
  | null
  | released
  deriving DecidableEq, Repr

structure System where
  loop : Loop Task := {}
  impls : List Impl := []
  objects : List Object := []
  calls : List Call := []
  fault : Option Fault := none
  deriving DecidableEq, Repr

/-- 1 for an owner of the implementation `i`. -/
def owns (i : Nat) (impl_ : Option Nat) : Nat := if impl_ = some i then 1 else 0

/-- The number of the owners of an implementation: the objects, and the tasks that are not
destroyed. -/
def owners (s : System) (i : Nat) : Nat :=
  total (fun o => owns i o.impl?) s.objects + total (fun t => owns i t.impl?) s.loop.stored

/-- `server::close`, called by the user or by the destructor. -/
def post_close (s : System) : Option Nat → System
  | none => { s with fault := some .null }
  | some i => { s with
      loop := execute s.loop (.close s.calls.length i)
      calls := s.calls ++ [{ impl_ := i }] }

/-- The call of a task by the thread of the loop. -/
def System.call (s : System) : Task → System
  | .other => s
  | .close call i =>
    match s.impls[i]? with
    | none => s
    | some m => { s with
        impls := s.impls.set i (close m).1
        calls := s.calls.set call { impl_ := i, returned := some (close m).2 } }

/-- `create`, `close`, `move` and `assign` are the members that a user calls, with the index of the
object, and `destroy` and `release` are the two halves of `~server`. In the rest the thread of the
loop runs. -/
inductive Event where
  | create
  | close (object : Nat)
  | move (other : Nat)
  | assign (object : Nat) (other : Nat)
  | destroy (object : Nat)
  | release (object : Nat)
  | execute
  | async_new_task_cb
  | on_async_new_task
  | close_cb (impl : Nat)
  deriving DecidableEq, Repr

/-- libuv calls `close_cb` once, from `uv_run`. -/
def step (s : System) (e : Event) : Option System :=
  if s.fault.isSome then none
  else
    match e with
    | .create => some { s with
        impls := s.impls ++ [{}]
        objects := s.objects ++ [.alive (some s.impls.length)] }
    | .close o =>
      match s.objects[o]? with
      | some (.alive impl_) => some (post_close s impl_)
      | _ => none
    | .move o =>
      match s.objects[o]? with
      | some (.alive impl_) => some { s with
          objects := s.objects.set o (.alive none) ++ [.alive impl_] }
      | _ => none
    | .assign o p =>
      match s.objects[o]?, s.objects[p]? with
      | some (.alive _), some (.alive impl_) => some { s with
          objects := (s.objects.set p (.alive none)).set o (.alive impl_) }
      | _, _ => none
    | .destroy o =>
      match s.objects[o]? with
      | some (.alive impl_) => some (post_close { s with
          objects := s.objects.set o (impl_.elim .gone .destroying) } impl_)
      | _ => none
    | .release o =>
      match s.objects[o]? with
      | some (.destroying _) => some { s with objects := s.objects.set o .gone }
      | _ => none
    | .execute => some { s with loop := execute s.loop .other }
    | .async_new_task_cb => (async_new_task_cb s.loop).map (fun loop => { s with loop })
    | .on_async_new_task =>
      (on_async_new_task s.loop).map (fun loop =>
        s.loop.next.elim { s with loop } { s with loop }.call)
    | .close_cb i =>
      match s.loop.place, s.impls[i]? with
      | .uv_run, some m =>
        if m.uv_closes ≠ 0 ∧ m.called_back = false then
          if owners s i = 0 then some { s with fault := some .released }
          else some { s with impls := s.impls.set i (on_close m) }
        else none
      | _, _ => none

/-! ## What one step can be -/

inductive Moves (s : System) : Event → System → Prop where
  | create : Moves s .create { s with
      impls := s.impls ++ [{}], objects := s.objects ++ [.alive (some s.impls.length)] }
  | close {o : Nat} {impl_ : Option Nat} (ho : s.objects[o]? = some (.alive impl_)) :
      Moves s (.close o) (post_close s impl_)
  | move {o : Nat} {impl_ : Option Nat} (ho : s.objects[o]? = some (.alive impl_)) :
      Moves s (.move o) { s with objects := s.objects.set o (.alive none) ++ [.alive impl_] }
  | assign {o p : Nat} {old impl_ : Option Nat} (ho : s.objects[o]? = some (.alive old))
      (hp : s.objects[p]? = some (.alive impl_)) :
      Moves s (.assign o p)
        { s with objects := (s.objects.set p (.alive none)).set o (.alive impl_) }
  | destroy {o : Nat} {impl_ : Option Nat} (ho : s.objects[o]? = some (.alive impl_)) :
      Moves s (.destroy o)
        (post_close { s with objects := s.objects.set o (impl_.elim .gone .destroying) } impl_)
  | release {o i : Nat} (ho : s.objects[o]? = some (.destroying i)) :
      Moves s (.release o) { s with objects := s.objects.set o .gone }
  | execute : Moves s .execute { s with loop := execute s.loop .other }
  | async {loop : Loop Task} (hl : async_new_task_cb s.loop = some loop) :
      Moves s .async_new_task_cb { s with loop }
  | idle {loop : Loop Task} (hl : on_async_new_task s.loop = some loop)
      (hn : s.loop.next = none) : Moves s .on_async_new_task { s with loop }
  | call {loop : Loop Task} {task : Task} (hl : on_async_new_task s.loop = some loop)
      (hn : s.loop.next = some task) : Moves s .on_async_new_task ({ s with loop }.call task)
  | released {i : Nat} {m : Impl} (hm : s.impls[i]? = some m) (hb : m.called_back = false)
      (ho : owners s i = 0) : Moves s (.close_cb i) { s with fault := some .released }
  | close_cb {i : Nat} {m : Impl} (hm : s.impls[i]? = some m) (hu : m.uv_closes ≠ 0)
      (hb : m.called_back = false) (ho : owners s i ≠ 0) :
      Moves s (.close_cb i) { s with impls := s.impls.set i (on_close m) }

/-- Every step is one of these moves, of a program that has not stopped. -/
theorem step_moves {s s' : System} {e : Event} (h : step s e = some s') :
    s.fault = none ∧ Moves s e s' := by
  unfold step at h
  split at h
  · cases h
  rename_i hf
  rw [Option.not_isSome_iff_eq_none] at hf
  refine ⟨hf, ?_⟩
  split at h
  · cases h
    exact .create
  · split at h
    · rename_i ho
      cases h
      exact .close ho
    · cases h
  · split at h
    · rename_i ho
      cases h
      exact .move ho
    · cases h
  · split at h
    · rename_i ho hp
      cases h
      exact .assign ho hp
    · cases h
  · split at h
    · rename_i ho
      cases h
      exact .destroy ho
    · cases h
  · split at h
    · rename_i ho
      cases h
      exact .release ho
    · cases h
  · cases h
    exact .execute
  · obtain ⟨loop, hl, rfl⟩ := Option.map_eq_some_iff.mp h
    exact .async hl
  · obtain ⟨loop, hl, rfl⟩ := Option.map_eq_some_iff.mp h
    cases hn : s.loop.next with
    | none => exact .idle hl hn
    | some task => exact .call hl hn
  · split at h
    · rename_i hm
      split at h
      · rename_i hc
        split at h
        · rename_i ho
          cases h
          exact .released hm hc.2 ho
        · rename_i ho
          cases h
          exact .close_cb hm hc.1 hc.2 ho
      · cases h
    · cases h

end lio.server.impl
