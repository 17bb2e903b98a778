-- A socket beside the event loop (socket.cpp): its calls post tasks to the
-- manager, the thread of the loop runs them on the implementation, and libuv
-- calls back between two runs of the queue.
import Ltl.FutureState
import Ltl.SocketRead
import Ltl.TaskLoop

open runs ltl.future_state lio.task_loop

namespace lio.socket.impl

/-- The state of a `future<void>`. The functions that wait for it are in `Ltl.Futures`. -/
abbrev Void := FutureState Unit Unit Unit Unit

/-! ## The overloads of `write` -/

/-- The three overloads of `socket::write`. `pointer` has the bytes that begin at its pointer. -/
inductive Overload where
  | const_ref (data : List UInt8)
  | rvalue (data : List UInt8)
  | pointer (data : List UInt8)
  deriving DecidableEq, Repr

inductive Body where
  | calls (overload : Overload)
  | posts (data : List UInt8)
  deriving DecidableEq, Repr

/-- `std::move` of a `const&` is a `const&&`, which binds to a `const&` and not to a `&&`. -/
def Overload.body : Overload → Body
  | .const_ref data => .calls (.const_ref data)
  | .rvalue data => .posts data
  | .pointer data => .calls (.rvalue data)

/-- The bytes that the caller gives. -/
def Overload.given : Overload → List UInt8
  | .const_ref data => data
  | .rvalue data => data
  | .pointer data => data

/-- A call of `write` that has posted no task. -/
structure Call where
  given : List UInt8
  overload : Overload
  deriving DecidableEq, Repr

/-! ## Writes -/

/-- A `write_request`. Its promise is named by the call that it is for. -/
structure WriteRequest where
  promise : Nat
  data : List UInt8
  deriving DecidableEq, Repr

/-- What libuv does with the request of a call: none is made, it is accepted, its callback has come
with a status, or `uv_write` has returned an error. -/
inductive Fate where
  | queued
  | accepted
  | written (status : Int)
  | refused
  deriving DecidableEq, Repr

/-- What the future of a call has to have. The type of an exception is `Unit`. -/
def Fate.outcome : Fate → Option (Except Unit Unit)
  | .queued => none
  | .accepted => none
  | .written status => if status = 0 then some (.ok ()) else some (.error ())
  | .refused => some (.error ())

/-- The future that a call of `write` has returned: that of the promise of its request, from the
task of the call on. No step reads `fate`. -/
structure Returned where
  promise : Option Void := none
  fate : Fate := .queued
  deriving DecidableEq, Repr

def Returned.outcome (r : Returned) : Option (Except Unit Unit) := r.promise.bind get

/-- `accepted` is libuv's own queue. No step reads `submitted`, the requests that `uv_write` was
called for, and `posted`, those that the calls are to make. -/
structure Writes where
  write_queue_ : List WriteRequest := []
  accepted : List Nat := []
  returned : List Returned := []
  submitted : List WriteRequest := []
  posted : List WriteRequest := []
  deriving DecidableEq, Repr

/-- `impl::write`. It does not look at what `uv_write` returns. -/
def write (w : Writes) (call : Nat) (data : List UInt8) (refused : Bool) : Writes :=
  { w with
    write_queue_ := w.write_queue_ ++ [⟨call, data⟩]
    accepted := if refused then w.accepted else w.accepted ++ [call]
    returned := w.returned.modify call
      (fun _ => ⟨some {}, if refused then .refused else .accepted⟩)
    submitted := w.submitted ++ [⟨call, data⟩] }

/-- libuv takes the first of the requests that it has accepted, to call back for it. -/
def Writes.taken (w : Writes) (call : Nat) (accepted : List Nat) (status : Int) : Writes :=
  { w with
    accepted
    returned := w.returned.modify call (fun r => { r with fate := .written status }) }

/-- What `on_write` does to the promise of the front request. -/
def complete (status : Int) (p : Void) : Void :=
  if status ≠ 0 then (set_exception p (some ())).2 else (set_value p (.ok ())).2

/-- `on_write`: none is `front()` on an empty queue. -/
def on_write (w : Writes) (status : Int) : Option Writes :=
  match w.write_queue_ with
  | [] => none
  | front :: rest => some { w with
      write_queue_ := rest
      returned := w.returned.modify front.promise
        (fun r => { r with promise := r.promise.map (complete status) }) }

/-! ## Closing -/

/-- `tcp_` says whether the pointer holds the handle. `uv_closes` counts the calls of `uv_close`,
and `called_back` says that libuv has called `close_cb`. -/
structure Closing where
  tcp_ : Bool := true
  closing_ : Bool := false
  closing_promise_ : Void := {}
  keep_alive_ : Bool := false
  uv_closes : Nat := 0
  called_back : Bool := false
  deriving DecidableEq, Repr

/-- `impl::close`: none is the failed assertion. -/
def close (c : Closing) : Option Closing :=
  if c.closing_ then none
  else some { c with closing_ := true, uv_closes := c.uv_closes + 1, keep_alive_ := true }

def on_close (c : Closing) : Closing :=
  { c with
    tcp_ := false
    closing_promise_ := (set_value c.closing_promise_ (.ok ())).2
    keep_alive_ := false
    called_back := true }

/-! ## The socket and the loop -/

/-- A function in the queue of the manager. The ones of `write` and `close` have the number of their
call, and `other` has nothing to do with this socket. -/
inductive Task where
  | write (call : Nat) (data : List UInt8)
  | read (size : Nat)
  | close (call : Nat)
  | other
  deriving DecidableEq, Repr

/-- The task has a copy of `impl_`. -/
def Task.holds : Task → Bool
  | .other => false
  | _ => true

/-- The `socket`, whose destructor has posted a task before `impl_` is destroyed. -/
inductive Object where
  | alive
  | destroying
  | gone
  deriving DecidableEq, Repr

/-- Why the program has stopped: `uv_write` or `uv_read_start` with the null pointer, `front()` on
the empty `write_queue_`, the assertion of `impl::close`, or an exception of `reserve` that leaves
the thread of the loop. The faults of the read callbacks are in `reads`. -/
inductive Fault where
  | write_released
  | read_released
  | front
  | assertion
  | reserve
  deriving DecidableEq, Repr

/-- `closed` says of each task of `close` whether it was called, in the order of the calls. No step
reads `issued`, the sizes of the calls of `read`, and `closes`, the number of the calls of `close`
that are not the destructor's. -/
structure System where
  loop : Loop Task := {}
  object : Object := .alive
  running : List Call := []
  reads : Config := {}
  writes : Writes := {}
  closing : Closing := {}
  closed : List Bool := []
  fault : Option Fault := none
  issued : List Nat := []
  closes : Nat := 0
  deriving DecidableEq, Repr

def post (s : System) (task : Task) : System := { s with loop := execute s.loop task }

/-- The call of a task by the thread of the loop. `refused` is what `uv_write` answers. -/
def System.call (s : System) (refused : Bool) : Task → System
  | .write call data => { s with
      writes := write s.writes call data refused
      fault := if s.closing.tcp_ then s.fault else some .write_released }
  | .read size =>
    match lio.socket.read s.reads size with
    | none => { s with fault := some .reserve }
    | some reads =>
      if s.closing.tcp_ then { s with reads } else { s with fault := some .read_released }
  | .close call =>
    match close s.closing with
    | none => { s with fault := some .assertion }
    | some closing => { s with closing, closed := s.closed.set call true }
  | .other => s

/-- `write`, `read` and `close` are calls of the user, `overload` is the body of the call of `write`
with this index, and `destroy` and `release` are the two halves of `~socket`. In the rest the thread
of the loop runs, by itself or in a callback of libuv. -/
inductive Event where
  | write (overload : Overload)
  | overload (index : Nat)
  | read (size : Nat)
  | close
  | destroy
  | release
  | execute
  | async_new_task_cb
  | on_async_new_task (refused : Bool)
  | alloc_read (suggested_size : Nat)
  | read_cb (nread : Nread)
  | write_cb (status : Int)
  | close_cb
  deriving DecidableEq, Repr

/-- The body of an overload. -/
def body (s : System) (i : Nat) (c : Call) : System :=
  match c.overload.body with
  | .calls overload => { s with running := s.running.set i { c with overload } }
  | .posts data => post { s with
      running := s.running.eraseIdx i
      writes := { s.writes with
        returned := s.writes.returned ++ [{}]
        posted := s.writes.posted ++ [⟨s.writes.returned.length, c.given⟩] } }
      (.write s.writes.returned.length data)

/-- `socket::close`, called by the user or by the destructor. -/
def post_close (s : System) : System :=
  post { s with closed := s.closed ++ [false] } (.close s.closed.length)

def write_cb (s : System) (call : Nat) (accepted : List Nat) (status : Int) : System :=
  match on_write (s.writes.taken call accepted status) status with
  | none => { s with fault := some .front }
  | some writes => { s with writes }

/-- libuv calls back from `uv_run`. After `uv_close` it reads nothing more, and it calls `close_cb`
once, after the callbacks of all accepted requests. -/
def step (s : System) (e : Event) : Option System :=
  if s.fault.isSome || s.reads.fault.isSome then none
  else
    match e with
    | .write overload =>
      if s.object = .alive then some { s with running := s.running ++ [⟨overload.given, overload⟩] }
      else none
    | .overload i => (s.running[i]?).map (body s i)
    | .read size =>
      if s.object = .alive then some (post { s with issued := s.issued ++ [size] } (.read size))
      else none
    | .close =>
      if s.object = .alive then some (post_close { s with closes := s.closes + 1 }) else none
    | .destroy =>
      if s.object = .alive ∧ s.running = [] then some (post_close { s with object := .destroying })
      else none
    | .release => if s.object = .destroying then some { s with object := .gone } else none
    | .execute => some (post s .other)
    | .async_new_task_cb => (async_new_task_cb s.loop).map (fun loop => { s with loop })
    | .on_async_new_task refused =>
      (on_async_new_task s.loop).map (fun loop =>
        s.loop.next.elim { s with loop } ({ s with loop }.call refused))
    | .alloc_read suggested_size =>
      if s.loop.place = .uv_run ∧ s.closing.closing_ = false then
        (lio.socket.step s.reads (.alloc_read suggested_size)).map (fun reads => { s with reads })
      else none
    | .read_cb nread =>
      if s.loop.place = .uv_run ∧ s.closing.closing_ = false then
        (lio.socket.step s.reads (.read_cb nread)).map (fun reads => { s with reads })
      else none
    | .write_cb status =>
      match s.loop.place, s.writes.accepted with
      | .uv_run, call :: accepted => some (write_cb s call accepted status)
      | _, _ => none
    | .close_cb =>
      if s.loop.place = .uv_run ∧ s.closing.uv_closes ≠ 0 ∧ s.closing.called_back = false ∧
          s.writes.accepted = [] then
        some { s with closing := on_close s.closing }
      else none

/-! ## What one step can be -/

inductive Moves (s : System) : Event → System → Prop where
  | write (overload : Overload) (ho : s.object = .alive) :
      Moves s (.write overload) { s with running := s.running ++ [⟨overload.given, overload⟩] }
  | overload {i : Nat} {c : Call} (hc : s.running[i]? = some c) :
      Moves s (.overload i) (body s i c)
  | read (size : Nat) (ho : s.object = .alive) :
      Moves s (.read size) (post { s with issued := s.issued ++ [size] } (.read size))
  | close (ho : s.object = .alive) :
      Moves s .close (post_close { s with closes := s.closes + 1 })
  | destroy (ho : s.object = .alive) (hr : s.running = []) :
      Moves s .destroy (post_close { s with object := .destroying })
  | release (ho : s.object = .destroying) : Moves s .release { s with object := .gone }
  | execute : Moves s .execute (post s .other)
  | async {loop : Loop Task} (hl : async_new_task_cb s.loop = some loop) :
      Moves s .async_new_task_cb { s with loop }
  | idle {loop : Loop Task} {refused : Bool} (hl : on_async_new_task s.loop = some loop)
      (hn : s.loop.next = none) : Moves s (.on_async_new_task refused) { s with loop }
  | call {loop : Loop Task} {refused : Bool} {task : Task}
      (hl : on_async_new_task s.loop = some loop) (hn : s.loop.next = some task) :
      Moves s (.on_async_new_task refused) ({ s with loop }.call refused task)
  | alloc_read {n : Nat} {reads : Config} (hc : s.closing.closing_ = false)
      (hr : lio.socket.step s.reads (.alloc_read n) = some reads) :
      Moves s (.alloc_read n) { s with reads }
  | read_cb {nread : Nread} {reads : Config} (hc : s.closing.closing_ = false)
      (hr : lio.socket.step s.reads (.read_cb nread) = some reads) :
      Moves s (.read_cb nread) { s with reads }
  | write_cb {call : Nat} {accepted : List Nat} {status : Int}
      (ha : s.writes.accepted = call :: accepted) :
      Moves s (.write_cb status) (write_cb s call accepted status)
  | close_cb (hu : s.closing.uv_closes ≠ 0) (hc : s.closing.called_back = false)
      (ha : s.writes.accepted = []) : Moves s .close_cb { s with closing := on_close s.closing }

/-- Every step is one of these moves, of a program that has not stopped. -/
theorem step_moves {s s' : System} {e : Event} (h : step s e = some s') :
    s.fault = none ∧ Moves s e s' := by
  unfold step at h
  split at h
  · cases h
  rename_i hf
  rw [Bool.or_eq_true, not_or, Option.not_isSome_iff_eq_none] at hf
  refine ⟨hf.1, ?_⟩
  split at h
  · split at h
    · rename_i ho
      cases h
      exact .write _ ho
    · cases h
  · obtain ⟨c, hc, rfl⟩ := Option.map_eq_some_iff.mp h
    exact .overload hc
  · split at h
    · rename_i ho
      cases h
      exact .read _ ho
    · cases h
  · split at h
    · rename_i ho
      cases h
      exact .close ho
    · cases h
  · split at h
    · rename_i ho
      cases h
      exact .destroy ho.1 ho.2
    · cases h
  · split at h
    · rename_i ho
      cases h
      exact .release ho
    · cases h
  · cases h
    exact .execute
  · obtain ⟨loop, hl, rfl⟩ := Option.map_eq_some_iff.mp h
    exact .async hl
  · obtain ⟨loop, hl, rfl⟩ := Option.map_eq_some_iff.mp h
    cases hn : s.loop.next with
    | none => exact .idle hl hn
    | some task => exact .call hl hn
  · split at h
    · rename_i hc
      obtain ⟨reads, hr, rfl⟩ := Option.map_eq_some_iff.mp h
      exact .alloc_read hc.2 hr
    · cases h
  · split at h
    · rename_i hc
      obtain ⟨reads, hr, rfl⟩ := Option.map_eq_some_iff.mp h
      exact .read_cb hc.2 hr
    · cases h
  · split at h
    · rename_i ha
      cases h
      exact .write_cb ha
    · cases h
  · split at h
    · rename_i hc
      cases h
      exact .close_cb hc.2.1 hc.2.2.1 hc.2.2.2
    · cases h

/-! ## What a task leaves alone -/

section
variable (s : System) (refused : Bool) (task : Task)

/-- The call of a task of `read`, by its ends. -/
theorem call_read (size : Nat) :
    (lio.socket.read s.reads size = none ∧
      s.call refused (.read size) = { s with fault := some .reserve }) ∨
    ∃ reads, lio.socket.read s.reads size = some reads ∧
      ((s.closing.tcp_ = true ∧ s.call refused (.read size) = { s with reads }) ∨
        (s.closing.tcp_ = false ∧
          s.call refused (.read size) = { s with fault := some .read_released })) := by
  unfold System.call
  dsimp only
  cases lio.socket.read s.reads size with
  | none => exact Or.inl ⟨rfl, rfl⟩
  | some reads =>
    refine Or.inr ⟨reads, rfl, ?_⟩
    cases s.closing.tcp_ with
    | true => exact Or.inl ⟨rfl, rfl⟩
    | false => exact Or.inr ⟨rfl, rfl⟩

/-- The call of a task of `close`, by its ends. -/
theorem call_close (call : Nat) :
    (s.closing.closing_ = true ∧
      s.call refused (.close call) = { s with fault := some .assertion }) ∨
    (s.closing.closing_ = false ∧ s.call refused (.close call) = { s with
      closing := { s.closing with
        closing_ := true, uv_closes := s.closing.uv_closes + 1, keep_alive_ := true }
      closed := s.closed.set call true }) := by
  unfold System.call close
  cases s.closing.closing_ with
  | true => exact Or.inl ⟨rfl, rfl⟩
  | false => exact Or.inr ⟨rfl, rfl⟩

@[simp] theorem call_loop : (s.call refused task).loop = s.loop := by
  cases task with
  | write => rfl
  | read size =>
    obtain ⟨-, h⟩ | ⟨_, -, ⟨-, h⟩ | ⟨-, h⟩⟩ := call_read s refused size
    all_goals rw [h]
  | close call =>
    obtain ⟨-, h⟩ | ⟨-, h⟩ := call_close s refused call
    all_goals rw [h]
  | other => rfl

@[simp] theorem call_running : (s.call refused task).running = s.running := by
  cases task with
  | write => rfl
  | read size =>
    obtain ⟨-, h⟩ | ⟨_, -, ⟨-, h⟩ | ⟨-, h⟩⟩ := call_read s refused size
    all_goals rw [h]
  | close call =>
    obtain ⟨-, h⟩ | ⟨-, h⟩ := call_close s refused call
    all_goals rw [h]
  | other => rfl

theorem call_writes (ht : ∀ call data, task ≠ .write call data) :
    (s.call refused task).writes = s.writes := by
  cases task with
  | write call data => exact absurd rfl (ht call data)
  | read size =>
    obtain ⟨-, h⟩ | ⟨_, -, ⟨-, h⟩ | ⟨-, h⟩⟩ := call_read s refused size
    all_goals rw [h]
  | close call =>
    obtain ⟨-, h⟩ | ⟨-, h⟩ := call_close s refused call
    all_goals rw [h]
  | other => rfl

end

/-! ## Steps that go on -/

/-- The thread of the loop has died, or an assertion has failed. -/
def Stopped (s : System) : Prop := s.fault ≠ none ∨ s.reads.fault ≠ none

/-- A task of `write` or `read` finds the handle, one of `read` has a size that `reserve` takes, and
one of `close` finds `closing_` unset. -/
def Task.GoesOn (s : System) : Task → Prop
  | .write _ _ => s.closing.tcp_ = true
  | .read size => size ≤ max_size ∧ s.closing.tcp_ = true
  | .close _ => s.closing.closing_ = false
  | .other => True

/-- The step does not stop the program. -/
def GoesOn (s : System) : Event → Prop
  | .on_async_new_task _ => ∀ task ∈ s.loop.next, task.GoesOn s
  | .alloc_read n => lio.socket.GoesOn s.reads (.alloc_read n)
  | .read_cb nread => lio.socket.GoesOn s.reads (.read_cb nread)
  | _ => True

instance (s : System) : ∀ t : Task, Decidable (t.GoesOn s)
  | .write _ _ => inferInstanceAs (Decidable (s.closing.tcp_ = true))
  | .read size => inferInstanceAs (Decidable (size ≤ max_size ∧ s.closing.tcp_ = true))
  | .close _ => inferInstanceAs (Decidable (s.closing.closing_ = false))
  | .other => isTrue trivial

instance (s : System) : ∀ e, Decidable (GoesOn s e)
  | .on_async_new_task _ =>
    inferInstanceAs (Decidable (∀ task ∈ s.loop.next, Task.GoesOn s task))
  | .alloc_read n => inferInstanceAs (Decidable (lio.socket.GoesOn s.reads (.alloc_read n)))
  | .read_cb nread => inferInstanceAs (Decidable (lio.socket.GoesOn s.reads (.read_cb nread)))
  | .write _ | .overload _ | .read _ | .close | .destroy | .release | .execute
  | .async_new_task_cb | .write_cb _ | .close_cb => isTrue trivial

theorem running_of_step {s s' : System} {e : Event} (h : step s e = some s') : ¬ Stopped s := by
  unfold step at h
  split at h
  · cases h
  · rename_i hf
    rw [Bool.or_eq_true, not_or, Option.not_isSome_iff_eq_none,
      Option.not_isSome_iff_eq_none] at hf
    rintro (h | h)
    · exact h hf.1
    · exact h hf.2

theorem call_goes_on {s : System} (hf : ¬ Stopped s) (refused : Bool) (task : Task) :
    ¬ Stopped (s.call refused task) ↔ task.GoesOn s := by
  cases task with
  | write call data =>
    show ¬ ((if s.closing.tcp_ then s.fault else _) ≠ none ∨ s.reads.fault ≠ none) ↔
      s.closing.tcp_ = true
    cases s.closing.tcp_ with
    | true => exact ⟨fun _ => rfl, fun _ => hf⟩
    | false => exact ⟨fun h => absurd (Or.inl nofun) h, nofun⟩
  | read size =>
    have hsize := lio.socket.read_goes_on s.reads size
    obtain ⟨hr, hc⟩ | ⟨reads, hr, ⟨htcp, hc⟩ | ⟨htcp, hc⟩⟩ := call_read s refused size
    · rw [hc]
      exact ⟨fun h => absurd (Or.inl nofun) h, fun h => absurd hr (hsize.mpr h.1)⟩
    · rw [hc]
      have hle := hsize.mp (by rw [hr]; exact nofun)
      refine ⟨fun _ => ⟨hle, htcp⟩, fun _ => ?_⟩
      unfold lio.socket.read at hr
      rw [if_neg (Nat.not_lt_of_le hle)] at hr
      cases hr
      exact hf
    · rw [hc]
      exact ⟨fun h => absurd (Or.inl nofun) h, fun h => absurd (htcp.symm.trans h.2) nofun⟩
  | close call =>
    obtain ⟨hclosing, hc⟩ | ⟨hclosing, hc⟩ := call_close s refused call
    · rw [hc]
      exact ⟨fun h => absurd (Or.inl nofun) h, fun h => absurd (hclosing.symm.trans h) nofun⟩
    · rw [hc]
      exact ⟨fun _ => hclosing, fun _ => hf⟩
  | other => exact ⟨fun _ => trivial, fun _ => hf⟩

/-! ## The queue -/

/-- What the thread takes out of the queue is what it calls. -/
theorem queued_call {l loop : Loop Task} {task : Task} (hl : on_async_new_task l = some loop)
    (hn : l.next = some task) : l.queued = task :: loop.queued := by
  rw [queued_next hl, hn]
  rfl

theorem queued_idle {l loop : Loop Task} (hl : on_async_new_task l = some loop)
    (hn : l.next = none) : l.queued = loop.queued := by
  rw [queued_next hl, hn]
  rfl

theorem queued_post (s : System) (task : Task) :
    (post s task).loop.queued = s.loop.queued ++ [task] := queued_execute s.loop task

end lio.socket.impl
