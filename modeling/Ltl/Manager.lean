-- The owners of a manager (iomanager.cpp): users, and the implementations of
-- its sockets and servers. Whoever gives up the last one runs its destructor,
-- which waits for a task of the loop.
import Ltl.Server
import Ltl.Socket

open runs counts lio.task_loop

namespace lio.iomanager.lifetime

/-! ## Sockets and servers -/

/-- An implementation, which has a pointer to the manager. -/
inductive Impl where
  | socket (impl : lio.socket.impl.Closing)
  | server (impl : lio.server.impl.Impl)
  deriving DecidableEq, Repr

def Impl.keep_alive_ : Impl → Bool
  | .socket c => c.keep_alive_
  | .server _ => false

/-- The task of `close`: none is the failed assertion of a socket. -/
def Impl.close : Impl → Option Impl
  | .socket c => (lio.socket.impl.close c).map .socket
  | .server m => some (.server (lio.server.impl.close m).1)

/-- libuv is to call `close_cb`. -/
def Impl.closes : Impl → Bool
  | .socket c => c.uv_closes != 0 && !c.called_back
  | .server m => m.uv_closes != 0 && !m.called_back

def Impl.on_close : Impl → Impl
  | .socket c => .socket (lio.socket.impl.on_close c)
  | .server m => .server (lio.server.impl.on_close m)

/-- A socket or server, with its object. -/
structure Handle where
  object : lio.socket.impl.Object
  impl : Impl
  deriving DecidableEq, Repr

/-! ## The manager -/

/-- A function in the queue of the manager: a member of the handle with this index, its `close`, a
function of the user that has a pointer to the manager or none, and the one of `stop`. -/
inductive Task where
  | member (handle : Nat)
  | close (handle : Nat)
  | shares
  | other
  | stop
  deriving DecidableEq, Repr

inductive Thread where
  | user
  | loop
  deriving DecidableEq, Repr

/-- `users` counts the pointers to the manager that users have. `stopping` is the thread that runs
`~iomanager` and waits in `stop`, and `fault` is a failed assertion, or the close callback of an
implementation that is destroyed. -/
structure System where
  loop : Loop Task := {}
  users : Nat := 1
  handles : List Handle := []
  stopping : Option Thread := none
  stopped : Bool := false
  fault : Bool := false
  deriving DecidableEq, Repr

/-- The object and the pointer to itself own an implementation. -/
def Handle.owners (h : Handle) : Nat :=
  (if h.object = .gone then 0 else 1) + if h.impl.keep_alive_ then 1 else 0

/-- A function owns the implementation that it calls, or the manager. -/
def Task.owners : Task → Nat
  | .member _ => 1
  | .close _ => 1
  | .shares => 1
  | .other => 0
  | .stop => 0

/-- The owners of the manager and those of the implementations, which own it in turn. -/
def owners (s : System) : Nat :=
  s.users + total Handle.owners s.handles + total Task.owners s.loop.stored

/-- The owners of the implementation with this index. -/
def holds (s : System) (i : Nat) : Bool :=
  (s.handles[i]?).any (fun h => h.owners != 0) ||
    s.loop.stored.any (fun t => t = .member i || t = .close i)

/-- Users copy and drop pointers, get sockets and servers, call, close and destroy them. `drop` and
`release`, the end of a destructor, may run on either thread. In the rest the thread of the loop
runs by itself. -/
inductive Event where
  | copy
  | drop (thread : Thread)
  | create_socket
  | create_server
  | member (handle : Nat)
  | close (handle : Nat)
  | destroy (handle : Nat)
  | release (handle : Nat) (thread : Thread)
  | execute (shares : Bool)
  | async_new_task_cb
  | on_async_new_task
  | close_cb (handle : Nat)
  deriving DecidableEq, Repr

def Event.thread : Event → Thread
  | .drop thread => thread
  | .release _ thread => thread
  | .async_new_task_cb => .loop
  | .on_async_new_task => .loop
  | .close_cb _ => .loop
  | _ => .user

def post (s : System) (task : Task) : System := { s with loop := execute s.loop task }

/-- The call of a task by the thread of the loop. -/
def System.call (s : System) : Task → System
  | .close i =>
    match s.handles[i]? with
    | none => s
    | some h =>
      match h.impl.close with
      | none => { s with fault := true }
      | some impl => { s with handles := s.handles.set i { h with impl } }
  | .stop => { s with stopped := true }
  | _ => s

/-- What the thread of the event does, up to the destructor of the manager. -/
def act (s : System) : Event → Option System
  | .copy => if s.users = 0 then none else some { s with users := s.users + 1 }
  | .drop _ => if s.users = 0 then none else some { s with users := s.users - 1 }
  | .create_socket =>
    if owners s = 0 then none
    else some { s with handles := s.handles ++ [⟨.alive, .socket {}⟩] }
  | .create_server =>
    if owners s = 0 then none
    else some { s with handles := s.handles ++ [⟨.alive, .server {}⟩] }
  | .member i =>
    match s.handles[i]? with
    | some ⟨.alive, _⟩ => some (post s (.member i))
    | _ => none
  | .close i =>
    match s.handles[i]? with
    | some ⟨.alive, _⟩ => some (post s (.close i))
    | _ => none
  | .destroy i =>
    match s.handles[i]? with
    | some ⟨.alive, impl⟩ =>
      some (post { s with handles := s.handles.set i ⟨.destroying, impl⟩ } (.close i))
    | _ => none
  | .release i _ =>
    match s.handles[i]? with
    | some ⟨.destroying, impl⟩ => some { s with handles := s.handles.set i ⟨.gone, impl⟩ }
    | _ => none
  | .execute false => some (post s .other)
  | .execute true => if s.users = 0 then none else some (post s .shares)
  | .async_new_task_cb => (async_new_task_cb s.loop).map (fun loop => { s with loop })
  | .on_async_new_task =>
    (on_async_new_task s.loop).map (fun loop =>
      s.loop.next.elim { s with loop } { s with loop }.call)
  | .close_cb i =>
    match s.loop.place, s.handles[i]? with
    | .uv_run, some h =>
      if h.impl.closes then
        if holds s i then
          some { s with handles := s.handles.set i { h with impl := h.impl.on_close } }
        else some { s with fault := true }
      else none
    | _, _ => none

/-- `iomanager::stop`, by the destructor: the thread waits until the loop has called its task. -/
def stop (s : System) (thread : Thread) : System :=
  { s with loop := execute s.loop .stop, stopping := some thread }

/-- The thread of the loop waits for a task that only it would call. -/
def Blocked (s : System) : Prop := s.stopping = some .loop

instance (s : System) : Decidable (Blocked s) := inferInstanceAs (Decidable (_ = _))

/-- The thread that gives up the last owner runs the destructor. -/
def step (s : System) (e : Event) : Option System :=
  if s.fault || decide (Blocked s) then none
  else (act s e).map (fun s' => if owners s ≠ 0 ∧ owners s' = 0 then stop s' e.thread else s')

/-! ## What a thread can do -/

/-- The ends of `act`. -/
inductive Acts (s : System) : Event → System → Prop where
  | copy : Acts s .copy { s with users := s.users + 1 }
  | drop {thread} (hu : s.users ≠ 0) : Acts s (.drop thread) { s with users := s.users - 1 }
  | create_socket : Acts s .create_socket { s with handles := s.handles ++ [⟨.alive, .socket {}⟩] }
  | create_server : Acts s .create_server { s with handles := s.handles ++ [⟨.alive, .server {}⟩] }
  | member {i} : Acts s (.member i) (post s (.member i))
  | close {i} : Acts s (.close i) (post s (.close i))
  | destroy {i impl} (hi : s.handles[i]? = some ⟨.alive, impl⟩) : Acts s (.destroy i)
      (post { s with handles := s.handles.set i ⟨.destroying, impl⟩ } (.close i))
  | release {i thread impl} (hi : s.handles[i]? = some ⟨.destroying, impl⟩) :
      Acts s (.release i thread) { s with handles := s.handles.set i ⟨.gone, impl⟩ }
  | execute {shares} : Acts s (.execute shares) (post s (if shares then .shares else .other))
  | async {loop} (hl : async_new_task_cb s.loop = some loop) :
      Acts s .async_new_task_cb { s with loop }
  | turn {loop} (hl : on_async_new_task s.loop = some loop) :
      Acts s .on_async_new_task (s.loop.next.elim { s with loop } { s with loop }.call)
  | called_back {i h} (hi : s.handles[i]? = some h) : Acts s (.close_cb i)
      { s with handles := s.handles.set i { h with impl := h.impl.on_close } }
  | late {i h} (hi : s.handles[i]? = some h) (hh : holds s i ≠ true) :
      Acts s (.close_cb i) { s with fault := true }

theorem act_acts {s s' : System} {e : Event} (h : act s e = some s') : Acts s e s' := by
  unfold act at h
  split at h
  case h_1 | h_3 | h_4 | h_10 =>
    split at h
    · cases h
    · cases h
      constructor
  case h_2 =>
    split at h
    · cases h
    · rename_i hu
      cases h
      exact .drop hu
  case h_5 | h_6 =>
    split at h
    · cases h
      constructor
    · cases h
  case h_7 =>
    split at h
    · rename_i impl hi
      cases h
      exact .destroy hi
    · cases h
  case h_8 =>
    split at h
    · rename_i impl hi
      cases h
      exact .release hi
    · cases h
  case h_9 =>
    cases h
    exact .execute
  case h_11 =>
    obtain ⟨loop, hl, rfl⟩ := Option.map_eq_some_iff.mp h
    exact .async hl
  case h_12 =>
    obtain ⟨loop, hl, rfl⟩ := Option.map_eq_some_iff.mp h
    exact .turn hl
  case h_13 =>
    split at h
    · rename_i handle hplace hi
      split at h
      · split at h
        · cases h
          exact .called_back hi
        · rename_i hh
          cases h
          exact .late hi hh
      · cases h
    · cases h

/-! ## The owners -/

/-- 1 when the event gives up an owner: a pointer of a user, an object, a function that is
destroyed, or the pointer of a socket to itself. -/
def gives (s : System) : Event → Nat
  | .drop _ => 1
  | .release _ _ => 1
  | .on_async_new_task => s.loop.popped.elim 0 Task.owners
  | .close_cb i => if (s.handles[i]?).any (·.impl.keep_alive_) then 1 else 0
  | _ => 0

theorem owners_post (s : System) (task : Task) :
    owners (post s task) = owners s + task.owners := by
  unfold owners post
  dsimp only
  rw [stored_execute, total_append, total_cons, total_nil]
  omega

/-- A handle that is changed, and the owners that it had and has. -/
theorem owners_set {s : System} {i : Nat} {h : Handle} (h' : Handle) (hi : s.handles[i]? = some h) :
    owners { s with handles := s.handles.set i h' } + h.owners = owners s + h'.owners := by
  have hset := total_set Handle.owners s.handles i h h' hi
  unfold owners
  dsimp only
  omega

/-- The functions that the thread destroys are what it gives up. -/
theorem owners_loop {s : System} {loop : Loop Task} (hl : on_async_new_task s.loop = some loop) :
    owners { s with loop } + s.loop.popped.elim 0 Task.owners = owners s := by
  have hstored : total Task.owners s.loop.stored =
      s.loop.popped.elim 0 Task.owners + total Task.owners loop.stored := by
    rw [stored_next hl, total_append]
    cases s.loop.popped <;> rfl
  unfold owners
  dsimp only
  omega

theorem keep_alive_close {impl impl' : Impl} (h : impl.close = some impl')
    (hk : impl.keep_alive_ = true) : impl'.keep_alive_ = true := by
  cases impl with
  | server m => cases hk
  | socket c =>
    obtain ⟨c', hc, rfl⟩ := Option.map_eq_some_iff.mp h
    unfold lio.socket.impl.close at hc
    split at hc
    · cases hc
    · cases hc
      rfl

/-- A task makes owners and gives up none. -/
theorem owners_call (s : System) (task : Task) : owners s ≤ owners (s.call task) := by
  unfold System.call
  split
  · split
    · exact Nat.le_refl _
    · rename_i h hi
      split
      · exact Nat.le_refl _
      · rename_i impl hc
        have hset := owners_set { h with impl } hi
        have hle : h.owners ≤ ({ h with impl } : Handle).owners := by
          unfold Handle.owners
          refine Nat.add_le_add_left ?_ _
          split
          · rename_i hk
            exact Nat.le_of_eq (if_pos (keep_alive_close hc hk)).symm
          · exact Nat.zero_le _
        omega
  · exact Nat.le_refl _
  · exact Nat.le_refl _

theorem on_close_owners (h : Handle) :
    ({ h with impl := h.impl.on_close } : Handle).owners + (if h.impl.keep_alive_ then 1 else 0) =
      h.owners := by
  unfold Handle.owners
  cases hi : h.impl with
  | socket c => rfl
  | server m => rfl

theorem holds_of_keep_alive {s : System} {i : Nat} {h : Handle} (hi : s.handles[i]? = some h)
    (hk : h.impl.keep_alive_ = true) : holds s i = true := by
  unfold holds
  rw [hi, Option.any_some, Bool.or_eq_true]
  refine Or.inl (bne_iff_ne.mpr ?_)
  unfold Handle.owners
  rw [if_pos hk]
  exact Nat.succ_ne_zero _

/-- What the thread of the loop does between two locks. -/
theorem owners_turn {s : System} {loop : Loop Task} (hl : on_async_new_task s.loop = some loop) :
    owners s ≤ owners (s.loop.next.elim { s with loop } { s with loop }.call) +
        gives s .on_async_new_task ∧
      (gives s .on_async_new_task = 1 →
        owners (s.loop.next.elim { s with loop } { s with loop }.call) + 1 = owners s) ∧
      gives s .on_async_new_task ≤ 1 := by
  have howners := owners_loop hl
  unfold gives
  dsimp only
  cases hp : s.loop.popped with
  | none =>
    rw [hp] at howners
    refine ⟨?_, nofun, Nat.zero_le 1⟩
    cases s.loop.next with
    | none => exact Nat.le_of_eq howners.symm
    | some task => exact Nat.le_trans (Nat.le_of_eq howners.symm) (owners_call _ _)
  | some task =>
    -- a function that is destroyed was called before
    have hn : s.loop.next = none := by
      unfold Loop.popped at hp
      unfold Loop.next
      split at hp
      · rename_i hplace
        rw [hplace]
      · cases hp
    rw [hp] at howners
    rw [hn]
    refine ⟨Nat.le_of_eq howners.symm, fun hone => ?_, ?_⟩
    · rw [hone] at howners
      exact howners
    · cases task <;> exact Nat.le_of_ble_eq_true rfl

/-- The close callback gives up the pointer of a socket to itself. -/
theorem owners_called_back {s : System} {i : Nat} {h : Handle} (hi : s.handles[i]? = some h) :
    owners { s with handles := s.handles.set i { h with impl := h.impl.on_close } } +
      gives s (.close_cb i) = owners s := by
  have hset := owners_set { h with impl := h.impl.on_close } hi
  have hown := on_close_owners h
  unfold gives
  dsimp only
  rw [hi, Option.any_some]
  omega

/-- An event gives up the owners that it is said to give up, and no others. -/
theorem owners_act {s s' : System} {e : Event} (h : act s e = some s') :
    owners s ≤ owners s' + gives s e ∧ (gives s e = 1 → owners s' + 1 = owners s) ∧
      gives s e ≤ 1 := by
  have hkeep : owners s ≤ owners s' → owners s ≤ owners s' + 0 ∧
      (0 = 1 → owners s' + 1 = owners s) ∧ 0 ≤ 1 := fun hle => ⟨hle, nofun, Nat.zero_le 1⟩
  have hgive : owners s' + 1 = owners s → owners s ≤ owners s' + 1 ∧
      (1 = 1 → owners s' + 1 = owners s) ∧ 1 ≤ 1 :=
    fun he => ⟨Nat.le_of_eq he.symm, fun _ => he, Nat.le_refl 1⟩
  cases act_acts h with
  | copy =>
    refine hkeep ?_
    unfold owners
    dsimp only
    omega
  | drop hu =>
    refine hgive ?_
    unfold owners
    dsimp only
    omega
  | create_socket | create_server =>
    refine hkeep ?_
    unfold owners
    dsimp only
    rw [total_append]
    omega
  | member | close | execute =>
    refine hkeep ?_
    rw [owners_post]
    exact Nat.le_add_right _ _
  | @destroy i impl hi =>
    refine hkeep ?_
    rw [owners_post]
    have hset := owners_set ⟨.destroying, impl⟩ hi
    have hsame : (⟨.destroying, impl⟩ : Handle).owners = (⟨.alive, impl⟩ : Handle).owners := rfl
    omega
  | @release i thread impl hi =>
    refine hgive ?_
    have hset := owners_set ⟨.gone, impl⟩ hi
    have hone : (⟨.destroying, impl⟩ : Handle).owners = (⟨.gone, impl⟩ : Handle).owners + 1 := by
      show 1 + (if impl.keep_alive_ then 1 else 0) = 0 + (if impl.keep_alive_ then 1 else 0) + 1
      omega
    omega
  | async hl =>
    refine hkeep (Nat.le_of_eq ?_)
    unfold owners
    dsimp only
    rw [stored_async hl]
  | turn hl => exact owners_turn hl
  | @called_back i handle hi =>
    have heq := owners_called_back hi
    refine ⟨Nat.le_of_eq heq.symm, fun hone => by rw [hone] at heq; exact heq, ?_⟩
    unfold gives
    dsimp only
    split
    · exact Nat.le_refl 1
    · exact Nat.zero_le 1
  | @late i handle hi hh =>
    have hnone : gives s (.close_cb i) = 0 := by
      unfold gives
      dsimp only
      rw [hi, Option.any_some, if_neg (fun hk => hh (holds_of_keep_alive hi hk))]
    rw [hnone]
    exact hkeep (Nat.le_refl _)

/-! ## The thread of the loop -/

/-- The thread of the loop never gives up the last owner. -/
def Spares (s : System) (e : Event) : Prop :=
  e.thread = .loop → gives s e = 1 → owners s ≠ 1

instance (s : System) (e : Event) : Decidable (Spares s e) :=
  inferInstanceAs (Decidable (_ → _))

theorem call_stopping (s : System) (task : Task) : (s.call task).stopping = s.stopping := by
  unfold System.call
  split
  · split
    · rfl
    · split <;> rfl
  · rfl
  · rfl

theorem act_stopping {s s' : System} {e : Event} (h : act s e = some s') :
    s'.stopping = s.stopping := by
  cases act_acts h with
  | turn hl =>
    cases s.loop.next with
    | none => rfl
    | some task => exact call_stopping _ task
  | _ => rfl

theorem step_spares {s s' : System} {e : Event} (hb : ¬ Blocked s) (h : step s e = some s') :
    ¬ Blocked s' ↔ Spares s e := by
  unfold step at h
  split at h
  · cases h
  obtain ⟨t, ht, rfl⟩ := Option.map_eq_some_iff.mp h
  obtain ⟨hle, hgive, hone⟩ := owners_act ht
  have hstopping := act_stopping ht
  unfold Spares
  split
  · -- the last owner is given up
    rename_i hlast
    show ¬ some e.thread = some Thread.loop ↔ _
    have hgives : gives s e = 1 := by omega
    have howners : owners s = 1 := by
      have heq := hgive hgives
      omega
    constructor
    · intro hne hloop
      exact absurd (congrArg some hloop) hne
    · intro hall hloop
      exact hall (Option.some.inj hloop) hgives howners
  · rename_i hmore
    refine ⟨fun _ hloop hgives howners => hmore ?_, fun _ => ?_⟩
    · have heq := hgive hgives
      omega
    · unfold Blocked at hb ⊢
      rw [hstopping]
      exact hb

/-- In every run in which the thread of the loop spares the last owner it never waits for itself,
and a step in which it does not makes it wait. -/
theorem the_loop_never_waits_for_itself (s : System) (h : Reach step Spares {} s) :
    ¬ Blocked s ∧ ∀ e s', step s e = some s' → (¬ Blocked s' ↔ Spares s e) := by
  have hb : ¬ Blocked s :=
    h.invariant (P := fun s => ¬ Blocked s) nofun
      (fun _ _ _ hb hspares hs => (step_spares hb hs).mpr hspares)
  exact ⟨hb, fun e s' hs => step_spares hb hs⟩

theorem call_users (s : System) (task : Task) : (s.call task).users = s.users := by
  unfold System.call
  split
  · split
    · rfl
    · split <;> rfl
  · rfl
  · rfl

/-- A user who keeps a pointer to the manager keeps the thread of the loop out of the destructor. -/
theorem kept_pointer {s s' : System} {e : Event} (hu : s.users ≠ 0) (he : e ≠ .drop .loop)
    (h : act s e = some s') : Spares s e := by
  intro hloop hgives
  have husers : s'.users = s.users := by
    cases act_acts h with
    | copy => cases hloop
    | drop hu => exact absurd (congrArg Event.drop hloop) he
    | turn hl =>
      cases s.loop.next with
      | none => rfl
      | some task => exact call_users _ task
    | _ => rfl
  have heq := (owners_act h).2.1 hgives
  have hle : s'.users ≤ owners s' := by
    unfold owners
    omega
  omega

/-- The last user has dropped the pointer before a socket is closed. Its close callback runs the
destructor on the thread of the loop, where the task of `stop` stays in the queue. -/
theorem the_loop_may_wait_for_itself :
    (¬ ∀ s, Reach step anyEvent {} s → ¬ Blocked s) ∧
      ∃ s, Reach step anyEvent {} s ∧ Blocked s ∧ s.loop.queued = [.stop] ∧
        ∀ e, step s e = none := by
  have hrun : ∃ s, run step {} [.create_socket, .drop .user, .destroy 0, .release 0 .user,
      .async_new_task_cb, .on_async_new_task, .on_async_new_task, .on_async_new_task,
      .on_async_new_task, .on_async_new_task, .close_cb 0] = some s ∧
      s.stopping = some .loop ∧ s.loop.queued = [.stop] ∧ s.fault = false :=
    ⟨_, rfl, rfl, rfl, rfl⟩
  obtain ⟨s, hrun, hb, hq, -⟩ := hrun
  have hr : Reach step anyEvent {} s := reach_anyEvent hrun
  refine ⟨fun hall => hall s hr hb, s, hr, hb, hq, fun e => ?_⟩
  unfold step
  rw [if_pos]
  rw [Bool.or_eq_true, decide_eq_true_iff]
  exact Or.inr hb

/-- The last pointer is dropped by the user, after the socket is gone. -/
theorem the_loop_never_waits_for_itself_here : ∃ s, Reach step Spares {} s ∧
    s.stopping = some .user ∧ s.stopped = true ∧ ¬ Blocked s := by
  have hrun : ∃ s, runOk step Spares {} [.create_socket, .destroy 0, .release 0 .user,
      .async_new_task_cb, .on_async_new_task, .on_async_new_task, .on_async_new_task,
      .on_async_new_task, .on_async_new_task, .close_cb 0, .drop .user, .async_new_task_cb,
      .on_async_new_task, .on_async_new_task] = some s ∧
      s.stopping = some .user ∧ s.stopped = true := ⟨_, rfl, rfl, rfl⟩
  obtain ⟨s, hrun, hstopping, hstopped⟩ := hrun
  have hr := reach_of_runOk _ _ _ hrun
  exact ⟨s, hr, hstopping, hstopped, (the_loop_never_waits_for_itself s hr).1⟩

end lio.iomanager.lifetime
