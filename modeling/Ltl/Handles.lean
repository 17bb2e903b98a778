-- The TCP handles of a loop (server.cpp, socket.cpp, iomanager.cpp): who holds
-- each `uv_tcp_t` between `uv_tcp_init` and the end of `uv_close`. Accepted
-- connections and connects make sockets, and a socket gives its handle up in
-- the callback of its close.
import Ltl.TaskLoop

open runs lio.task_loop

namespace lio.tcp

/-! ## Handles and their holders -/

/-- What libuv has of a handle: it is in use, it is in the queue of closing handles, or it is
done with. -/
inductive Uv where
  | active
  | closing
  | closed
  deriving DecidableEq, Repr

/-- `uv_tcp_t`. `data` is the `socket::impl` of the handle, and `close_cb` says that `uv_close` was
given a callback. -/
structure Handle where
  uv : Uv := .active
  data : Option Nat := none
  close_cb : Bool := false
  deriving DecidableEq, Repr

/-- `connection_request`, none once it is deleted. `pending` says that libuv has accepted it. -/
structure ConnectionRequest where
  sock : Nat
  pending : Bool
  deriving DecidableEq, Repr

/-- `socket::impl` and its `socket`, which may be destroyed. `tcp_` says whether the pointer holds
the handle. -/
structure Impl where
  handle : Nat
  socket : Bool := true
  tcp_ : Bool := true
  closing_ : Bool := false
  keep_alive_ : Bool := false
  deriving DecidableEq, Repr

/-- A function in the queue of the manager. The ones of a socket have a copy of its `impl_`. -/
inductive Task where
  | use (i : Nat)
  | close (i : Nat)
  | connect
  | other
  deriving DecidableEq, Repr

def Task.impl? : Task → Option Nat
  | .use i => some i
  | .close i => some i
  | _ => none

/-- `stopped` says that the assertion of `impl::close` has failed. -/
structure System where
  loop : Loop Task := {}
  handles : List Handle := []
  requests : List (Option ConnectionRequest) := []
  impls : List Impl := []
  stopped : Bool := false
  deriving DecidableEq, Repr

def post (s : System) (task : Task) : System := { s with loop := execute s.loop task }

/-- A new socket over handle `h`: its `impl` writes itself to `data`. -/
def make_socket (s : System) (h : Nat) : System :=
  { s with
    handles := s.handles.modify h fun x => { x with data := some s.impls.length }
    impls := s.impls ++ [{ handle := h }] }

/-- `impl::close`. -/
def close (s : System) (i : Nat) (x : Impl) : System :=
  if x.closing_ then { s with stopped := true }
  else { s with
    handles := s.handles.modify x.handle fun h => { h with uv := .closing, close_cb := true }
    impls := s.impls.set i { x with closing_ := true, keep_alive_ := true } }

/-- `impl::connect`: `refused` is what `uv_tcp_connect` answers. -/
def connect (s : System) (refused : Bool) : System :=
  { s with
    handles := s.handles ++ [{}]
    requests := s.requests ++ [some ⟨s.handles.length, !refused⟩] }

/-- The call of a task by the thread of the loop. -/
def System.call (s : System) (refused : Bool) : Task → System
  | .close i =>
    match s.impls[i]? with
    | none => s
    | some x => close s i x
  | .connect => connect s refused
  | _ => s

/-- `server::impl::connection_established`. A failed accept gives its handle to `uv_close`, with no
callback, and then leaves the only pointer to it. -/
def connection_established (s : System) (status : Int) (accepted : Bool) : System :=
  if status ≠ 0 then s
  else if accepted then
    make_socket { s with handles := s.handles ++ [{}] } s.handles.length
  else { s with handles := s.handles ++ [{ uv := .closing }] }

/-- `on_close` of the `impl` in `data`. -/
def on_close (x : Impl) : Impl := { x with tcp_ := false, keep_alive_ := false }

/-- `close_cb` of libuv for handle `h`. -/
def closed (s : System) (h : Nat) (x : Handle) : System :=
  { s with
    handles := s.handles.set h { x with uv := .closed }
    impls :=
      match x.close_cb, x.data with
      | true, some i => s.impls.modify i on_close
      | _, _ => s.impls }

/-- `use` (a read or a write), `close` and `destroy` are calls of the user on socket `i`. In the
last five the thread of the loop runs, by itself or in a callback of libuv. -/
inductive Event where
  | connect
  | use (i : Nat)
  | close (i : Nat)
  | destroy (i : Nat)
  | execute
  | async_new_task_cb
  | on_async_new_task (refused : Bool)
  | connected (r : Nat)
  | connection (status : Int) (accepted : Bool)
  | close_cb (h : Nat)
  deriving DecidableEq, Repr

/-- A call on socket `i`, which posts `task`. -/
def onSocket (s : System) (i : Nat) (task : Task) (after : Bool) : Option System :=
  match s.impls[i]? with
  | none => none
  | some x =>
    if x.socket then some (post { s with impls := s.impls.set i { x with socket := after } } task)
    else none

def step (s : System) (e : Event) : Option System :=
  if s.stopped then none
  else
    match e with
    | .connect => some (post s .connect)
    | .use i => onSocket s i (.use i) true
    | .close i => onSocket s i (.close i) true
    | .destroy i => onSocket s i (.close i) false
    | .execute => some (post s .other)
    | .async_new_task_cb => (async_new_task_cb s.loop).map fun loop => { s with loop }
    | .on_async_new_task refused =>
      (on_async_new_task s.loop).map fun loop =>
        s.loop.next.elim { s with loop } ({ s with loop }.call refused)
    | .connected r =>
      match s.loop.place, s.requests[r]? with
      | .uv_run, some (some ⟨h, true⟩) =>
        some (make_socket { s with requests := s.requests.set r none } h)
      | _, _ => none
    | .connection status accepted =>
      if s.loop.place = .uv_run then some (connection_established s status accepted) else none
    | .close_cb h =>
      match s.loop.place, s.handles[h]? with
      | .uv_run, some x => if x.uv = .closing then some (closed s h x) else none
      | _, _ => none

/-- The `impl` is not destroyed. -/
def Alive (s : System) (i : Nat) (x : Impl) : Prop :=
  x.socket = true ∨ x.keep_alive_ = true ∨ ∃ task ∈ s.loop.stored, task.impl? = some i

/-- Some pointer holds handle `h`. -/
inductive Held (s : System) (h : Nat) : Prop where
  | request {r : Nat} {q} (hr : s.requests[r]? = some (some q)) (hq : q.sock = h)
  | impl {i : Nat} {x} (hi : s.impls[i]? = some x) (hx : x.handle = h) (ht : x.tcp_ = true)
      (ha : Alive s i x)

/-- The handles that are held are those that libuv is not done with, and libuv can call back to
the `data` of each. -/
structure Safe (s : System) : Prop where
  handle : ∀ (h : Nat) x, s.handles[h]? = some x → (x.uv ≠ .closed ↔ Held s h)
  data : ∀ (h : Nat) x i, s.handles[h]? = some x → x.uv ≠ .closed → x.data = some i →
    ∃ y, s.impls[i]? = some y ∧ Alive s i y

/-! ## What holds between the steps -/

/-- The life of socket `i` and its handle, where `tasks` are not called. An open one has its
`socket`, or the task that the destructor posted. -/
inductive Phase (tasks : List Task) (i : Nat) : Impl → Handle → Prop where
  | opened {n : Nat} {b : Bool} (hw : b = true ∨ Task.close i ∈ tasks) :
      Phase tasks i { handle := n, socket := b } { data := some i }
  | closing {n : Nat} {b : Bool} :
      Phase tasks i { handle := n, socket := b, closing_ := true, keep_alive_ := true }
        { uv := .closing, data := some i, close_cb := true }
  | closed {n : Nat} {b : Bool} :
      Phase tasks i { handle := n, socket := b, tcp_ := false, closing_ := true }
        { uv := .closed, data := some i, close_cb := true }

/-- `client` is the handle that a local variable of the running function holds, if there is one. -/
structure Inv (client : Option Nat) (s : System) : Prop where
  impls : ∀ (i : Nat) x, s.impls[i]? = some x →
    ∃ h, s.handles[x.handle]? = some h ∧ Phase s.loop.queued i x h
  requests : ∀ (r : Nat) q, s.requests[r]? = some (some q) →
    s.handles[q.sock]? = some {} ∧ some q.sock ≠ client
  distinct : ∀ (r r' : Nat) q q', s.requests[r]? = some (some q) →
    s.requests[r']? = some (some q') → q.sock = q'.sock → r = r'
  local_ : ∀ h, client = some h → s.handles[h]? = some {}
  owner : ∀ (h : Nat) x, s.handles[h]? = some x → some h = client ∨
    (∃ (r : Nat) (q : ConnectionRequest), s.requests[r]? = some (some q) ∧ q.sock = h) ∨
    ∃ (i : Nat) (y : Impl), s.impls[i]? = some y ∧ y.handle = h

theorem init_inv : Inv none {} := by
  refine ⟨?_, ?_, ?_, ?_, ?_⟩ <;> simp

theorem Phase.data {tasks : List Task} {i : Nat} {x : Impl} {h : Handle} (hp : Phase tasks i x h) :
    h.data = some i := by
  cases hp <;> simp

/-- A task that is called is missed by no open socket. -/
theorem Phase.mono {tasks tasks' : List Task} {i : Nat} {x : Impl} {h : Handle}
    (hp : Phase tasks i x h)
    (hm : x.closing_ = false → Task.close i ∈ tasks → Task.close i ∈ tasks') :
    Phase tasks' i x h := by
  cases hp with
  | opened hw => exact .opened (hw.imp_right (hm rfl))
  | closing => exact .closing
  | closed => exact .closed

theorem Phase.alive {s : System} {i : Nat} {x : Impl} {h : Handle}
    (hp : Phase s.loop.queued i x h) (hu : h.uv ≠ .closed) :
    x.tcp_ = true ∧ Alive s i x := by
  cases hp with
  | opened hw =>
    refine ⟨rfl, hw.imp_right fun hm => Or.inr ⟨.close i, ?_, rfl⟩⟩
    exact List.mem_append_right _ hm
  | closing => exact ⟨rfl, Or.inr (Or.inl rfl)⟩
  | closed => simp at hu

/-! ## The local variable -/

/-- `uv_tcp_init` of a new handle. -/
theorem init_handle {s : System} (hi : Inv none s) :
    Inv (some s.handles.length) { s with handles := s.handles ++ [{}] } := by
  have hkeep : ∀ (h : Nat) x, s.handles[h]? = some x → (s.handles ++ [({} : Handle)])[h]? = some x := by
    intro h x hx
    rw [List.getElem?_append_left (List.getElem?_eq_some_iff.mp hx).1, hx]
  refine ⟨?_, ?_, hi.distinct, ?_, ?_⟩
  · intro i x hx
    obtain ⟨h, hh, hp⟩ := hi.impls i x hx
    exact ⟨h, hkeep _ _ hh, hp⟩
  · intro r q hq
    have hh := (hi.requests r q hq).1
    have hlt := (List.getElem?_eq_some_iff.mp hh).1
    refine ⟨hkeep _ _ hh, ?_⟩
    simp only [ne_eq, Option.some.injEq]
    omega
  · intro h hh
    cases hh
    simp
  · intro h x hx
    by_cases hlt : h < s.handles.length
    · rw [List.getElem?_append_left hlt] at hx
      have ho := hi.owner h x hx
      simp only [reduceCtorEq, false_or] at ho
      exact Or.inr ho
    · have hlt' := (List.getElem?_eq_some_iff.mp hx).1
      simp only [List.length_append, List.length_singleton] at hlt'
      left
      congr 1
      omega

theorem push_request {s : System} {h : Nat} (hi : Inv (some h) s) (pending : Bool) :
    Inv none { s with requests := s.requests ++ [some ⟨h, pending⟩] } := by
  have hwhere : ∀ (r : Nat) q, (s.requests ++ [some ⟨h, pending⟩])[r]? = some (some q) →
      s.requests[r]? = some (some q) ∨ r = s.requests.length ∧ q = ⟨h, pending⟩ := by
    intro r q hq
    rw [List.getElem?_append] at hq
    split at hq
    · exact Or.inl hq
    · rw [List.getElem?_singleton] at hq
      split at hq
      · cases hq
        exact Or.inr ⟨by omega, rfl⟩
      · cases hq
  refine ⟨hi.impls, ?_, ?_, by simp, ?_⟩
  · intro r q hq
    rcases hwhere r q hq with hq | ⟨-, rfl⟩
    · exact ⟨(hi.requests r q hq).1, by simp⟩
    · exact ⟨hi.local_ h rfl, by simp⟩
  · intro r r' q q' hq hq' he
    rcases hwhere r q hq with hq | ⟨hr, rfl⟩ <;> rcases hwhere r' q' hq' with hq' | ⟨hr', rfl⟩
    · exact hi.distinct r r' q q' hq hq' he
    · exact absurd (congrArg some he) (hi.requests r q hq).2
    · exact absurd (congrArg some he.symm) (hi.requests r' q' hq').2
    · rw [hr, hr']
  · intro h' x hx
    refine Or.inr ?_
    rcases hi.owner h' x hx with he | ⟨r, q, hq, he⟩ | ho
    · cases he
      exact Or.inl ⟨s.requests.length, ⟨h, pending⟩, by simp, rfl⟩
    · refine Or.inl ⟨r, q, ?_, he⟩
      rw [List.getElem?_append_left (List.getElem?_eq_some_iff.mp hq).1, hq]
    · exact Or.inr ho

/-- The request is deleted, and the socket that is made has its handle. -/
theorem take_request {s : System} {r : Nat} {q : ConnectionRequest} (hi : Inv none s)
    (hq : s.requests[r]? = some (some q)) :
    Inv (some q.sock) { s with requests := s.requests.set r none } := by
  have hwhere : ∀ (k : Nat) p, (s.requests.set r none)[k]? = some (some p) →
      k ≠ r ∧ s.requests[k]? = some (some p) := by
    intro k p hp
    rw [List.getElem?_set] at hp
    split at hp
    · split at hp <;> cases hp
    · rename_i hne
      exact ⟨fun he => hne he.symm, hp⟩
  refine ⟨hi.impls, ?_, ?_, ?_, ?_⟩
  · intro k p hp
    obtain ⟨hne, hp⟩ := hwhere k p hp
    refine ⟨(hi.requests k p hp).1, fun he => ?_⟩
    exact hne (hi.distinct k r p q hp hq (Option.some.inj he))
  · intro k k' p p' hp hp'
    exact hi.distinct k k' p p' (hwhere k p hp).2 (hwhere k' p' hp').2
  · intro h he
    cases he
    exact (hi.requests r q hq).1
  · intro h x hx
    rcases hi.owner h x hx with he | ⟨k, p, hp, he⟩ | ho
    · cases he
    · by_cases hk : k = r
      · subst hk
        rw [hq] at hp
        cases hp
        exact Or.inl (congrArg some he.symm)
      · refine Or.inr (Or.inl ⟨k, p, ?_, he⟩)
        rw [List.getElem?_set_ne (fun he => hk he.symm), hp]
    · exact Or.inr (Or.inr ho)

theorem make_socket_inv {s : System} {h : Nat} (hi : Inv (some h) s) :
    Inv none (make_socket s h) := by
  have hself : (make_socket s h).handles[h]? = some { data := some s.impls.length } := by
    simp [make_socket, hi.local_ h rfl]
  have hother : ∀ h' : Nat, h' ≠ h → (make_socket s h).handles[h']? = s.handles[h']? := by
    intro h' hne
    simp only [make_socket]
    rw [List.getElem?_modify_ne _ _ (Ne.symm hne)]
  refine ⟨?_, ?_, hi.distinct, by simp, ?_⟩
  · intro i x hx
    simp only [make_socket, List.getElem?_append] at hx
    split at hx
    · obtain ⟨y, hy, hp⟩ := hi.impls i x hx
      refine ⟨y, ?_, hp⟩
      rw [hother, hy]
      intro he
      rw [he, hi.local_ h rfl] at hy
      cases hy
      have hd := hp.data
      simp at hd
    · rw [List.getElem?_singleton] at hx
      split at hx
      · cases hx
        have hlast : i = s.impls.length := by omega
        subst hlast
        exact ⟨_, hself, .opened (Or.inl rfl)⟩
      · cases hx
  · intro r q hq
    obtain ⟨hh, hne⟩ := hi.requests r q hq
    refine ⟨?_, by simp⟩
    rw [hother _ (fun he => hne (congrArg some he)), hh]
  · intro h' x hx
    refine Or.inr ?_
    by_cases he : h' = h
    · exact Or.inr ⟨s.impls.length, { handle := h }, by simp [make_socket], he.symm⟩
    · rw [hother h' he] at hx
      rcases hi.owner h' x hx with hc | ho | ⟨i, y, hy, hh⟩
      · exact absurd (Option.some.inj hc) he
      · exact Or.inl ho
      · refine Or.inr ⟨i, y, ?_, hh⟩
        simp only [make_socket]
        rw [List.getElem?_append_left (List.getElem?_eq_some_iff.mp hy).1, hy]

/-! ## What the events do to it -/

/-- The tasks of the open sockets stay. -/
theorem loop_inv {s : System} {client : Option Nat} (hi : Inv client s) (loop : Loop Task)
    (hm : ∀ (i : Nat) x, s.impls[i]? = some x → x.closing_ = false →
      Task.close i ∈ s.loop.queued → Task.close i ∈ loop.queued) :
    Inv client { s with loop } := by
  refine ⟨?_, hi.requests, hi.distinct, hi.local_, hi.owner⟩
  intro i x hx
  obtain ⟨h, hh, hp⟩ := hi.impls i x hx
  exact ⟨h, hh, hp.mono (hm i x hx)⟩

theorem post_inv {s : System} (hi : Inv none s) (task : Task) : Inv none (post s task) := by
  apply loop_inv hi
  intro i x _ _ hm
  rw [queued_execute]
  exact List.mem_append_left _ hm

/-- Socket `i` and its handle go on to their next phase, and no task is called. -/
theorem phase_inv {s s' : System} {i : Nat} {x : Impl} (x' : Impl) (h' : Handle)
    (hi : Inv none s) (hx : s.impls[i]? = some x) (hx' : x'.handle = x.handle)
    (hp : Phase s'.loop.queued i x' h')
    (hm : ∀ task ∈ s.loop.queued, task ∈ s'.loop.queued) (hr : s'.requests = s.requests)
    (hhandles : ∀ k, s'.handles[k]? = if k = x.handle then some h' else s.handles[k]?)
    (himpls : ∀ j, s'.impls[j]? = if j = i then some x' else s.impls[j]?) : Inv none s' := by
  obtain ⟨h, hh, hph⟩ := hi.impls i x hx
  refine ⟨?_, ?_, ?_, by simp, ?_⟩
  · intro j y hy
    rw [himpls] at hy
    split at hy
    · rename_i hj
      cases hy
      rw [hj, hx', hhandles, if_pos rfl]
      exact ⟨h', rfl, hp⟩
    · rename_i hj
      obtain ⟨k, hk, hpk⟩ := hi.impls j y hy
      refine ⟨k, ?_, hpk.mono fun _ => hm _⟩
      rw [hhandles, if_neg, hk]
      -- One handle has the data of one socket only.
      intro he
      rw [he, hh] at hk
      cases hk
      exact hj (Option.some.inj (hpk.data.symm.trans hph.data))
  · intro r q hq
    rw [hr] at hq
    obtain ⟨hk, hne⟩ := hi.requests r q hq
    refine ⟨?_, hne⟩
    rw [hhandles, if_neg, hk]
    intro he
    rw [he, hh] at hk
    cases hk
    have hd := hph.data
    simp at hd
  · rw [hr]
    exact hi.distinct
  · intro k y hy
    rw [hr]
    by_cases hk : k = x.handle
    · refine Or.inr (Or.inr ⟨i, x', ?_, hx'.trans hk.symm⟩)
      rw [himpls, if_pos rfl]
    · rw [hhandles, if_neg hk] at hy
      rcases hi.owner k y hy with ho | ho | ⟨j, z, hz, hj⟩
      · exact Or.inl ho
      · exact Or.inr (Or.inl ho)
      · refine Or.inr (Or.inr ⟨j, z, ?_, hj⟩)
        rw [himpls, if_neg, hz]
        intro he
        rw [he, hx] at hz
        cases hz
        exact hk hj.symm

theorem onSocket_inv {s s' : System} {i : Nat} {task : Task} {after : Bool} (hi : Inv none s)
    (ht : after = true ∨ task = .close i) (hs : onSocket s i task after = some s') :
    Inv none s' := by
  unfold onSocket at hs
  split at hs
  · cases hs
  · rename_i x hx
    split at hs
    · cases hs
      obtain ⟨h, hh, hp⟩ := hi.impls i x hx
      have hlt := (List.getElem?_eq_some_iff.mp hx).1
      refine phase_inv { x with socket := after } h hi hx rfl ?_ ?_ rfl ?_ ?_
      · simp only [post, queued_execute]
        cases hp with
        | opened hw =>
          refine .opened (ht.imp_right fun he => ?_)
          rw [he]
          simp
        | closing => exact .closing
        | closed => exact .closed
      · intro t hm
        simp only [post, queued_execute]
        exact List.mem_append_left _ hm
      · intro k
        by_cases hk : k = x.handle
        · simp [post, hk, hh]
        · simp [post, hk]
      · intro j
        by_cases hj : j = i
        · subst hj
          simp [post, hlt]
        · simp [post, hj, List.getElem?_set_ne (Ne.symm hj)]
    · cases hs

theorem close_inv {s : System} {i : Nat} {x : Impl} (hi : Inv none s) (hx : s.impls[i]? = some x) :
    Inv none (close s i x) := by
  unfold close
  split
  · exact ⟨hi.impls, hi.requests, hi.distinct, hi.local_, hi.owner⟩
  · rename_i hc
    obtain ⟨h, hh, hp⟩ := hi.impls i x hx
    have hlt := (List.getElem?_eq_some_iff.mp hx).1
    refine phase_inv { x with closing_ := true, keep_alive_ := true }
      { h with uv := .closing, close_cb := true } hi hx rfl ?_ (fun _ => id) rfl ?_ ?_
    · cases hp with
      | opened => exact .closing
      | closing => simp at hc
      | closed => simp at hc
    · intro k
      by_cases hk : k = x.handle
      · simp [hk, hh]
      · simp [hk, List.getElem?_modify_ne _ _ (Ne.symm hk)]
    · intro j
      by_cases hj : j = i
      · subst hj
        simp [hlt]
      · simp [hj, List.getElem?_set_ne (Ne.symm hj)]

theorem connect_inv {s : System} (hi : Inv none s) (refused : Bool) :
    Inv none (connect s refused) :=
  push_request (init_handle hi) (!refused)

theorem call_inv {s : System} (hi : Inv none s) (refused : Bool) (task : Task) :
    Inv none (s.call refused task) := by
  cases task with
  | close i =>
    simp only [System.call]
    split
    · exact hi
    · rename_i x hx
      exact close_inv hi hx
  | connect => exact connect_inv hi refused
  | use i => exact hi
  | other => exact hi

/-- The socket of a called `close` is not open. -/
theorem call_close {s : System} {refused : Bool} {i : Nat} {x : Impl}
    (hx : (s.call refused (.close i)).impls[i]? = some x) : x.closing_ = true := by
  simp only [System.call] at hx
  split at hx
  · rename_i hn
    rw [hn] at hx
    cases hx
  · rename_i y hy
    unfold close at hx
    split at hx
    · rename_i hc
      rw [hy] at hx
      cases hx
      exact hc
    · have hlt := (List.getElem?_eq_some_iff.mp hy).1
      simp only [List.getElem?_set_self hlt, Option.some.injEq] at hx
      rw [← hx]

/-- The call leaves the queue alone. -/
theorem call_loop (s : System) (loop : Loop Task) (refused : Bool) (task : Task) :
    ({ s with loop }).call refused task = { s.call refused task with loop } := by
  cases task with
  | close i =>
    simp only [System.call]
    split
    · simp
    · simp only [close]
      split <;> simp
  | connect => simp [System.call, connect]
  | use i => simp [System.call]
  | other => simp [System.call]

theorem execute_inv {s : System} {loop : Loop Task} (hi : Inv none s) (refused : Bool)
    (hs : on_async_new_task s.loop = some loop) :
    Inv none (s.loop.next.elim { s with loop } ({ s with loop }.call refused)) := by
  have hq := queued_next hs
  cases hn : s.loop.next with
  | none =>
    rw [hn] at hq
    apply loop_inv hi
    intro i x _ _ hm
    rw [hq] at hm
    exact hm
  | some task =>
    rw [hn] at hq
    simp only [Option.elim_some, call_loop]
    apply loop_inv (call_inv hi refused task)
    intro i x hx hopen hm
    have hloop : (s.call refused task).loop = s.loop := by
      have hcall := call_loop s s.loop refused task
      rw [hcall]
    rw [hloop, hq] at hm
    simp only [Option.toList_some, List.singleton_append, List.mem_cons] at hm
    rcases hm with rfl | hm
    · rw [call_close hx] at hopen
      cases hopen
    · exact hm

theorem established_inv {s : System} {status : Int} {accepted : Bool} (hi : Inv none s)
    (hok : status = 0 → accepted = true) :
    Inv none (connection_established s status accepted) := by
  unfold connection_established
  split
  · exact hi
  · rename_i hz
    rw [if_pos (hok (Decidable.not_not.mp hz))]
    exact make_socket_inv (init_handle hi)

/-- A handle that closes is the one of a socket that closes. -/
theorem closed_inv {s : System} {h : Nat} {x : Handle} (hi : Inv none s)
    (hx : s.handles[h]? = some x) (hu : x.uv = .closing) : Inv none (closed s h x) := by
  have hlth := (List.getElem?_eq_some_iff.mp hx).1
  rcases hi.owner h x hx with ho | ⟨r, q, hq, rfl⟩ | ⟨i, y, hy, rfl⟩
  · cases ho
  · rw [(hi.requests r q hq).1] at hx
    cases hx
    simp at hu
  · obtain ⟨x', hx', hp⟩ := hi.impls i y hy
    rw [hx] at hx'
    cases hx'
    refine phase_inv (on_close y) { x with uv := .closed } hi hy rfl ?_
      (fun _ => id) rfl ?_ ?_
    · cases hp with
      | opened => simp at hu
      | closing => exact .closed
      | closed => simp at hu
    · intro k
      by_cases hk : k = y.handle
      · simp [closed, hk, hlth]
      · simp [closed, hk, List.getElem?_set_ne (Ne.symm hk)]
    · intro j
      cases hp with
      | opened => simp at hu
      | closed => simp at hu
      | closing =>
        by_cases hj : j = i
        · subst hj
          simp [closed, hy]
        · simp [closed, hj, List.getElem?_modify_ne _ _ (Ne.symm hj)]

/-! ## Runs -/

/-- `uv_accept` does not fail. -/
def AcceptsOk (_ : System) (e : Event) : Prop := e ≠ .connection 0 false

instance (s : System) (e : Event) : Decidable (AcceptsOk s e) :=
  inferInstanceAs (Decidable (e ≠ .connection 0 false))

theorem step_inv {s s' : System} {e : Event} (hi : Inv none s) (hok : AcceptsOk s e)
    (hs : step s e = some s') : Inv none s' := by
  unfold step at hs
  split at hs
  · cases hs
  · cases e with
    | connect =>
      cases hs
      exact post_inv hi _
    | use i => exact onSocket_inv hi (Or.inl rfl) hs
    | close i => exact onSocket_inv hi (Or.inl rfl) hs
    | destroy i => exact onSocket_inv hi (Or.inr rfl) hs
    | execute =>
      cases hs
      exact post_inv hi _
    | async_new_task_cb =>
      obtain ⟨loop, hl, rfl⟩ := Option.map_eq_some_iff.mp hs
      apply loop_inv hi
      intro i x _ _ hm
      rw [queued_async hl]
      exact hm
    | on_async_new_task refused =>
      obtain ⟨loop, hl, rfl⟩ := Option.map_eq_some_iff.mp hs
      exact execute_inv hi refused hl
    | connected r =>
      simp only at hs
      split at hs
      · rename_i h _ hq
        cases hs
        exact make_socket_inv (take_request hi hq)
      · cases hs
    | connection status accepted =>
      simp only at hs
      split at hs
      · cases hs
        apply established_inv hi
        intro hz
        cases accepted with
        | true => rfl
        | false => exact absurd (by rw [hz]) hok
      · cases hs
    | close_cb h =>
      simp only at hs
      split at hs
      · rename_i x _ hx
        split at hs
        · rename_i hu
          cases hs
          exact closed_inv hi hx hu
        · cases hs
      · cases hs

theorem inv_safe {s : System} (hi : Inv none s) : Safe s := by
  have hsocket : ∀ (h : Nat) x i, s.handles[h]? = some x → x.data = some i →
      ∃ y, s.impls[i]? = some y ∧ y.handle = h ∧ Phase s.loop.queued i y x := by
    intro h x i hx hd
    rcases hi.owner h x hx with ho | ⟨r, q, hq, rfl⟩ | ⟨j, y, hy, rfl⟩
    · cases ho
    · rw [(hi.requests r q hq).1] at hx
      cases hx
      simp at hd
    · obtain ⟨x', hx', hp⟩ := hi.impls j y hy
      rw [hx] at hx'
      cases hx'
      have hj := hp.data.symm.trans hd
      cases hj
      exact ⟨y, hy, rfl, hp⟩
  refine ⟨?_, ?_⟩
  · intro h x hx
    constructor
    · intro hu
      rcases hi.owner h x hx with ho | ⟨r, q, hq, he⟩ | ⟨i, y, hy, rfl⟩
      · cases ho
      · exact .request hq he
      · obtain ⟨x', hx', hp⟩ := hi.impls i y hy
        rw [hx] at hx'
        cases hx'
        exact .impl hy rfl (hp.alive hu).1 (hp.alive hu).2
    · intro hheld
      cases hheld with
      | request hr hq =>
        rw [← hq, (hi.requests _ _ hr).1] at hx
        cases hx
        simp
      | impl hy hh ht =>
        obtain ⟨x', hx', hp⟩ := hi.impls _ _ hy
        rw [hh, hx] at hx'
        cases hx'
        cases hp with
        | opened => simp
        | closing => simp
        | closed => cases ht
  · intro h x i hx hu hd
    obtain ⟨y, hy, -, hp⟩ := hsocket h x i hx hd
    exact ⟨y, hy, (hp.alive hu).2⟩

/-- The handle of a failed accept is with libuv, and nothing holds it. -/
theorem failed_accept {s : System} (hi : Inv none s) :
    ¬ Safe (connection_established s 0 false) := by
  intro hsafe
  have hnew : (connection_established s 0 false).handles[s.handles.length]? =
      some { uv := .closing } := by
    simp [connection_established]
  have hheld := (hsafe.handle _ _ hnew).mp (by simp)
  cases hheld with
  | request hr hq =>
    have hlt := (List.getElem?_eq_some_iff.mp (hi.requests _ _ hr).1).1
    omega
  | impl hy hh =>
    obtain ⟨x, hx, -⟩ := hi.impls _ _ hy
    have hlt := (List.getElem?_eq_some_iff.mp hx).1
    omega

end lio.tcp
